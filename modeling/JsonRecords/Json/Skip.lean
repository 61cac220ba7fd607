import JsonRecords.Json.Decode

/-!
# Passing over a value

The value of a member that nobody asked for is passed over without being
decoded. Its brackets are kept on a stack, so there is no bound on nesting,
and only its outline is checked: an escape of four digits may be half a
surrogate pair, and no number is too large.
-/

namespace JsonRecords

namespace Skip

/-- A container that has been opened. -/
inductive Container where
  | list
  | object
deriving DecidableEq, Repr

namespace Container

def close : Container → UInt8
  | list => Ascii.closeBracket
  | object => Ascii.closeBrace

/-- The reason given when the text ends inside a container. -/
def cut : Container → Reason
  | list => .endInList
  | object => .endInObject

/-- The reason given when neither a comma nor the closing byte follows an
item. -/
def unclosed : Container → Reason
  | list => .listEndExpected
  | object => .objectEndExpected

end Container

/-- How many bytes an escape takes after its backslash. -/
def escape : Bytes → Except Fault Nat
  | [] => .error (.here .endInString [])
  | e :: s =>
    if e = Ascii.letterU then do
      let _ ← Lexeme.hex4 s
      return 5
    else if (Lexeme.escaped? e).isSome then .ok 1
    else .error (.here .badEscape s)

/-- The text after a string whose opening quote has been read. The first
`taken` bytes belong to an escape that has been looked at. -/
def string (taken : Nat) : Bytes → Except Fault Bytes
  | [] => .error (.here .endInString [])
  | b :: s =>
    match taken with
    | n + 1 => string n s
    | 0 =>
      if b = Ascii.quote then .ok s
      else if b = Ascii.backslash then do
        let n ← escape s
        string n s
      else if b < 0x20 then .error (.here .controlCharacter (b :: s))
      else string 0 s

/-- The head of an item: for a member its key and colon. -/
def head : Container → Bytes → Except Fault Bytes
  | .list, s => .ok s
  | .object, s =>
    match Ascii.skipBlank s with
    | [] => .error (.ahead .endInObject [])
    | b :: s =>
      if b = Ascii.quote then do
        let s ← string 0 s
        Decode.colon s
      else .error (.ahead .keyExpected (b :: s))

/-- After a value: closes the containers that end here and goes on to the next
item, if any. Returns the containers still open, none when the outermost value
is complete. -/
def resume : List Container → Bytes → Except Fault (List Container × Bytes)
  | [], s => .ok ([], s)
  | c :: outer, s =>
    match Ascii.skipBlank s with
    | [] => .error (.ahead c.cut [])
    | b :: s =>
      if b = Ascii.comma then do
        let s ← head c s
        return (c :: outer, s)
      else if b = c.close then resume outer s
      else .error (.ahead c.unclosed (b :: s))

/-- After an opening byte: goes on to the first item, or past the end of an
empty container. -/
def enter (c : Container) (outer : List Container) (s : Bytes) :
    Except Fault (List Container × Bytes) :=
  match Ascii.skipBlank s with
  | [] => .error (.ahead c.cut [])
  | b :: s =>
    if b = c.close then resume outer s
    else do
      let s ← head c (b :: s)
      return (c :: outer, s)

/-- Passes over one scalar or one opening byte and what completes it. -/
def step (stack : List Container) (s : Bytes) : Except Fault (List Container × Bytes) :=
  match Ascii.skipBlank s with
  | [] => .error (.ahead .endInValue [])
  | b :: s =>
    if b = Ascii.letterN then do resume stack (← Lexeme.word Lexeme.nullTail s)
    else if b = Ascii.letterT then do resume stack (← Lexeme.word Lexeme.trueTail s)
    else if b = Ascii.letterF then do resume stack (← Lexeme.word Lexeme.falseTail s)
    else if b = Ascii.quote then do resume stack (← string 0 s)
    else if b = Ascii.openBracket then enter .list stack s
    else if b = Ascii.openBrace then enter .object stack s
    else if b = Ascii.minus || Ascii.isDigit b then do
      let (_, s) ← Lexeme.numeral .badNumber (b :: s)
      resume stack s
    else .error (.ahead .valueExpected (b :: s))

def run : (bound : Nat) → List Container → Bytes → Except Fault Bytes
  | 0, _, s => .error (.ahead .endInValue s)
  | n + 1, stack, s => do
    match ← step stack s with
    | ([], s) => return s
    | (stack, s) => run n stack s

/-- The text after one value. `bound` is at least the size of the text. -/
def value (bound : Nat) (s : Bytes) : Except Fault Bytes :=
  run bound [] s

end Skip

end JsonRecords
