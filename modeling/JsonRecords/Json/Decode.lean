import JsonRecords.Json.Lexeme

/-!
# Decoding JSON

A value is read off the front of a text by recursion on the nesting levels
still allowed: a container hands its items to the reader with one level less.
The loops over items and members are bounded by the size of the text, which no
container outnumbers.
-/

namespace JsonRecords

namespace Decode

/-- What comes next in a container: an item, at its first byte, or the end. -/
inductive Next where
  | item (rest : Bytes)
  | close (rest : Bytes)

/-- Looks for the next item of a list. Items after the first need a comma
before them, and a comma needs an item after it. -/
def nextItem (first : Bool) (s : Bytes) : Except Fault Next :=
  match Ascii.skipBlank s with
  | [] => .error (.ahead .endInList [])
  | b :: s =>
    if b = Ascii.closeBracket then .ok (.close s)
    else if first then .ok (.item (b :: s))
    else if b = Ascii.comma then
      match Ascii.skipBlank s with
      | [] => .error (.ahead .endInValue [])
      | c :: s =>
        if c = Ascii.closeBracket then .error (.ahead .trailingComma (c :: s))
        else .ok (.item (c :: s))
    else .error (.ahead .listEndExpected (b :: s))

/-- Looks for the next key of an object, and stops after its opening quote. -/
def nextKey (first : Bool) (s : Bytes) : Except Fault Next :=
  match Ascii.skipBlank s with
  | [] => .error (.ahead .endInObject [])
  | b :: s =>
    if b = Ascii.closeBrace then .ok (.close s)
    else if first then
      if b = Ascii.quote then .ok (.item s) else .error (.ahead .keyExpected (b :: s))
    else if b = Ascii.comma then
      match Ascii.skipBlank s with
      | [] => .error (.ahead .endInValue [])
      | c :: s =>
        if c = Ascii.quote then .ok (.item s)
        else if c = Ascii.closeBrace then .error (.ahead .trailingComma (c :: s))
        else .error (.ahead .keyExpected (c :: s))
    else .error (.ahead .objectEndExpected (b :: s))

def colon (s : Bytes) : Except Fault Bytes :=
  match Ascii.skipBlank s with
  | [] => .error (.ahead .endInObject [])
  | b :: s => if b = Ascii.colon then .ok s else .error (.ahead .colonExpected (b :: s))

/-- The items of a list after its opening bracket, each read by `item`; `done`
holds those read so far, latest first. -/
def items {α : Type} (item : Bytes → Except Fault (α × Bytes)) :
    (bound : Nat) → (first : Bool) → (done : List α) → Bytes →
      Except Fault (List α × Bytes)
  | 0, _, _, s => .error (.ahead .endInList s)
  | n + 1, first, done, s => do
    match ← nextItem first s with
    | .close s => return (done.reverse, s)
    | .item s =>
      let (v, s) ← item s
      items item n false (v :: done) s

/-- The members of an object after its opening brace. Each key and what
follows it are handed to `member`, which carries a state along. -/
def members {σ : Type} (member : σ → String → Bytes → Except Fault (σ × Bytes)) :
    (bound : Nat) → (first : Bool) → σ → Bytes → Except Fault (σ × Bytes)
  | 0, _, _, s => .error (.ahead .endInObject s)
  | n + 1, first, state, s => do
    match ← nextKey first s with
    | .close s => return (state, s)
    | .item s =>
      let (key, s) ← Lexeme.string s
      let (state, s) ← member state key s
      members member n false state s

/-- The member of a keyed collection under a key, read by `item`. -/
def keyed {α : Type} (item : Bytes → Except Fault (α × Bytes)) (entries : Keyed String α)
    (key : String) (s : Bytes) : Except Fault (Keyed String α × Bytes) := do
  let s ← colon s
  let (v, s) ← item s
  return (Keyed.set key v entries, s)

/-- A value at its first byte, blanks before it allowed. Items and members are
read by `inner`, which is absent when no further nesting is allowed. `bound`
is at least the size of the text. -/
def valueWith (bound : Nat) (inner : Option (Bytes → Except Fault (Json × Bytes))) (s : Bytes) :
    Except Fault (Json × Bytes) :=
  match Ascii.skipBlank s with
  | [] => .error (.ahead .endInValue [])
  | b :: s =>
    if b = Ascii.letterN then do
      let s ← Lexeme.word Lexeme.nullTail s
      return (.null, s)
    else if b = Ascii.letterT then do
      let s ← Lexeme.word Lexeme.trueTail s
      return (.bool true, s)
    else if b = Ascii.letterF then do
      let s ← Lexeme.word Lexeme.falseTail s
      return (.bool false, s)
    else if b = Ascii.quote then do
      let (text, s) ← Lexeme.string s
      return (.string text, s)
    else if b = Ascii.openBracket then
      match inner with
      | none => .error (.ahead .tooDeep (b :: s))
      | some item => do
        let (vs, s) ← items item bound true [] s
        return (.array vs, s)
    else if b = Ascii.openBrace then
      match inner with
      | none => .error (.ahead .tooDeep (b :: s))
      | some item => do
        let (ms, s) ← members (keyed item) bound true [] s
        return (.object ms, s)
    else if b = Ascii.minus || Ascii.isDigit b then do
      let (n, s) ← Lexeme.number (b :: s)
      return (.number n, s)
    else .error (.ahead .valueExpected (b :: s))

/-- A value with at most `levels` containers nested in each other. -/
def value (bound : Nat) : (levels : Nat) → Bytes → Except Fault (Json × Bytes)
  | 0, s => valueWith bound none s
  | n + 1, s => valueWith bound (some (value bound n)) s

/-- Refuses what follows a document, blanks apart. -/
def finish (s : Bytes) : Except Fault Unit :=
  match Ascii.skipBlank s with
  | [] => .ok ()
  | rest => .error (.ahead .trailingText rest)

/-- Reads a whole text with `read`, to which the size of the text is given. -/
def whole {α : Type} (read : (bound : Nat) → Bytes → Except Fault (α × Bytes))
    (text : Bytes) : Except Fault α := do
  let (v, s) ← read (text.length + 1) text
  finish s
  return v

end Decode

/-- Decodes a text that holds one value and nests at most `levels`
containers. -/
def Json.decode (levels : Nat) (text : Bytes) : Except Fault Json :=
  Decode.whole (fun bound => Decode.value bound levels) text

end JsonRecords
