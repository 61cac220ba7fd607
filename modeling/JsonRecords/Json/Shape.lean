import JsonRecords.Json.Encode
import JsonRecords.Json.Skip
import JsonRecords.Text.Quoted

/-!
# Reading records off JSON text

Readers for values of a known shape. A record is written as an object whose
members fill its slots by name, in any order and with unknown members passed
over, or as a list that fills its slots in order. The fault met first in
reading order is the one reported: a repeated slot right after its second key,
a missing one at the end of the record.
-/

namespace JsonRecords

namespace Shape

/-- Refuses the value at hand, naming what it is. A literal, number or string
is read first, so a fault inside it takes precedence. -/
def refuse {α : Type} (wanted : String) (s : Bytes) : Except Fault α :=
  let wrong (found : Found) (s : Bytes) : Except Fault α :=
    .error (.here (.shape (.wrongKind found wanted)) s)
  match s with
  | [] => .error (.ahead .endInValue [])
  | b :: s =>
    if b = Ascii.letterN then do wrong .null (← Lexeme.word Lexeme.nullTail s)
    else if b = Ascii.letterT then do wrong (.boolean true) (← Lexeme.word Lexeme.trueTail s)
    else if b = Ascii.letterF then do wrong (.boolean false) (← Lexeme.word Lexeme.falseTail s)
    else if b = Ascii.quote then do
      let (text, s) ← Lexeme.string s
      wrong (.string (Quoted.quote text)) s
    else if b = Ascii.openBracket then wrong .sequence s
    else if b = Ascii.openBrace then wrong .map s
    else if b = Ascii.minus || Ascii.isDigit b then do
      match ← Lexeme.number (b :: s) with
      | (.int value, s) => wrong (.integer value) s
      | (.float bits, s) => wrong (.decimal (Encode.number (.float bits))) s
    else .error (.ahead .valueExpected (b :: s))

def string (s : Bytes) : Except Fault (String × Bytes) :=
  match Ascii.skipBlank s with
  | [] => .error (.ahead .endInValue [])
  | b :: s => if b = Ascii.quote then Lexeme.string s else refuse "a string" (b :: s)

/-- One level of nesting less, for the container at hand. -/
def descend (levels : Nat) (s : Bytes) : Except Fault Nat :=
  match levels with
  | 0 => .error (.ahead .tooDeep s)
  | n + 1 => .ok n

/-- A list, each item read by `item` with one level less. -/
def list {α : Type} (bound levels : Nat) (item : Nat → Bytes → Except Fault (α × Bytes))
    (s : Bytes) : Except Fault (List α × Bytes) :=
  match Ascii.skipBlank s with
  | [] => .error (.ahead .endInValue [])
  | b :: s =>
    if b = Ascii.openBracket then do
      let levels ← descend levels (b :: s)
      Decode.items (item levels) bound true [] s
    else refuse "a sequence" (b :: s)

/-- One place of a record: its name, whether it must be filled, whether it is,
and how it is filled. -/
structure Slot (σ : Type) where
  name : String
  required : Bool
  isFilled : σ → Bool
  fill : (levels : Nat) → σ → Bytes → Except Fault (σ × Bytes)

def member {σ : Type} (bound levels : Nat) (slots : List (Slot σ)) (state : σ) (key : String)
    (s : Bytes) : Except Fault (σ × Bytes) :=
  match slots.find? (fun slot => slot.name = key) with
  | some slot =>
    if slot.isFilled state then .error (.here (.shape (.repeated key)) s)
    else do slot.fill levels state (← Decode.colon s)
  | none => do
    let s ← Decode.colon s
    let s ← Skip.value bound s
    return (state, s)

/-- Fills slots in order from the items of a list; `first` counts the slots
filled before. -/
def positional {σ : Type} (wanted : String) (levels : Nat) (first : Nat) :
    List (Slot σ) → σ → Bytes → Except Fault (σ × Bytes)
  | [], state, s =>
    match Ascii.skipBlank s with
    | [] => .error (.ahead .endInList [])
    | b :: s =>
      if b = Ascii.closeBracket then .ok (state, s)
      else if b = Ascii.comma then
        match Ascii.skipBlank s with
        | c :: s =>
          if c = Ascii.closeBracket then .error (.ahead .trailingComma (c :: s))
          else .error (.ahead .trailingText (c :: s))
        | [] => .error (.ahead .trailingText [])
      else .error (.ahead .trailingText (b :: s))
  | slot :: slots, state, s => do
    match ← Decode.nextItem (first == 0) s with
    | .item s =>
      let (state, s) ← slot.fill levels state s
      positional wanted levels (first + 1) slots state s
    | .close s =>
      match (slot :: slots).findIdx? (·.required) with
      | some i => throw (.here (.shape (.tooShort (first + i) wanted)) s)
      | none => return (state, s)

/-- A record, starting from a state with no slot filled. `wanted` is how
messages call it. -/
def record {σ : Type} (wanted : String) (slots : List (Slot σ)) (bound levels : Nat) (empty : σ)
    (s : Bytes) : Except Fault (σ × Bytes) :=
  match Ascii.skipBlank s with
  | [] => .error (.ahead .endInValue [])
  | b :: s =>
    if b = Ascii.openBrace then do
      let levels ← descend levels (b :: s)
      let (state, s) ← Decode.members (member bound levels slots) bound true empty s
      match slots.find? (fun slot => slot.required && !slot.isFilled state) with
      | some slot => throw (.here (.shape (.missing slot.name)) s)
      | none => return (state, s)
    else if b = Ascii.openBracket then do
      let levels ← descend levels (b :: s)
      positional s!"{wanted} with {slots.length} elements" levels 0 slots empty s
    else refuse wanted (b :: s)

/-- A word of a fixed list: a string, or the only key of an object whose value
is null. -/
def word {α : Type} (ofWord? : String → Option α) (known : List String) (levels : Nat)
    (s : Bytes) : Except Fault (α × Bytes) :=
  let choose (text : String) (s : Bytes) : Except Fault α :=
    match ofWord? text with
    | some v => .ok v
    | none => .error (.here (.shape (.unknownWord text known)) s)
  match Ascii.skipBlank s with
  | [] => .error (.ahead .endInValue [])
  | b :: s =>
    if b = Ascii.quote then do
      let (text, s) ← Lexeme.string s
      let v ← choose text s
      return (v, s)
    else if b = Ascii.openBrace then do
      let _ ← descend levels (b :: s)
      let (text, s) ← match Ascii.skipBlank s with
        | [] => throw (.ahead .endInObject [])
        | c :: s =>
          if c = Ascii.quote then Lexeme.string s
          else if c = Ascii.closeBrace then throw (.ahead .valueExpected (c :: s))
          else throw (.ahead .keyExpected (c :: s))
      let v ← choose text s
      let s ← Decode.colon s
      let s ← match Ascii.skipBlank s with
        | [] => throw (.ahead .endInValue [])
        | c :: s =>
          if c = Ascii.letterN then Lexeme.word Lexeme.nullTail s else refuse "unit" (c :: s)
      match Ascii.skipBlank s with
      | [] => throw (.here .endInObject [])
      | c :: s =>
        if c = Ascii.closeBrace then return (v, s) else throw (.here .valueExpected (c :: s))
    else .error (.ahead .valueExpected (b :: s))

def depthLimit : Nat := 127

end Shape

end JsonRecords
