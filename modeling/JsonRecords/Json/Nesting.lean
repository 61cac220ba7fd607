import JsonRecords.Text.Ascii

/-!
# Nesting of brackets

A scan over raw bytes that tells, before any decoding, whether brackets
outside of strings nest too deep. It knows no more of JSON than where strings
begin and end; a closing bracket too many is ignored.
-/

namespace JsonRecords

namespace Nesting

/-- Where the scan stands: outside of strings, in a string, or in a string
after a backslash. -/
inductive Mode where
  | outside
  | quoted
  | escaped
deriving DecidableEq, Repr

def Mode.next (b : UInt8) : Mode → Mode
  | outside => if b = Ascii.quote then quoted else outside
  | quoted =>
    if b = Ascii.backslash then escaped
    else if b = Ascii.quote then outside
    else quoted
  | escaped => quoted

def opens (b : UInt8) : Bool :=
  b = Ascii.openBracket || b = Ascii.openBrace

def closes (b : UInt8) : Bool :=
  b = Ascii.closeBracket || b = Ascii.closeBrace

/-- How many containers are open after a byte met in a mode. -/
def depthAfter (mode : Mode) (depth : Nat) (b : UInt8) : Nat :=
  match mode with
  | .outside => if opens b then depth + 1 else if closes b then depth - 1 else depth
  | _ => depth

/-- Whether more than `limit` containers are open somewhere in a text, scanned
on from a mode and a number of open containers. -/
def exceedsFrom (limit : Nat) (mode : Mode) (depth : Nat) : Bytes → Bool
  | [] => false
  | b :: s =>
    let next := depthAfter mode depth b
    if limit < next then true else exceedsFrom limit (mode.next b) next s

/-- Whether brackets outside of strings nest deeper than a limit. -/
def exceeds (limit : Nat) (s : Bytes) : Bool :=
  exceedsFrom limit .outside 0 s

@[simp] theorem exceedsFrom_nil (limit : Nat) (mode : Mode) (depth : Nat) :
    exceedsFrom limit mode depth [] = false := rfl

theorem exceedsFrom_cons (limit : Nat) (mode : Mode) (depth : Nat) (b : UInt8) (s : Bytes) :
    exceedsFrom limit mode depth (b :: s) =
      (decide (limit < depthAfter mode depth b) ||
        exceedsFrom limit (mode.next b) (depthAfter mode depth b) s) := by
  by_cases h : limit < depthAfter mode depth b <;> simp [exceedsFrom, h]

end Nesting

end JsonRecords
