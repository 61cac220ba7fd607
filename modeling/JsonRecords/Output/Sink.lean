import JsonRecords.Text.Ascii

/-!
# Writing source text

Source text is written so that it ends in a line feed. A sink takes bytes until
it has no room left: a write stores what fits and fails if that is not all.
-/

namespace JsonRecords

def endsInNewline (s : Bytes) : Bool :=
  s.getLast? = some Ascii.lineFeed

/-- Bytes with a line feed at the end, added if need be. -/
def terminated (s : Bytes) : Bytes :=
  if endsInNewline s then s else s ++ [Ascii.lineFeed]

/-- A place that stores bytes, with the room it has left; none is no bound.
The pieces that were stored stand latest first. -/
structure Sink where
  room : Option Nat
  pieces : List Bytes

namespace Sink

/-- All bytes stored, in order. -/
def stored (k : Sink) : Bytes :=
  k.pieces.reverse.flatten

def empty (room : Option Nat) : Sink :=
  ⟨room, []⟩

/-- Stores as many bytes as fit, and tells whether those were all. -/
def put (k : Sink) (s : Bytes) : Sink × Bool :=
  match k.room with
  | none => (⟨none, s :: k.pieces⟩, true)
  | some n => (⟨some (n - s.length), s.take n :: k.pieces⟩, s.length ≤ n)

/-- Writes source text: the text itself, and then, if all of it fitted and a
line feed is missing, the line feed. -/
def write (k : Sink) (source : Bytes) : Sink × Bool :=
  let (k, ok) := k.put source
  if ok && !endsInNewline source then k.put [Ascii.lineFeed] else (k, ok)

/-- Writes several source texts, one after another, also after failures. -/
def writeAll (k : Sink) : List Bytes → Sink × List Bool
  | [] => (k, [])
  | source :: rest =>
    let (k, ok) := k.write source
    let (k, oks) := k.writeAll rest
    (k, ok :: oks)

@[simp] theorem writeAll_nil (k : Sink) : k.writeAll [] = (k, []) := rfl

@[simp] theorem stored_empty (room : Option Nat) : (empty room).stored = [] := rfl

theorem stored_put_none (pieces : List Bytes) (s : Bytes) :
    (put ⟨none, pieces⟩ s).1.stored = stored ⟨none, pieces⟩ ++ s := by
  simp [put, stored]

theorem stored_put_some (n : Nat) (pieces : List Bytes) (s : Bytes) :
    (put ⟨some n, pieces⟩ s).1.stored = stored ⟨some n, pieces⟩ ++ s.take n := by
  simp [put, stored]

end Sink

end JsonRecords
