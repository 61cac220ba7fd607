import JsonRecords.Schema.Basic

/-!
# Conflicts

The kind seen first at a position stands. A later value of another kind is a
conflict, recorded with the path of the position, the kind kept and the kind
ignored.
-/

namespace JsonRecords

namespace Schema

/-- One step down a schema: to a field, or to the elements of an array. -/
inductive Step where
  | field (key : String)
  | element
deriving DecidableEq, Repr

/-- The steps from the root to a position. -/
abbrev Path := List Step

namespace Path

/-- The text of a path one step further down. A field is set off by a point
unless nothing stands before it. -/
def extend (text : String) : Step → String
  | .field key => if text = "" then key else text ++ "." ++ key
  | .element => text ++ "[]"

/-- The text of a path, such as `pets[].age`. -/
def text (path : Path) : String :=
  path.foldl extend ""

@[simp] theorem text_nil : text [] = "" := rfl

/-- The text of a longer path extends the text of its beginning. -/
theorem text_append_singleton (path : Path) (step : Step) :
    text (path ++ [step]) = extend (text path) step := by
  simp [text]

/-- Whether a path leads to the elements of an array. -/
def endsInElement (path : Path) : Bool :=
  path.getLast? = some .element

end Path

/-- A value that disagreed with the kind already recorded at its position. -/
structure Conflict where
  path : Path
  kept : Kind
  ignored : Kind
deriving DecidableEq, Repr

/-- The conflict, if any, of a value of some kind met at a position. -/
def clash (path : Path) (node : Schema) (kind : Kind) : List Conflict :=
  if node.kind = kind then [] else [⟨path, node.kind, kind⟩]

@[simp] theorem clash_self (path : Path) (node : Schema) : clash path node node.kind = [] := by
  simp [clash]

/-- A clash is about the kind recorded and nothing else of the position. -/
theorem clash_congr {node node' : Schema} (h : node'.kind = node.kind) (path : Path) :
    clash path node' = clash path node := by
  funext kind
  rw [clash, clash, h]

end Schema

end JsonRecords
