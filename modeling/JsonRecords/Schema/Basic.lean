import JsonRecords.Json.Value

/-!
# Schemas

A schema is the tree of positions that sample documents were seen to have. An
object node holds one child for each field, in the order the fields were first
seen; an array node holds a single child for its elements. The data type does
not enforce this: a schema read from a file may have any shape, and every
function here is total on such trees too.
-/

namespace JsonRecords

/-- One position of the sample documents: its name, the kind first seen there,
and the positions below it. -/
structure Schema where
  name : String
  kind : Kind
  children : List (String × Schema)
deriving Repr

namespace Schema

/-- The name of the position that stands for whole documents. -/
def rootName : String := "root"

/-- The key and name of the position that stands for the elements of an
array. -/
def elementKey : String := "content"

def leaf (name : String) (kind : Kind) : Schema :=
  ⟨name, kind, []⟩

def root : Schema :=
  leaf rootName .object

instance : Inhabited Schema := ⟨root⟩

def isObject (s : Schema) : Bool :=
  s.kind = .object

def isArray (s : Schema) : Bool :=
  s.kind = .array

def child (s : Schema) (key : String) : Option Schema :=
  Keyed.get? key s.children

def setChild (s : Schema) (key : String) (c : Schema) : Schema :=
  { s with children := Keyed.set key c s.children }

def element? (s : Schema) : Option Schema :=
  if s.isArray then s.child elementKey else none

def elementKind? (s : Schema) : Option Kind :=
  s.element?.map Schema.kind

/-- The fields of an object, in the order they were seen. -/
def fields (s : Schema) : List Schema :=
  if s.isObject then Keyed.values s.children else []

/-- The fields of an object by name. Fields of one name keep their order. -/
def sortedFields (s : Schema) : List Schema :=
  s.fields.mergeSort (fun a b => decide (a.name ≤ b.name))

def isRoot (s : Schema) : Bool :=
  s.name = rootName && s.isObject && s.children.isEmpty

mutual

/-- One line for each position, indented by depth. -/
def describeAt (depth : Nat) : Schema → String
  | ⟨name, kind, children⟩ =>
    "".pushn ' ' (2 * depth) ++ name ++ ": " ++ kind.word ++ "\n" ++
      describeChildren (depth + 1) children

def describeChildren (depth : Nat) : List (String × Schema) → String
  | [] => ""
  | (_, c) :: rest => describeAt depth c ++ describeChildren depth rest

end

/-- The outline of a schema, one line for each position. -/
def describe (s : Schema) : String :=
  describeAt 0 s

@[simp] theorem name_leaf (name : String) (kind : Kind) : (leaf name kind).name = name := rfl

@[simp] theorem kind_leaf (name : String) (kind : Kind) : (leaf name kind).kind = kind := rfl

@[simp] theorem children_leaf (name : String) (kind : Kind) :
    (leaf name kind).children = [] := rfl

@[simp] theorem name_setChild (s : Schema) (key : String) (c : Schema) :
    (s.setChild key c).name = s.name := rfl

@[simp] theorem kind_setChild (s : Schema) (key : String) (c : Schema) :
    (s.setChild key c).kind = s.kind := rfl

theorem child_setChild (s : Schema) (key other : String) (c : Schema) :
    (s.setChild key c).child other = if key = other then some c else s.child other :=
  Keyed.get?_set key other c s.children

theorem child_setChild_self (s : Schema) (key : String) (c : Schema) :
    (s.setChild key c).child key = some c := by
  rw [child_setChild, if_pos rfl]

end Schema

end JsonRecords
