import JsonRecords.Record.Basic
import JsonRecords.Schema.Basic

/-!
# From a schema to records

Every object of a schema becomes a record, and its fields are visited by name.
A record takes its place in the output before its fields are visited, so it
stands before the records nested in it. Records that come to the same name
share one place, and fields are appended to it in the order in which they are
finished.
-/

namespace JsonRecords

namespace Schema

mutual

/-- A schema with the fields of every object in order of their names. -/
def sorted : Schema → Schema
  | ⟨name, kind, children⟩ =>
    let below := sortedChildren children
    ⟨name, kind,
      if kind = .object then below.mergeSort (fun a b => decide (a.2.name ≤ b.2.name))
      else below⟩

def sortedChildren : List (String × Schema) → List (String × Schema)
  | [] => []
  | (key, c) :: rest => (key, c.sorted) :: sortedChildren rest

end

end Schema

/-- Records in the order in which they took their places. -/
abbrev Table := List RecordDecl

namespace Table

/-- Gives a name a place, if it has none. -/
def reserve (t : Table) (name : String) : Table :=
  if t.any (fun r => r.name = name) then t else t ++ [⟨name, []⟩]

def append (name : String) (field : FieldDecl) : Table → Table
  | [] => [⟨name, [field]⟩]
  | r :: t =>
    if r.name = name then { r with fields := r.fields ++ [field] } :: t
    else r :: append name field t

end Table

namespace Generate

/-- The hint for a field of the record `parent`. -/
def hint (naming : Naming) (parent : String) (field : Schema) : Hint :=
  match field.kind, field.element? with
  | .object, _ => .record (naming.nested parent field.name)
  | .array, some element =>
    if element.isObject then .record (naming.nested parent field.name) else .element element.kind
  | _, _ => .none

/-- The declaration of a field of the record `parent`. -/
def declare (naming : Naming) (spell : TypeSpelling) (parent : String) (field : Schema) :
    FieldDecl :=
  ⟨field.name, spell field.kind (hint naming parent field)⟩

mutual

/-- Adds the record `name` for an object, and after it the records nested in
it. Nothing but an object gets a record. -/
def emit (naming : Naming) (spell : TypeSpelling) (name : String) (table : Table) :
    Schema → Table
  | ⟨_, kind, children⟩ =>
    if kind = .object then emitFields naming spell name (table.reserve name) children else table

/-- Adds the fields of the record `name`, each after the records nested in
it. -/
def emitFields (naming : Naming) (spell : TypeSpelling) (name : String) (table : Table) :
    List (String × Schema) → Table
  | [] => table
  | (_, field) :: rest =>
    let table := emitBelow naming spell name table field
    emitFields naming spell name (table.append name (declare naming spell name field)) rest

/-- Adds the records nested in a field of the record `name`: that of an object,
or that of the elements of an array. -/
def emitBelow (naming : Naming) (spell : TypeSpelling) (name : String) (table : Table) :
    Schema → Table
  | ⟨fieldName, kind, children⟩ =>
    let nested := naming.nested name fieldName
    match kind with
    | .object => emitFields naming spell nested (table.reserve nested) children
    | .array => emitElement naming spell nested table children
    | _ => table

/-- Adds the record `name` for the elements of an array. -/
def emitElement (naming : Naming) (spell : TypeSpelling) (name : String) (table : Table) :
    List (String × Schema) → Table
  | [] => table
  | (key, element) :: rest =>
    if key = Schema.elementKey then emit naming spell name table element
    else emitElement naming spell name table rest

end

mutual

/-- The records added for an object with the number of its children, in the
order in which they are finished. -/
def finished (naming : Naming) (name : String) : Schema → List (String × Nat)
  | ⟨_, kind, children⟩ =>
    if kind = .object then finishedFields naming name children ++ [(name, children.length)] else []

/-- The records finished in the fields of the record `name`. -/
def finishedFields (naming : Naming) (name : String) :
    List (String × Schema) → List (String × Nat)
  | [] => []
  | (_, field) :: rest => finishedBelow naming name field ++ finishedFields naming name rest

/-- The records finished in one field of the record `name`. -/
def finishedBelow (naming : Naming) (name : String) : Schema → List (String × Nat)
  | ⟨fieldName, kind, children⟩ =>
    let nested := naming.nested name fieldName
    match kind with
    | .object => finishedFields naming nested children ++ [(nested, children.length)]
    | .array => finishedElement naming nested children
    | _ => []

/-- The records finished in the elements of an array. -/
def finishedElement (naming : Naming) (name : String) :
    List (String × Schema) → List (String × Nat)
  | [] => []
  | (key, element) :: rest =>
    if key = Schema.elementKey then finished naming name element
    else finishedElement naming name rest

end

end Generate

/-- The records of a schema. One that is no object has none. -/
def Schema.records (s : Schema) (naming : Naming) (spell : TypeSpelling) : List RecordDecl :=
  Generate.emit naming spell naming.rootName [] s.sorted

/-- The records of a schema with the number of their fields, in the order in
which they are finished. -/
def Schema.finishedRecords (s : Schema) (naming : Naming) : List (String × Nat) :=
  Generate.finished naming naming.rootName s.sorted

end JsonRecords
