import JsonRecords.Json.Value

/-!
# Records

A record declaration is a name with fields in order; each field has the name
it had in the samples and a type expression. What a type expression has to say
is settled by the kind of the field and a hint.
-/

namespace JsonRecords

structure FieldDecl where
  name : String
  typeExpr : String
deriving DecidableEq, Repr

structure RecordDecl where
  name : String
  fields : List FieldDecl
deriving DecidableEq, Repr

def RecordDecl.field? (r : RecordDecl) (name : String) : Option FieldDecl :=
  r.fields.find? (fun f => f.name = name)

/-- What is known of a field beyond its kind: nothing, the kind of its
elements, or the record that describes it or its elements. -/
inductive Hint where
  | none
  | element (kind : Kind)
  | record (name : String)
deriving DecidableEq, Repr

abbrev TypeSpelling := Kind → Hint → String

/-- How the names of records are made up. -/
structure Naming where
  rootName : String
  separator : String
deriving DecidableEq, Repr

namespace Naming

def standard : Naming :=
  ⟨"root", "_"⟩

/-- The name of the record for a field of another record. -/
def nested (n : Naming) (parent field : String) : String :=
  parent ++ n.separator ++ field

end Naming

end JsonRecords
