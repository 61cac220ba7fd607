import JsonRecords.Json.Shape
import JsonRecords.Record.Basic

/-!
# Records and namings as JSON

Objects with one member for each part, in order of declaration.
-/

namespace JsonRecords

namespace FieldDecl

def toJson (f : FieldDecl) : Json :=
  .object [("name", .string f.name), ("type_expr", .string f.typeExpr)]

end FieldDecl

namespace RecordDecl

def toJson (r : RecordDecl) : Json :=
  .object [("name", .string r.name), ("fields", .array (r.fields.map FieldDecl.toJson))]

def listToJson (rs : List RecordDecl) : Json :=
  .array (rs.map toJson)

end RecordDecl

namespace Naming

def toJson (n : Naming) : Json :=
  .object [("root_name", .string n.rootName), ("separator", .string n.separator)]

end Naming

/-- Two parts of a record that is being read. -/
structure PairDraft (α β : Type) where
  first : Option α
  second : Option β

namespace PairDraft

def empty {α β : Type} : PairDraft α β := ⟨none, none⟩

def firstSlot {α β : Type} (name : String)
    (read : Nat → Bytes → Except Fault (α × Bytes)) : Shape.Slot (PairDraft α β) :=
  ⟨name, true, fun d => d.first.isSome, fun levels d s => do
    let (v, s) ← read levels s
    return ({ d with first := some v }, s)⟩

def secondSlot {α β : Type} (name : String)
    (read : Nat → Bytes → Except Fault (β × Bytes)) : Shape.Slot (PairDraft α β) :=
  ⟨name, true, fun d => d.second.isSome, fun levels d s => do
    let (v, s) ← read levels s
    return ({ d with second := some v }, s)⟩

end PairDraft

/-- Reads a string, which needs no level of nesting. -/
def readText (_levels : Nat) (s : Bytes) : Except Fault (String × Bytes) :=
  Shape.string s

def FieldDecl.read (bound levels : Nat) (s : Bytes) : Except Fault (FieldDecl × Bytes) := do
  let (d, s) ← Shape.record "struct FieldDecl"
    [PairDraft.firstSlot "name" readText, PairDraft.secondSlot "type_expr" readText]
    bound levels .empty s
  return (⟨d.first.getD "", d.second.getD ""⟩, s)

def RecordDecl.read (bound levels : Nat) (s : Bytes) : Except Fault (RecordDecl × Bytes) := do
  let (d, s) ← Shape.record "struct ClassDecl"
    [PairDraft.firstSlot "name" readText,
      PairDraft.secondSlot "fields" fun levels => Shape.list bound levels (FieldDecl.read bound)]
    bound levels .empty s
  return (⟨d.first.getD "", d.second.getD []⟩, s)

def RecordDecl.decodeList (text : Bytes) : Except Fault (List RecordDecl) :=
  Decode.whole (fun bound => Shape.list bound Shape.depthLimit (RecordDecl.read bound)) text

def Naming.decode (text : Bytes) : Except Fault Naming :=
  Decode.whole (fun bound s => do
    let (d, s) ← Shape.record "struct GeneratorConfig"
      [PairDraft.firstSlot "root_name" readText, PairDraft.secondSlot "separator" readText]
      bound Shape.depthLimit .empty s
    return (⟨d.first.getD "", d.second.getD ""⟩, s)) text

end JsonRecords
