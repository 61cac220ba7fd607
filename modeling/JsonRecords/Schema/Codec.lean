import JsonRecords.Json.Shape
import JsonRecords.Schema.Conflict

/-!
# Schemas as JSON

A schema is written as an object with its name, its kind and, if it has any,
its children by key. It is read back from any text that fills those places.
-/

namespace JsonRecords

namespace Kind

def toJson (k : Kind) : Json :=
  .string k.word

def read (levels : Nat) (s : Bytes) : Except Fault (Kind × Bytes) :=
  Shape.word ofWord? (all.map word) levels s

def decode (text : Bytes) : Except Fault Kind :=
  Decode.whole (fun _ => read Shape.depthLimit) text

end Kind

namespace Schema

mutual

def toJson : Schema → Json
  | ⟨name, kind, children⟩ =>
    .object ([("name", .string name), ("kind", kind.toJson)] ++
      if children.isEmpty then [] else [("children", .object (childrenToJson children))])

def childrenToJson : List (String × Schema) → List (String × Json)
  | [] => []
  | (key, c) :: rest => (key, toJson c) :: childrenToJson rest

end

structure Draft where
  name : Option String
  kind : Option Kind
  children : Option (List (String × Schema))

namespace Draft

def empty : Draft := ⟨none, none, none⟩

/-- The schema read, an absent list of children being an empty one. -/
def finish (d : Draft) : Schema :=
  ⟨d.name.getD "", d.kind.getD .null, d.children.getD []⟩

end Draft

/-- Children by key, each read by `inner`, which is absent when no further
nesting is allowed. -/
def readChildren (bound : Nat) (inner : Option (Bytes → Except Fault (Schema × Bytes)))
    (s : Bytes) : Except Fault (List (String × Schema) × Bytes) :=
  match Ascii.skipBlank s with
  | [] => .error (.ahead .endInValue [])
  | b :: s =>
    if b = Ascii.openBrace then
      match inner with
      | none => .error (.ahead .tooDeep (b :: s))
      | some item => Decode.members (Decode.keyed item) bound true [] s
    else Shape.refuse "a map" (b :: s)

def slots (bound : Nat) (inner : Option (Bytes → Except Fault (Schema × Bytes))) :
    List (Shape.Slot Draft) :=
  [ ⟨"name", true, fun d => d.name.isSome, fun _ d s => do
      let (name, s) ← Shape.string s
      return ({ d with name := some name }, s)⟩,
    ⟨"kind", true, fun d => d.kind.isSome, fun levels d s => do
      let (kind, s) ← Kind.read levels s
      return ({ d with kind := some kind }, s)⟩,
    ⟨"children", false, fun d => d.children.isSome, fun _ d s => do
      let (children, s) ← readChildren bound inner s
      return ({ d with children := some children }, s)⟩ ]

/-- Reads a schema off the front of a text. A schema and its children are two
levels of nesting. -/
def read (bound : Nat) : (levels : Nat) → Bytes → Except Fault (Schema × Bytes)
  | 0, s => do
    let (d, s) ← Shape.record "struct SchemaNode" (slots bound none) bound 0 .empty s
    return (d.finish, s)
  | 1, s => do
    let (d, s) ← Shape.record "struct SchemaNode" (slots bound none) bound 1 .empty s
    return (d.finish, s)
  | n + 2, s => do
    let (d, s) ← Shape.record "struct SchemaNode" (slots bound (some (read bound n)))
      bound (n + 2) .empty s
    return (d.finish, s)

def decode (text : Bytes) : Except Fault Schema :=
  Decode.whole (fun bound => read bound Shape.depthLimit) text

def Conflict.toJson (c : Conflict) : Json :=
  .object [("path", .string c.path.text), ("kept", c.kept.toJson), ("ignored", c.ignored.toJson)]

end Schema

end JsonRecords
