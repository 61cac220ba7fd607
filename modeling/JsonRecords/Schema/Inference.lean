import JsonRecords.Schema.Merge

/-!
# Inference

Documents are merged one after another into the schema of none. An object is
merged whole; of an array every object is merged in turn; nothing else carries
fields. What was left out is remarked on in the order it was met.
-/

namespace JsonRecords

/-- What inference says about values it left out. -/
inductive Remark where
  | conflict (c : Schema.Conflict)
  | skipped (index : Nat) (kind : Kind)
  | scalar (kind : Kind)
deriving Repr

def Remark.conflict? : Remark → Option Schema.Conflict
  | conflict c => some c
  | _ => none

@[simp] theorem Remark.conflict?_conflict (c : Schema.Conflict) :
    (conflict c).conflict? = some c := rfl

@[simp] theorem Remark.conflict?_skipped (index : Nat) (kind : Kind) :
    (skipped index kind).conflict? = none := rfl

@[simp] theorem Remark.conflict?_scalar (kind : Kind) : (scalar kind).conflict? = none := rfl

theorem Remark.filterMap_conflict? (cs : List Schema.Conflict) :
    (cs.map conflict).filterMap conflict? = cs := by
  rw [List.filterMap_map]
  exact List.filterMap_some

namespace Schema

/-- Merges the objects among the elements of a top-level array, the first of
which has the given index. -/
def observeItems (node : Schema) (index : Nat) : List Json → Schema × List Remark
  | [] => (node, [])
  | .object members :: rest =>
    let (node, conflicts) := mergeMembers [] node members
    let (node, more) := observeItems node (index + 1) rest
    (node, conflicts.map Remark.conflict ++ more)
  | v :: rest =>
    let (node, more) := observeItems node (index + 1) rest
    (node, .skipped index v.kind :: more)

def observe (node : Schema) : Json → Schema × List Remark
  | .object members =>
    let (node, conflicts) := mergeMembers [] node members
    (node, conflicts.map Remark.conflict)
  | .array items => observeItems node 0 items
  | v => (node, [.scalar v.kind])

def observeAll (node : Schema) : List Json → Schema × List Remark
  | [] => (node, [])
  | document :: rest =>
    let (node, remarks) := observe node document
    let (node, more) := observeAll node rest
    (node, remarks ++ more)

@[simp] theorem observeItems_nil (node : Schema) (index : Nat) :
    observeItems node index [] = (node, []) := rfl

theorem observeItems_object (node : Schema) (index : Nat) (members : List (String × Json))
    (rest : List Json) :
    observeItems node index (.object members :: rest) =
      let merged := mergeMembers [] node members
      let more := observeItems merged.1 (index + 1) rest
      (more.1, merged.2.map Remark.conflict ++ more.2) := rfl

theorem observeItems_of_ne {v : Json} (h : v.kind ≠ .object) (node : Schema) (index : Nat)
    (rest : List Json) :
    observeItems node index (v :: rest) =
      let more := observeItems node (index + 1) rest
      (more.1, .skipped index v.kind :: more.2) := by
  cases v <;> simp_all [observeItems, Json.kind]

theorem observeAll_cons (node : Schema) (document : Json) (rest : List Json) :
    observeAll node (document :: rest) =
      let observed := observe node document
      let more := observeAll observed.1 rest
      (more.1, observed.2 ++ more.2) := rfl

/-- More documents go on where the first ones stopped. -/
theorem observeAll_append (node : Schema) (documents more : List Json) :
    observeAll node (documents ++ more) =
      ((observeAll (observeAll node documents).1 more).1,
        (observeAll node documents).2 ++ (observeAll (observeAll node documents).1 more).2) := by
  induction documents generalizing node with
  | nil => simp [observeAll]
  | cons document rest ih => simp [observeAll, ih]

end Schema

/-- The state of an inference: the schema so far, how many documents it has
seen, and the remarks on them. -/
structure Inference where
  schema : Schema
  documents : Nat
  remarks : List Remark

namespace Inference

def start : Inference :=
  ⟨.root, 0, []⟩

/-- More documents, in order. -/
def addAll (i : Inference) (documents : List Json) : Inference :=
  let (schema, remarks) := i.schema.observeAll documents
  ⟨schema, i.documents + documents.length, i.remarks ++ remarks⟩

def add (i : Inference) (document : Json) : Inference :=
  i.addAll [document]

/-- The conflicts so far, in order. -/
def conflicts (i : Inference) : List Schema.Conflict :=
  i.remarks.filterMap Remark.conflict?

@[simp] theorem addAll_nil (i : Inference) : i.addAll [] = i := by
  simp [addAll, Schema.observeAll]

theorem addAll_append (i : Inference) (ds es : List Json) :
    i.addAll (ds ++ es) = (i.addAll ds).addAll es := by
  simp [addAll, Schema.observeAll_append, Nat.add_assoc]

theorem addAll_cons (i : Inference) (d : Json) (ds : List Json) :
    i.addAll (d :: ds) = (i.add d).addAll ds :=
  addAll_append i [d] ds

end Inference

/-- The schema of a list of documents. -/
def Schema.infer (documents : List Json) : Schema :=
  (Inference.start.addAll documents).schema

end JsonRecords
