import JsonRecords.Schema.Conflict

/-!
# Merging documents into a schema

Merging walks down a value and a schema side by side. A position met for the
first time is added with the kind of the value; the kind of a position never
changes afterwards. Where kinds agree on a container the walk goes on below
it, and where they disagree the value is left out and a conflict recorded. The
elements of all arrays at one position share one child, whose kind is that of
the first element of the first array, or null if that array was empty.
-/

namespace JsonRecords

namespace Schema

mutual

/-- Meets a value at a position. -/
def meet (path : Path) (node : Schema) : Json → Schema × List Conflict
  | .object members =>
    if node.isObject then mergeMembers path node members
    else (node, clash path node .object)
  | .array items =>
    if node.isArray then
      let below := path ++ [.element]
      let first := (items.head?).map Json.kind
      let element := (node.child elementKey).getD (leaf elementKey (first.getD .null))
      let conflicts := (first.map (clash below element)).getD []
      let (element, more) :=
        if element.isObject then mergeItems below element items else (element, [])
      (node.setChild elementKey element, conflicts ++ more)
    else (node, clash path node .array)
  | .null => (node, clash path node .null)
  | .bool _ => (node, clash path node .boolean)
  | .number _ => (node, clash path node .number)
  | .string _ => (node, clash path node .string)

/-- Meets each member at the child under its key, which is added at the end if
it is new. -/
def mergeMembers (path : Path) (node : Schema) :
    List (String × Json) → Schema × List Conflict
  | [] => (node, [])
  | (key, v) :: rest =>
    let child := (node.child key).getD (leaf key v.kind)
    let (child, conflicts) := meet (path ++ [.field key]) child v
    let (node, more) := mergeMembers path (node.setChild key child) rest
    (node, conflicts ++ more)

/-- Merges the objects among the items into one position. -/
def mergeItems (path : Path) (node : Schema) : List Json → Schema × List Conflict
  | [] => (node, [])
  | .object members :: rest =>
    let (node, conflicts) := mergeMembers path node members
    let (node, more) := mergeItems path node rest
    (node, conflicts ++ more)
  | _ :: rest => mergeItems path node rest

end

/-- A schema with the members of one object merged into it. -/
def merge (node : Schema) (members : List (String × Json)) : Schema :=
  (mergeMembers [] node members).1

/-- Merges the elements of an array into the child they share. -/
def mergeElement (path : Path) (element : Schema) (items : List Json) : Schema × List Conflict :=
  if element.isObject then mergeItems path element items else (element, [])

/-- Value and position are both objects, or both arrays, or no containers of one
kind. -/
theorem meet_cases (node : Schema) (v : Json) :
    (∃ members, v = .object members ∧ node.kind = .object) ∨
      (∃ items, v = .array items ∧ node.kind = .array) ∨
        ((v.kind = .object → node.kind ≠ .object) ∧ (v.kind = .array → node.kind ≠ .array)) := by
  cases v <;> simp [Json.kind, Classical.em]

theorem meet_object {node : Schema} (h : node.kind = .object) (path : Path)
    (members : List (String × Json)) :
    meet path node (.object members) = mergeMembers path node members := by
  simp [meet, isObject, h]

theorem meet_array {node : Schema} (h : node.kind = .array) (path : Path) (items : List Json) :
    meet path node (.array items) =
      let first := items.head?.map Json.kind
      let element := (node.child elementKey).getD (leaf elementKey (first.getD .null))
      let merged := mergeElement (path ++ [.element]) element items
      (node.setChild elementKey merged.1,
        (first.map (clash (path ++ [.element]) element)).getD [] ++ merged.2) := by
  simp [meet, mergeElement, isArray, h]

theorem mergeElement_object {element : Schema} (h : element.kind = .object) (path : Path)
    (items : List Json) : mergeElement path element items = mergeItems path element items := by
  simp [mergeElement, isObject, h]

theorem mergeElement_of_ne {element : Schema} (h : element.kind ≠ .object) (path : Path)
    (items : List Json) : mergeElement path element items = (element, []) := by
  simp [mergeElement, isObject, h]

/-- Where value and position are not containers of one kind, nothing is merged
and only their kinds are compared. -/
theorem meet_of_ne {node : Schema} {v : Json} (ho : v.kind = .object → node.kind ≠ .object)
    (ha : v.kind = .array → node.kind ≠ .array) (path : Path) :
    meet path node v = (node, clash path node v.kind) := by
  cases v <;> simp_all [meet, isObject, isArray, Json.kind]

@[simp] theorem mergeMembers_nil (path : Path) (node : Schema) :
    mergeMembers path node [] = (node, []) := by
  rw [mergeMembers]

theorem mergeMembers_cons (path : Path) (node : Schema) (key : String) (v : Json)
    (rest : List (String × Json)) :
    mergeMembers path node ((key, v) :: rest) =
      let met := meet (path ++ [.field key]) ((node.child key).getD (leaf key v.kind)) v
      let merged := mergeMembers path (node.setChild key met.1) rest
      (merged.1, met.2 ++ merged.2) := by
  rw [mergeMembers]

@[simp] theorem mergeItems_nil (path : Path) (node : Schema) :
    mergeItems path node [] = (node, []) := by
  rw [mergeItems]

theorem mergeItems_object (path : Path) (node : Schema) (members : List (String × Json))
    (rest : List Json) :
    mergeItems path node (.object members :: rest) =
      let met := mergeMembers path node members
      let merged := mergeItems path met.1 rest
      (merged.1, met.2 ++ merged.2) := by
  rw [mergeItems]

theorem mergeItems_of_ne {v : Json} (h : v.kind ≠ .object) (path : Path) (node : Schema)
    (rest : List Json) : mergeItems path node (v :: rest) = mergeItems path node rest := by
  cases v <;> simp_all [mergeItems, Json.kind]

end Schema

end JsonRecords
