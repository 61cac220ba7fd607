import JsonRecords.Proofs.Observed
import JsonRecords.Proofs.Schema.Extension

/-!
# Checking samples against a schema

`audit` walks down a value and a schema side by side and changes neither: it
only reports where the kind of a value is not the kind recorded, with the path,
the kind recorded and the kind of the value. Whatever merging
reports while a schema grows is what an audit against the grown schema
reports, since kinds stay as they were recorded (`audit_of_extends`), and every
report names a kind that is in the schema and one that is in the samples
(`founded_of_mem_audit`).
-/

namespace JsonRecords

namespace Json

open Observed

/-- The values one step further down. -/
def step : Schema.Step → Json → List Json
  | .field key, .object members => valuesIn [members] key
  | .element, .array items => items
  | _, _ => []

/-- The values at the end of a path. -/
def valuesAt : Schema.Path → Json → List Json
  | [], v => [v]
  | s :: rest, v => (v.step s).flatMap (valuesAt rest)

end Json

namespace Schema

open Observed

/-- What the first element of an array says against the kind of the elements. -/
def auditFirst (path : Path) (element : Schema) : List Json → List Conflict
  | [] => []
  | first :: _ => if element.kind = first.kind then [] else [⟨path, element.kind, first.kind⟩]

mutual

/-- What a value says against the schema of its position: that it is of another kind, or
if it is of that kind, what lies below it says. -/
def audit (path : Path) (node : Schema) (v : Json) : List Conflict :=
  if node.kind = v.kind then
    match v with
    | .object members => auditMembers path node members
    | .array items =>
      match node.child elementKey with
      | none => []
      | some element =>
        auditFirst (path ++ [.element]) element items ++
          if element.kind = .object then auditItems (path ++ [.element]) element items else []
    | _ => []
  else [⟨path, node.kind, v.kind⟩]

/-- What members say against the children under their keys. -/
def auditMembers (path : Path) (node : Schema) : List (String × Json) → List Conflict
  | [] => []
  | (key, v) :: rest =>
    (match node.child key with
      | none => []
      | some c => audit (path ++ [.field key]) c v) ++ auditMembers path node rest

/-- What the objects among elements say against the schema they share. -/
def auditItems (path : Path) (node : Schema) : List Json → List Conflict
  | [] => []
  | .object members :: rest => auditMembers path node members ++ auditItems path node rest
  | _ :: rest => auditItems path node rest

end

/-- What an array says against the schema of its elements: the kind of its first
element, and the objects among its elements. -/
def auditElement (path : Path) (element : Schema) (items : List Json) : List Conflict :=
  auditFirst path element items ++
    if element.kind = .object then auditItems path element items else []

/-- What a sample says against the schema of all samples. -/
def auditDocument (root : Schema) (document : Json) : List Conflict :=
  (rootObjects [document]).flatMap (auditMembers [] root)

theorem audit_of_kind_ne {node : Schema} {v : Json} (h : node.kind ≠ v.kind) (path : Path) :
    audit path node v = [⟨path, node.kind, v.kind⟩] := by
  rw [audit.eq_def, if_neg h]

theorem audit_object {node : Schema} (h : node.kind = .object) (path : Path)
    (members : List (String × Json)) :
    audit path node (.object members) = auditMembers path node members := by
  simp [audit, h, Json.kind]

theorem audit_array {node element : Schema} (h : node.kind = .array)
    (he : node.child elementKey = some element) (path : Path) (items : List Json) :
    audit path node (.array items) = auditElement (path ++ [.element]) element items := by
  simp [audit, auditElement, h, he, Json.kind]

theorem audit_array_none {node : Schema} (h : node.kind = .array)
    (he : node.child elementKey = none) (path : Path) (items : List Json) :
    audit path node (.array items) = [] := by
  simp [audit, h, he, Json.kind]

/-- Where value and schema are not containers of one kind, only their kinds are compared. -/
theorem audit_of_ne {node : Schema} {v : Json} (ho : v.kind = .object → node.kind ≠ .object)
    (ha : v.kind = .array → node.kind ≠ .array) (path : Path) :
    audit path node v = if node.kind = v.kind then [] else [⟨path, node.kind, v.kind⟩] := by
  cases v <;> simp_all [audit, Json.kind]

@[simp] theorem auditMembers_nil (path : Path) (node : Schema) :
    auditMembers path node [] = [] := by
  rw [auditMembers]

theorem auditMembers_cons_none {node : Schema} {key : String} (hc : node.child key = none)
    (path : Path) (v : Json) (rest : List (String × Json)) :
    auditMembers path node ((key, v) :: rest) = auditMembers path node rest := by
  simp [auditMembers, hc]

theorem auditMembers_cons {node c : Schema} {key : String} (hc : node.child key = some c)
    (path : Path) (v : Json) (rest : List (String × Json)) :
    auditMembers path node ((key, v) :: rest) =
      audit (path ++ [.field key]) c v ++ auditMembers path node rest := by
  simp [auditMembers, hc]

theorem auditMembers_eq_flatMap (path : Path) (node : Schema) (members : Keyed String Json) :
    auditMembers path node members = members.flatMap fun m =>
      ((node.child m.1).map fun c => audit (path ++ [.field m.1]) c m.2).getD [] := by
  induction members with
  | nil => simp
  | cons m rest ih =>
      obtain ⟨key, v⟩ := m
      cases hc : node.child key with
      | none => simp [auditMembers_cons_none hc, ih, hc]
      | some c => simp [auditMembers_cons hc, ih, hc]

@[simp] theorem auditItems_nil (path : Path) (node : Schema) : auditItems path node [] = [] := by
  rw [auditItems]

theorem auditItems_object (path : Path) (node : Schema) (members : List (String × Json))
    (rest : List Json) :
    auditItems path node (.object members :: rest) =
      auditMembers path node members ++ auditItems path node rest := by
  rw [auditItems]

theorem auditItems_of_ne {v : Json} (h : v.kind ≠ .object) (path : Path) (node : Schema)
    (rest : List Json) : auditItems path node (v :: rest) = auditItems path node rest := by
  cases v <;> simp_all [auditItems, Json.kind]

theorem auditItems_eq_flatMap (path : Path) (node : Schema) (items : List Json) :
    auditItems path node items = (objectsIn items).flatMap (auditMembers path node) := by
  induction items with
  | nil => simp [auditItems, objectsIn]
  | cons v rest ih =>
      rcases v.object_or_ne with ⟨members, rfl⟩ | hv
      · rw [auditItems_object, ih, objectsIn_cons, objectsIn_singleton, List.flatMap_append,
          List.flatMap_singleton]
      · rw [auditItems_of_ne hv, ih, objectsIn_cons, objectsIn_singleton_of_ne hv, List.nil_append]

/-- Against one kind, the first element says what merging says. -/
theorem auditFirst_eq {element t : Schema} (h : t.kind = element.kind) (path : Path)
    (items : List Json) :
    auditFirst path t items =
      ((items.head?.map Json.kind).map (clash path element)).getD [] := by
  cases items with
  | nil => rfl
  | cons first rest =>
      rw [auditFirst, h]
      rfl

mutual

/-- What meeting a value reports is what an audit reports, against the schema
then and against every schema that extends it. -/
theorem audit_of_extends (path : Path) (node t : Schema) (v : Json) :
    Extends (meet path node v).1 t → audit path t v = (meet path node v).2 := by
  have hkind (h : Extends (meet path node v).1 t) : t.kind = node.kind :=
    ((extends_meet path node v).trans h).kind_eq
  rcases meet_cases node v with ⟨members, rfl, hk⟩ | ⟨items, rfl, hk⟩ | ⟨ho, ha⟩
  · intro h
    rw [audit_object ((hkind h).trans hk)]
    rw [meet_object hk] at h ⊢
    exact auditMembers_of_extends path node t members h
  · intro h
    have htk := (hkind h).trans hk
    rw [meet_array hk] at h ⊢
    obtain ⟨d, hd, hext⟩ := h.child (child_setChild_self ..)
    -- the element may just have been added, with the kind that it is compared to
    rw [audit_array htk hd]
    exact auditElement_of_extends _ _ d items hext
  · intro h
    rw [meet_of_ne ho ha, audit_of_ne (by rwa [hkind h]) (by rwa [hkind h]), hkind h, clash]
termination_by (sizeOf v, 0)

theorem auditMembers_of_extends (path : Path) (node t : Schema) (members : List (String × Json)) :
    Extends (mergeMembers path node members).1 t →
      auditMembers path t members = (mergeMembers path node members).2 := by
  cases members with
  | nil =>
      intro _
      rw [auditMembers_nil, mergeMembers_nil]
  | cons member rest =>
      obtain ⟨key, v⟩ := member
      intro h
      rw [mergeMembers_cons] at h ⊢
      obtain ⟨d, hd, hext⟩ := ((extends_mergeMembers path _ rest).trans h).child
        (child_setChild_self ..)
      rw [auditMembers_cons hd, audit_of_extends _ _ d v hext,
        auditMembers_of_extends path _ t rest h]
termination_by (sizeOf members, 0)

theorem auditItems_of_extends (path : Path) (node t : Schema) (items : List Json) :
    Extends (mergeItems path node items).1 t →
      auditItems path t items = (mergeItems path node items).2 := by
  cases items with
  | nil =>
      intro _
      rw [auditItems_nil, mergeItems_nil]
  | cons v rest =>
      rcases v.object_or_ne with ⟨members, rfl⟩ | hv
      · intro h
        rw [mergeItems_object] at h ⊢
        have hmembers := (extends_mergeItems path (mergeMembers path node members).1 rest).trans h
        rw [auditItems_object, auditItems_of_extends path _ t rest h,
          auditMembers_of_extends path node t members hmembers]
      · intro h
        rw [mergeItems_of_ne hv] at h ⊢
        rw [auditItems_of_ne hv, auditItems_of_extends path node t rest h]
termination_by (sizeOf items, 0)

theorem auditElement_of_extends (path : Path) (element t : Schema) (items : List Json) :
    Extends (mergeElement path element items).1 t →
      auditElement path t items =
        ((items.head?.map Json.kind).map (clash path element)).getD [] ++
          (mergeElement path element items).2 := by
  have hkind (h : Extends (mergeElement path element items).1 t) : t.kind = element.kind :=
    ((extends_mergeElement path element items).trans h).kind_eq
  by_cases hk : element.kind = .object
  · intro h
    rw [auditElement, auditFirst_eq (hkind h), if_pos ((hkind h).trans hk)]
    rw [mergeElement_object hk] at h ⊢
    rw [auditItems_of_extends path element t items h]
  · intro h
    rw [auditElement, auditFirst_eq (hkind h), hkind h, if_neg hk, mergeElement_of_ne hk]
termination_by (sizeOf items, 1)

end

theorem auditDocument_object (root : Schema) (members : List (String × Json)) :
    auditDocument root (.object members) = auditMembers [] root members := by
  simp [auditDocument, rootObjects]

theorem auditDocument_array (root : Schema) (items : List Json) :
    auditDocument root (.array items) = auditItems [] root items := by
  simp [auditDocument, rootObjects, auditItems_eq_flatMap]

theorem auditItems_of_extends_observeItems {node t : Schema} {index : Nat} {items : List Json}
    (h : Extends (observeItems node index items).1 t) :
    auditItems [] t items = (observeItems node index items).2.filterMap Remark.conflict? := by
  induction items generalizing node index with
  | nil => simp
  | cons v rest ih =>
      rcases v.object_or_ne with ⟨members, rfl⟩ | hv
      · rw [observeItems_object] at h ⊢
        have hmembers := (extends_observeItems _ (index + 1) rest).trans h
        rw [auditItems_object, auditMembers_of_extends _ _ _ _ hmembers, ih h,
          List.filterMap_append, Remark.filterMap_conflict?]
      · rw [observeItems_of_ne hv] at h ⊢
        rw [auditItems_of_ne hv, ih h, List.filterMap_cons, Remark.conflict?_skipped]

theorem auditDocument_of_extends {node t : Schema} {d : Json}
    (h : Extends (observe node d).1 t) :
    auditDocument t d = (observe node d).2.filterMap Remark.conflict? := by
  cases d with
  | object members =>
      rw [auditDocument_object, auditMembers_of_extends _ _ _ _ h, observe,
        Remark.filterMap_conflict?]
  | array items =>
      rw [auditDocument_array]
      exact auditItems_of_extends_observeItems h
  | _ => simp [auditDocument, rootObjects, observe]

theorem flatMap_auditDocument_of_extends {node t : Schema} {documents : List Json}
    (h : Extends (observeAll node documents).1 t) :
    documents.flatMap (auditDocument t) =
      (observeAll node documents).2.filterMap Remark.conflict? := by
  induction documents generalizing node with
  | nil => simp [observeAll]
  | cons d rest ih =>
      rw [observeAll_cons] at h ⊢
      have hd := (extends_observeAll _ rest).trans h
      rw [List.flatMap_cons, auditDocument_of_extends hd, ih h, List.filterMap_append]

/-- The conflicts of a run are what its samples say against the schema at its
end. -/
theorem conflicts_eq_flatMap (documents : List Json) :
    (Inference.start.addAll documents).conflicts =
      documents.flatMap (auditDocument (infer documents)) :=
  (flatMap_auditDocument_of_extends (Extends.refl _)).symm

/-- A conflict of values that were met at a position lies at or below it, keeps
the kind that the schema has there and ignores one that the values have there. -/
def Founded (path : Path) (node : Schema) (values : List Json) (c : Conflict) : Prop :=
  ∃ below, c.path = path ++ below ∧ (∃ d, at? below node = some d ∧ d.kind = c.kept) ∧
    (∃ w ∈ values.flatMap (Json.valuesAt below), w.kind = c.ignored) ∧ c.kept ≠ c.ignored

theorem founded_of_mem_ite {path : Path} {node : Schema} {values : List Json} {v : Json}
    {c : Conflict} (hv : v ∈ values)
    (hc : c ∈ if node.kind = v.kind then [] else [⟨path, node.kind, v.kind⟩]) :
    Founded path node values c := by
  obtain ⟨hne, hc⟩ := List.mem_ite_nil_left.mp hc
  obtain rfl := List.mem_singleton.mp hc
  refine ⟨[], by simp, ⟨node, rfl, rfl⟩, ⟨v, ?_, rfl⟩, hne⟩
  exact List.mem_flatMap.mpr ⟨v, hv, List.mem_singleton_self v⟩

/-- Going back up a step keeps a conflict founded. -/
theorem Founded.up {path : Path} {s : Step} {node child : Schema} {values below : List Json}
    {c : Conflict} (h : Founded (path ++ [s]) child below c)
    (hchild : node.child s.key = some child)
    (hbelow : ∀ w ∈ below, w ∈ values.flatMap (Json.step s)) : Founded path node values c := by
  obtain ⟨rest, hpath, hkept, ⟨w, hw, hignored⟩, hne⟩ := h
  refine ⟨s :: rest, by simp [hpath], ?_, ⟨w, ?_, hignored⟩, hne⟩
  · rwa [at?, hchild, Option.bind_some]
  · obtain ⟨u, hu, hw⟩ := List.mem_flatMap.mp hw
    obtain ⟨v, hv, hu⟩ := List.mem_flatMap.mp (hbelow u hu)
    exact List.mem_flatMap.mpr ⟨v, hv, List.mem_flatMap.mpr ⟨u, hu, hw⟩⟩

theorem Founded.mono {path : Path} {node : Schema} {values more : List Json} {c : Conflict}
    (h : Founded path node values c) (hsub : values ⊆ more) : Founded path node more c := by
  obtain ⟨below, hpath, hkept, ⟨w, hw, hignored⟩, hne⟩ := h
  obtain ⟨v, hv, hw⟩ := List.mem_flatMap.mp hw
  exact ⟨below, hpath, hkept, ⟨w, List.mem_flatMap.mpr ⟨v, hsub hv, hw⟩, hignored⟩, hne⟩

mutual

theorem founded_of_mem_audit (path : Path) (node : Schema) (v : Json) (c : Conflict) :
    c ∈ audit path node v → Founded path node [v] c := by
  rcases meet_cases node v with ⟨members, rfl, hk⟩ | ⟨items, rfl, hk⟩ | ⟨ho, ha⟩
  · rw [audit_object hk]
    exact founded_of_mem_auditMembers path node members members c (List.Subset.refl members)
  · cases he : node.child elementKey with
    | none =>
        rw [audit_array_none hk he]
        simp
    | some element =>
        rw [audit_array hk he, auditElement]
        intro h
        rcases List.mem_append.mp h with h | h
        · cases items with
          | nil => simp [auditFirst] at h
          | cons first rest =>
              have hfirst : Founded (path ++ [.element]) element (first :: rest) c :=
                founded_of_mem_ite List.mem_cons_self h
              exact hfirst.up he (by simp [Json.step])
        · split at h
          · have hitems := founded_of_mem_auditItems (path ++ [.element]) element items c h
            exact hitems.up he (by simp [Json.step])
          · simp at h
  · rw [audit_of_ne ho ha]
    exact founded_of_mem_ite (List.mem_singleton_self v)
termination_by (sizeOf v, 0)

theorem founded_of_mem_auditMembers (path : Path) (node : Schema)
    (members whole : List (String × Json)) (c : Conflict) :
    members ⊆ whole → c ∈ auditMembers path node members →
      Founded path node [.object whole] c := by
  cases members with
  | nil => simp
  | cons member rest =>
      obtain ⟨key, v⟩ := member
      intro hsub
      obtain ⟨hv, hrest⟩ := List.cons_subset.mp hsub
      cases hchild : node.child key with
      | none =>
          rw [auditMembers_cons_none hchild]
          exact founded_of_mem_auditMembers path node rest whole c hrest
      | some child =>
          rw [auditMembers_cons hchild]
          intro h
          rcases List.mem_append.mp h with h | h
          · have hdown := founded_of_mem_audit (path ++ [.field key]) child v c h
            exact hdown.up hchild (by simp [Json.step, mem_valuesIn, hv])
          · exact founded_of_mem_auditMembers path node rest whole c hrest h
termination_by (sizeOf members, 0)

theorem founded_of_mem_auditItems (path : Path) (node : Schema) (items : List Json)
    (c : Conflict) : c ∈ auditItems path node items → Founded path node items c := by
  cases items with
  | nil => simp
  | cons v rest =>
      rcases v.object_or_ne with ⟨members, rfl⟩ | hv
      · rw [auditItems_object]
        intro h
        rcases List.mem_append.mp h with h | h
        · have hmembers := founded_of_mem_auditMembers path node members members c
            (List.Subset.refl members) h
          exact hmembers.mono (by simp)
        · exact (founded_of_mem_auditItems path node rest c h).mono (by simp)
      · rw [auditItems_of_ne hv]
        intro h
        exact (founded_of_mem_auditItems path node rest c h).mono (by simp)
termination_by (sizeOf items, 0)

end

theorem founded_of_mem_auditDocument {root : Schema} {documents : List Json} {d : Json}
    {c : Conflict} (hd : d ∈ documents) (hc : c ∈ auditDocument root d) :
    Founded [] root ((rootObjects documents).map Json.object) c := by
  obtain ⟨members, hm, hc⟩ := List.mem_flatMap.mp hc
  have hmem : members ∈ rootObjects documents := mem_rootObjects.mpr ⟨d, hd, hm⟩
  have hfounded := founded_of_mem_auditMembers [] root members members c (List.Subset.refl _) hc
  exact hfounded.mono (by simpa using hmem)

/-- A run reports what its samples say against the schema at its end, sample by
sample and nothing else: each conflict names a kind that stands there and another kind
that some sample has there. -/
theorem conflicts_addAll_start (documents : List Json) :
    let i := Inference.start.addAll documents
    i.conflicts = documents.flatMap (auditDocument i.schema) ∧
      ∀ c ∈ i.conflicts,
        (∃ node, at? c.path i.schema = some node ∧ node.kind = c.kept) ∧
          (∃ members ∈ rootObjects documents, ∃ v ∈ (Json.object members).valuesAt c.path,
            v.kind = c.ignored) ∧
          c.kept ≠ c.ignored := by
  intro i
  have hexact : i.conflicts = documents.flatMap (auditDocument i.schema) :=
    conflicts_eq_flatMap documents
  refine ⟨hexact, ?_⟩
  intro c hc
  rw [hexact] at hc
  obtain ⟨d, hd, hc⟩ := List.mem_flatMap.mp hc
  obtain ⟨below, hpath, hkept, ⟨v, hv, hignored⟩, hne⟩ := founded_of_mem_auditDocument hd hc
  rw [List.nil_append] at hpath
  subst hpath
  obtain ⟨w, hw, hv⟩ := List.mem_flatMap.mp hv
  obtain ⟨members, hm, rfl⟩ := List.mem_map.mp hw
  exact ⟨hkept, ⟨members, hm, v, hv, hignored⟩, hne⟩

end Schema

end JsonRecords
