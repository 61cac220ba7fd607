import JsonRecords.Proofs.Keyed
import JsonRecords.Proofs.Schema.Extension

/-!
# Samples that were merged before

Merging a sample leaves positions of the kinds it asks for, and no later merge
takes them away. So a schema that extends what a merge gave already has all
that the same merge would add: merging again leaves it as it is, order of
children included, and reports what it reported then (`meet_of_extends`,
`mergeMembers_of_extends`).
-/

namespace JsonRecords

namespace Schema

/-- Putting a child where it already stands changes nothing. -/
theorem setChild_eq_self {s c : Schema} {key : String} (h : s.child key = some c) :
    s.setChild key c = s := by
  obtain ⟨name, kind, children⟩ := s
  rw [setChild, Keyed.set_eq_self h]

mutual

/-- A value that was met before is met without effect, in every schema that
extends the one it led to then. -/
theorem meet_of_extends (path : Path) (node t : Schema) (v : Json) :
    Extends (meet path node v).1 t → meet path t v = (t, (meet path node v).2) := by
  have hkind (h : Extends (meet path node v).1 t) : t.kind = node.kind :=
    ((extends_meet path node v).trans h).kind_eq
  rcases meet_cases node v with ⟨members, rfl, hk⟩ | ⟨items, rfl, hk⟩ | ⟨ho, ha⟩
  · intro h
    rw [meet_object ((hkind h).trans hk)]
    rw [meet_object hk] at h ⊢
    exact mergeMembers_of_extends path node t members h
  · intro h
    rw [meet_array ((hkind h).trans hk)]
    rw [meet_array hk] at h ⊢
    obtain ⟨d, hd, hext⟩ := h.child (child_setChild_self ..)
    -- the kind that the items are held against is that of the place found or made then
    have hmerge := mergeElement_of_extends (path ++ [.element]) _ d items hext
    have helement := ((extends_mergeElement (path ++ [.element]) _ items).trans hext).kind_eq
    simp only [hd, Option.getD_some, hmerge, setChild_eq_self hd, clash_congr helement]
  · intro h
    rw [meet_of_ne ho ha, meet_of_ne (by rwa [hkind h]) (by rwa [hkind h]),
      clash_congr (hkind h)]
termination_by (sizeOf v, 0)

theorem mergeMembers_of_extends (path : Path) (node t : Schema)
    (members : List (String × Json)) :
    Extends (mergeMembers path node members).1 t →
      mergeMembers path t members = (t, (mergeMembers path node members).2) := by
  cases members with
  | nil =>
      intro _
      rw [mergeMembers_nil, mergeMembers_nil]
  | cons member rest =>
      obtain ⟨key, v⟩ := member
      intro h
      rw [mergeMembers_cons] at h ⊢
      rw [mergeMembers_cons]
      obtain ⟨d, hd, hext⟩ := ((extends_mergeMembers path _ rest).trans h).child
        (child_setChild_self ..)
      have hmet := meet_of_extends (path ++ [.field key]) _ d v hext
      have hrest := mergeMembers_of_extends path _ t rest h
      simp only [hd, Option.getD_some, hmet, setChild_eq_self hd, hrest]
termination_by (sizeOf members, 0)

theorem mergeItems_of_extends (path : Path) (node t : Schema) (items : List Json) :
    Extends (mergeItems path node items).1 t →
      mergeItems path t items = (t, (mergeItems path node items).2) := by
  cases items with
  | nil =>
      intro _
      rw [mergeItems_nil, mergeItems_nil]
  | cons v rest =>
      rcases v.object_or_ne with ⟨members, rfl⟩ | hv
      · intro h
        rw [mergeItems_object] at h ⊢
        rw [mergeItems_object]
        have hext := (extends_mergeItems path (mergeMembers path node members).1 rest).trans h
        have hmembers := mergeMembers_of_extends path node t members hext
        have hrest := mergeItems_of_extends path _ t rest h
        simp only [hmembers, hrest]
      · intro h
        rw [mergeItems_of_ne hv] at h ⊢
        rw [mergeItems_of_ne hv]
        exact mergeItems_of_extends path node t rest h
termination_by (sizeOf items, 0)

theorem mergeElement_of_extends (path : Path) (element t : Schema) (items : List Json) :
    Extends (mergeElement path element items).1 t →
      mergeElement path t items = (t, (mergeElement path element items).2) := by
  intro h
  have hkind : t.kind = element.kind :=
    ((extends_mergeElement path element items).trans h).kind_eq
  by_cases hk : element.kind = .object
  · rw [mergeElement_object (hkind.trans hk)]
    rw [mergeElement_object hk] at h ⊢
    exact mergeItems_of_extends path element t items h
  · rw [mergeElement_of_ne hk, mergeElement_of_ne (by rwa [hkind])]
termination_by (sizeOf items, 1)

end

/-- Merging an object a second time changes nothing. -/
theorem merge_merge (node : Schema) (members : List (String × Json)) :
    merge (merge node members) members = merge node members := by
  have hagain := mergeMembers_of_extends [] node (merge node members) members (Extends.refl _)
  rw [merge, hagain]

theorem observeItems_of_extends {node t : Schema} {index : Nat} {items : List Json}
    (h : Extends (observeItems node index items).1 t) :
    observeItems t index items = (t, (observeItems node index items).2) := by
  induction items generalizing node index with
  | nil => rw [observeItems_nil, observeItems_nil]
  | cons v rest ih =>
      rcases v.object_or_ne with ⟨members, rfl⟩ | hv
      · rw [observeItems_object] at h ⊢
        rw [observeItems_object]
        have hext := (extends_observeItems _ (index + 1) rest).trans h
        have hmembers := mergeMembers_of_extends [] node t members hext
        simp only [hmembers, ih h]
      · rw [observeItems_of_ne hv] at h ⊢
        rw [observeItems_of_ne hv]
        simp only [ih h]

/-- A sample that was observed before is observed without effect, and remarked
on as it was then. -/
theorem observe_of_extends {node t : Schema} {d : Json} (h : Extends (observe node d).1 t) :
    observe t d = (t, (observe node d).2) := by
  cases d with
  | object members =>
      have hmembers := mergeMembers_of_extends [] node t members h
      simp only [observe, hmembers]
  | array items => exact observeItems_of_extends h
  | _ => rfl

end Schema

namespace Inference

open Schema

theorem schema_add (i : Inference) (d : Json) : (i.add d).schema = (observe i.schema d).1 := by
  simp [add, addAll, observeAll]

theorem conflicts_add (i : Inference) (d : Json) :
    (i.add d).conflicts = i.conflicts ++ (observe i.schema d).2.filterMap Remark.conflict? := by
  simp [add, addAll, observeAll, conflicts]

theorem extends_schema_addAll (i : Inference) (documents : List Json) :
    Extends i.schema (i.addAll documents).schema :=
  extends_observeAll i.schema documents

/-- A sample that is added again leaves the schema as it is and appends the
conflicts that it appended the first time, whatever was added before and after
that. Merging an object twice is merging it once, into any schema. -/
theorem add_again (before after : List Json) (d : Json) :
    (let first := start.addAll before
      let last := start.addAll (before ++ d :: after)
      (last.add d).schema = last.schema ∧
        ∃ conflicts, (first.add d).conflicts = first.conflicts ++ conflicts ∧
          (last.add d).conflicts = last.conflicts ++ conflicts) ∧
      ∀ (node : Schema) (members : List (String × Json)),
        merge (merge node members) members = merge node members := by
  refine ⟨?_, merge_merge⟩
  intro first last
  have hlast : last = (first.add d).addAll after := by
    rw [← addAll_cons, ← addAll_append]
  have hext : Extends (observe first.schema d).1 last.schema := by
    rw [← schema_add, hlast]
    exact extends_schema_addAll _ after
  have hagain := observe_of_extends hext
  refine ⟨?_, _, conflicts_add first d, ?_⟩
  · rw [schema_add, hagain]
  · rw [conflicts_add, hagain]

end Inference

end JsonRecords
