import JsonRecords.Proofs.Schema.Grouping

/-!
# The shape of inferred schemas

A schema read from a file may have any shape; one that was inferred has not.
`Shaped` is the shape of a position under a field and `ShapedElement` that of
the position of an array's elements, which differ in what an array has below
it: the elements of an array in an array are never looked at. Grouped samples
have the shape (`shapedFields_groupFields`).
-/

namespace JsonRecords

namespace Schema

open Observed

/-- No position has two children under one key. -/
inductive Distinct : Schema → Prop where
  | node {name : String} {kind : Kind} {children : List (String × Schema)}
      (hn : (Keyed.keys children).Nodup) (h : ∀ c ∈ children, Distinct c.2) :
      Distinct ⟨name, kind, children⟩

mutual

/-- The shape of the position of a field. -/
inductive Shaped : Schema → Prop where
  | object {name : String} {children : List (String × Schema)} (h : ShapedFields children) :
      Shaped ⟨name, .object, children⟩
  | array {name : String} {element : Schema} (h : ShapedElement element) :
      Shaped ⟨name, .array, [(elementKey, element)]⟩
  | scalar {name : String} {kind : Kind} (ho : kind ≠ .object) (ha : kind ≠ .array) :
      Shaped (leaf name kind)

/-- The shape of the position of an array's elements. -/
inductive ShapedElement : Schema → Prop where
  | object {children : List (String × Schema)} (h : ShapedFields children) :
      ShapedElement ⟨elementKey, .object, children⟩
  | other {kind : Kind} (ho : kind ≠ .object) : ShapedElement (leaf elementKey kind)

/-- The shape of the fields of an object: every child stands under its own
name. -/
inductive ShapedFields : List (String × Schema) → Prop where
  | mk {children : List (String × Schema)} (hn : (Keyed.keys children).Nodup)
      (hname : ∀ c ∈ children, c.2.name = c.1) (h : ∀ c ∈ children, Shaped c.2) :
      ShapedFields children

end

theorem distinct_leaf (name : String) (kind : Kind) : Distinct (leaf name kind) :=
  .node (by simp [Keyed.keys]) (by simp)

mutual

theorem Shaped.distinct : ∀ {s : Schema}, Shaped s → Distinct s
  | _, .object h => h.distinct
  | _, .array h => by
      refine .node (by simp [Keyed.keys]) ?_
      intro c hc
      obtain rfl := List.mem_singleton.mp hc
      exact h.distinct
  | _, .scalar _ _ => distinct_leaf _ _

theorem ShapedElement.distinct : ∀ {s : Schema}, ShapedElement s → Distinct s
  | _, .object h => h.distinct
  | _, .other _ => distinct_leaf _ _

theorem ShapedFields.distinct : ∀ {name : String} {kind : Kind} {children : List (String × Schema)},
    ShapedFields children → Distinct ⟨name, kind, children⟩
  | _, _, _, .mk hn _ h => .node hn fun c hc => (h c hc).distinct

end

/-- The fields of an object have distinct names. -/
theorem ShapedFields.nodup_names {children : List (String × Schema)} (h : ShapedFields children) :
    (children.map fun c => c.2.name).Nodup := by
  cases h with
  | mk hn hname h =>
      have heq : (children.map fun c => c.2.name) = Keyed.keys children :=
        List.map_congr_left hname
      rwa [heq]

theorem shapedElement_groupElement {kind : Kind} {items : List Json}
    (h : ShapedFields (groupFields (objectsIn items))) :
    ShapedElement (groupElement kind items) := by
  by_cases hk : kind = .object
  · subst hk
    rw [groupElement_object]
    exact .object h
  · rw [groupElement_of_ne hk]
    exact .other hk

theorem shapedFields_groupFields (objects : List (Keyed String Json)) :
    ShapedFields (groupFields objects) := by
  induction objects using objects_induction with
  | step objects ih =>
      rw [groupFields_eq_tabulate]
      refine .mk ?_ ?_ ?_
      · rw [Keyed.keys_tabulate]
        exact nodup_keysIn objects
      · intro c hc
        rw [(Keyed.mem_tabulate.mp hc).2, name_groupAt]
      · intro c hc
        obtain ⟨hkey, hc⟩ := Keyed.mem_tabulate.mp hc
        obtain ⟨hobjects, helements⟩ := ih c.1 hkey
        rw [hc]
        generalize hk : firstKind (valuesIn objects c.1) = kind
        by_cases ho : kind = .object
        · subst ho
          rw [groupAt_object]
          exact .object hobjects
        by_cases ha : kind = .array
        · subst ha
          obtain ⟨first, rest, hs⟩ := exists_arraysIn_of_firstKind hk
          rw [groupAt_array_cons hs]
          rw [hs] at helements
          exact .array (shapedElement_groupElement helements)
        · rw [groupAt_scalar ho ha]
          exact .scalar ho ha

/-- The schema of any samples has the shape. -/
theorem shaped_infer (documents : List Json) : Shaped (infer documents) := by
  rw [infer, schema_addAll_start]
  exact .object (shapedFields_groupFields _)

end Schema

end JsonRecords
