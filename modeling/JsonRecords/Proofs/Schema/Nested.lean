import JsonRecords.Proofs.Schema.Alike

/-!
# The objects below a schema

A field leads to at most one object: itself, or the element of an array of
objects. `nested?` is that object. Going from an object to the objects that its
fields lead to makes the schema smaller, so a statement about every object
reached this way is proved by `nested_induction`. Sorting moves fields only: it
changes neither the kinds of a schema nor where its fields lead
(`nested?_sorted`, `values_children_sorted`).
-/

namespace JsonRecords

namespace Schema

theorem isObject_iff {s : Schema} : s.isObject ↔ s.kind = .object :=
  decide_eq_true_iff

/-- The object that a field leads to. -/
def nested? (field : Schema) : Option Schema :=
  if field.isObject then some field else field.element?.filter isObject

theorem nested?_of_isObject {field : Schema} (h : field.isObject) : field.nested? = some field := by
  rw [nested?, if_pos h]

theorem isObject_of_nested? {field object : Schema} (h : field.nested? = some object) :
    object.isObject := by
  rw [nested?] at h
  split at h
  · next hk => rwa [← Option.some.inj h]
  · exact (Option.filter_eq_some_iff.mp h).2

theorem perm_sortedFields (s : Schema) : s.sortedFields.Perm s.fields :=
  List.mergeSort_perm s.fields _

/-- The fields of an object come by name. -/
theorem pairwise_sortedFields (s : Schema) :
    s.sortedFields.Pairwise fun f g => f.name ≤ g.name :=
  pairwise_mergeSort Schema.name s.fields

/-- Nothing but an object has fields, and they are its children. -/
theorem mem_sortedFields {s field : Schema} (h : field ∈ s.sortedFields) :
    s.isObject ∧ ∃ key, (key, field) ∈ s.children := by
  have hf := (perm_sortedFields s).mem_iff.mp h
  rw [fields] at hf
  split at hf
  · next hk =>
    obtain ⟨⟨key, c⟩, hc, rfl⟩ := List.mem_map.mp hf
    exact ⟨hk, key, hc⟩
  · simp at hf

theorem sizeOf_lt_of_mem_children {s c : Schema} {key : String} (h : (key, c) ∈ s.children) :
    sizeOf c < sizeOf s := by
  obtain ⟨name, kind, children⟩ := s
  have hlt := List.sizeOf_lt_of_mem h
  simp only [Prod.mk.sizeOf_spec, Schema.mk.sizeOf_spec] at hlt ⊢
  omega

theorem sizeOf_lt_of_mem_sortedFields {s field : Schema} (h : field ∈ s.sortedFields) :
    sizeOf field < sizeOf s := by
  obtain ⟨_, key, hc⟩ := mem_sortedFields h
  exact sizeOf_lt_of_mem_children hc

theorem child_of_element? {s element : Schema} (h : s.element? = some element) :
    s.child elementKey = some element := by
  rw [element?] at h
  split at h
  · exact h
  · cases h

theorem sizeOf_le_of_nested? {field object : Schema} (h : field.nested? = some object) :
    sizeOf object ≤ sizeOf field := by
  rw [nested?] at h
  split at h
  · exact Nat.le_of_eq (congrArg sizeOf (Option.some.inj h).symm)
  · have helement := child_of_element? (Option.filter_eq_some_iff.mp h).1
    exact Nat.le_of_lt (sizeOf_lt_of_mem_children (Keyed.mem_of_get?_eq_some helement))

/-- What holds of a schema whenever it holds of every object that its fields
lead to holds of all schemas. -/
theorem nested_induction {motive : Schema → Prop}
    (step : ∀ s, (∀ field ∈ s.sortedFields, ∀ object, field.nested? = some object →
      motive object) → motive s)
    (s : Schema) : motive s := by
  induction hn : sizeOf s using Nat.strongRecOn generalizing s with
  | ind n ih =>
      apply step
      intro field hf object ho
      have hlt := sizeOf_lt_of_mem_sortedFields hf
      have hle := sizeOf_le_of_nested? ho
      exact ih (sizeOf object) (by omega) object rfl

@[simp] theorem kind_sorted (s : Schema) : s.sorted.kind = s.kind := by
  cases s
  rw [sorted]

@[simp] theorem isObject_sorted (s : Schema) : s.sorted.isObject = s.isObject := by
  rw [isObject, isObject, kind_sorted]

theorem child_sorted_of_ne {s : Schema} (h : s.kind ≠ .object) (key : String) :
    s.sorted.child key = (s.child key).map sorted := by
  obtain ⟨name, kind, children⟩ := s
  simp only at h
  simp only [sorted, if_neg h, child, sortedChildren_eq_map, Keyed.get?_map]

theorem element?_sorted (s : Schema) : s.sorted.element? = s.element?.map sorted := by
  by_cases ha : s.kind = .array
  · have ho : s.kind ≠ .object := by
      rw [ha]
      decide
    simp [element?, isArray, ha, child_sorted_of_ne ho]
  · simp [element?, isArray, ha]

theorem elementKind?_sorted (s : Schema) : s.sorted.elementKind? = s.elementKind? := by
  simp [elementKind?, element?_sorted, Function.comp_def]

theorem nested?_sorted (field : Schema) : field.sorted.nested? = field.nested?.map sorted := by
  rw [nested?, nested?, isObject_sorted, element?_sorted]
  split
  · rfl
  · cases field.element? with
    | none => rfl
    | some element =>
        by_cases ho : element.isObject <;> simp [Option.filter, ho]

/-- The fields of an object by name are the children it is sorted to. -/
theorem values_children_sorted {s : Schema} (h : s.isObject) :
    Keyed.values s.sorted.children = s.sortedFields.map sorted := by
  obtain ⟨name, kind, children⟩ := s
  have hk : kind = .object := isObject_iff.mp h
  have hvalues : Keyed.values (sortedChildren children) = (Keyed.values children).map sorted := by
    simp [sortedChildren_eq_map, Keyed.values, Function.comp_def]
  rw [sortedFields, fields, if_pos h]
  simp only [sorted, if_pos hk, Keyed.values] at hvalues ⊢
  rw [List.map_mergeSort (s := fun f g => decide (f.name ≤ g.name)) (by simp), hvalues]
  symm
  exact List.map_mergeSort (by simp)

end Schema

end JsonRecords
