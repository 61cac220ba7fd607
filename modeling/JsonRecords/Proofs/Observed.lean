import JsonRecords.Json.Value
import Mathlib.Data.List.Induction
import Mathlib.Data.List.Nodup

/-!
# Observations

What samples say about a position is a list of values, in the order in which
they are met. `objectsIn` and `arraysIn` keep those of the one kind; `keysIn`
and `valuesIn` read a list of objects by key. Going from objects to the objects
below one of their keys lowers the nesting, so a statement about the objects of
every position is proved by `objects_induction`.
-/

namespace JsonRecords

namespace Json

/-- The members of an object. -/
def members? : Json → Option (Keyed String Json)
  | .object members => some members
  | _ => none

/-- The elements of an array. -/
def items? : Json → Option (List Json)
  | .array items => some items
  | _ => none

theorem members?_eq_some_iff {v : Json} {members : Keyed String Json} :
    v.members? = some members ↔ v = .object members := by
  cases v <;> simp [members?]

theorem items?_eq_some_iff {v : Json} {items : List Json} :
    v.items? = some items ↔ v = .array items := by
  cases v <;> simp [items?]

theorem depthItems_le_iff {items : List Json} {n : Nat} :
    depthItems items ≤ n ↔ ∀ v ∈ items, v.depth ≤ n := by
  induction items with
  | nil => simp [depthItems]
  | cons v rest ih => rw [depthItems, Nat.max_le, ih, List.forall_mem_cons]

theorem depthMembers_le_iff {members : Keyed String Json} {n : Nat} :
    depthMembers members ≤ n ↔ ∀ m ∈ members, m.2.depth ≤ n := by
  induction members with
  | nil => simp [depthMembers]
  | cons m rest ih =>
      obtain ⟨key, v⟩ := m
      rw [depthMembers, Nat.max_le, ih, List.forall_mem_cons]

end Json

namespace Observed

/-- The members of the objects among values. -/
def objectsIn (values : List Json) : List (Keyed String Json) :=
  values.filterMap Json.members?

/-- The elements of the arrays among values. -/
def arraysIn (values : List Json) : List (List Json) :=
  values.filterMap Json.items?

/-- The keys of objects, in order of first occurrence. -/
def keysIn (objects : List (Keyed String Json)) : List String :=
  (Keyed.keys objects.flatten).eraseDups

/-- All values that objects hold under a key. -/
def valuesIn (objects : List (Keyed String Json)) (key : String) : List Json :=
  Keyed.values (objects.flatten.filter fun m => m.1 = key)

/-- The objects that samples contribute to the root: samples that are objects,
and the objects in samples that are arrays. -/
def rootObjects (documents : List Json) : List (Keyed String Json) :=
  documents.flatMap fun
    | .object members => [members]
    | .array items => objectsIn items
    | _ => []

/-- The kind of the first value, null if there is none. -/
def firstKind (values : List Json) : Kind :=
  (values.head?.map Json.kind).getD .null

@[simp] theorem firstKind_nil : firstKind [] = .null := rfl

@[simp] theorem firstKind_cons (v : Json) (rest : List Json) :
    firstKind (v :: rest) = v.kind := rfl

/-- The first value keeps its place when more values follow. -/
theorem firstKind_append {values : List Json} (h : values ≠ []) (more : List Json) :
    firstKind (values ++ more) = firstKind values := by
  obtain ⟨v, rest, rfl⟩ := List.exists_cons_of_ne_nil h
  rfl

theorem mem_objectsIn {values : List Json} {members : Keyed String Json} :
    members ∈ objectsIn values ↔ .object members ∈ values := by
  simp [objectsIn, List.mem_filterMap, Json.members?_eq_some_iff]

theorem mem_arraysIn {values : List Json} {items : List Json} :
    items ∈ arraysIn values ↔ .array items ∈ values := by
  simp [arraysIn, List.mem_filterMap, Json.items?_eq_some_iff]

@[simp] theorem objectsIn_append (values more : List Json) :
    objectsIn (values ++ more) = objectsIn values ++ objectsIn more :=
  List.filterMap_append

@[simp] theorem arraysIn_append (values more : List Json) :
    arraysIn (values ++ more) = arraysIn values ++ arraysIn more :=
  List.filterMap_append

/-- If an array comes first, there is one. -/
theorem exists_arraysIn_of_firstKind {values : List Json} (h : firstKind values = .array) :
    ∃ first rest, arraysIn values = first :: rest := by
  cases values with
  | nil => simp at h
  | cons v rest =>
      cases v with
      | array items => exact ⟨items, arraysIn rest, rfl⟩
      | _ => simp [Json.kind] at h

theorem mem_valuesIn {objects : List (Keyed String Json)} {key : String} {v : Json} :
    v ∈ valuesIn objects key ↔ ∃ members ∈ objects, (key, v) ∈ members := by
  simp [valuesIn, Keyed.values, List.mem_filter, List.mem_flatten]

theorem mem_keysIn {objects : List (Keyed String Json)} {key : String} :
    key ∈ keysIn objects ↔ ∃ members ∈ objects, ∃ v, (key, v) ∈ members := by
  simp only [keysIn, List.mem_eraseDups, Keyed.keys, List.mem_map, List.mem_flatten]
  constructor
  · rintro ⟨⟨_, v⟩, ⟨members, hm, hv⟩, rfl⟩
    exact ⟨members, hm, v, hv⟩
  · rintro ⟨members, hm, v, hv⟩
    exact ⟨(key, v), ⟨members, hm, hv⟩, rfl⟩

/-- A key occurs exactly if there is a value under it. -/
theorem mem_keysIn_iff_valuesIn_ne_nil {objects : List (Keyed String Json)} {key : String} :
    key ∈ keysIn objects ↔ valuesIn objects key ≠ [] := by
  rw [mem_keysIn, ← List.length_pos_iff, List.length_pos_iff_exists_mem]
  simp only [mem_valuesIn]
  constructor
  · rintro ⟨members, hm, v, hv⟩
    exact ⟨v, members, hm, hv⟩
  · rintro ⟨v, members, hm, hv⟩
    exact ⟨members, hm, v, hv⟩

theorem objectsIn_singleton_of_ne {v : Json} (h : v.kind ≠ .object) : objectsIn [v] = [] := by
  cases v <;> simp_all [objectsIn, Json.members?, Json.kind]

theorem arraysIn_singleton_of_ne {v : Json} (h : v.kind ≠ .array) : arraysIn [v] = [] := by
  cases v <;> simp_all [arraysIn, Json.items?, Json.kind]

@[simp] theorem objectsIn_singleton (members : Keyed String Json) :
    objectsIn [.object members] = [members] := rfl

@[simp] theorem arraysIn_singleton (items : List Json) : arraysIn [.array items] = [items] := rfl

theorem objectsIn_cons (v : Json) (rest : List Json) :
    objectsIn (v :: rest) = objectsIn [v] ++ objectsIn rest :=
  objectsIn_append [v] rest

theorem rootObjects_cons (d : Json) (rest : List Json) :
    rootObjects (d :: rest) = rootObjects [d] ++ rootObjects rest := by
  simp [rootObjects]

theorem mem_rootObjects {documents : List Json} {members : Keyed String Json} :
    members ∈ rootObjects documents ↔ ∃ d ∈ documents, members ∈ rootObjects [d] := by
  simp [rootObjects]

theorem valuesIn_append (objects more : List (Keyed String Json)) (key : String) :
    valuesIn (objects ++ more) key = valuesIn objects key ++ valuesIn more key := by
  simp [valuesIn, Keyed.values]

theorem valuesIn_cons (members : Keyed String Json) (objects : List (Keyed String Json))
    (key : String) :
    valuesIn (members :: objects) key = valuesIn [members] key ++ valuesIn objects key :=
  valuesIn_append [members] objects key

theorem valuesIn_singleton (k key : String) (v : Json) :
    valuesIn [[(k, v)]] key = if k = key then [v] else [] := by
  by_cases h : k = key <;> simp [valuesIn, Keyed.values, h]

/-- A last key adds itself if it is new. -/
theorem eraseDups_append_singleton (ks : List String) (k : String) :
    (ks ++ [k]).eraseDups = if k ∈ ks then ks.eraseDups else ks.eraseDups ++ [k] := by
  rw [List.eraseDups_append]
  by_cases h : k ∈ ks
  · simp [h, List.removeAll]
  · simp [h, List.removeAll, List.eraseDups_cons]

/-- One more member is listed last if its key is new. -/
theorem keysIn_append_singleton (objects : List (Keyed String Json)) (key : String) (v : Json) :
    keysIn (objects ++ [[(key, v)]]) =
      if key ∈ keysIn objects then keysIn objects else keysIn objects ++ [key] := by
  have happ : Keyed.keys (objects ++ [[(key, v)]]).flatten =
      Keyed.keys objects.flatten ++ [key] := by
    simp [Keyed.keys]
  rw [keysIn, happ, eraseDups_append_singleton]
  simp only [keysIn, List.mem_eraseDups]

theorem nodup_eraseDups (ks : List String) : ks.eraseDups.Nodup := by
  induction ks using List.reverseRecOn with
  | nil => simp
  | append_singleton ks k ih =>
      rw [eraseDups_append_singleton]
      split
      · exact ih
      · next h =>
        have hk : k ∉ ks.eraseDups := by
          rwa [List.mem_eraseDups]
        simpa using List.Nodup.concat hk ih

theorem eraseDups_of_nodup {ks : List String} (h : ks.Nodup) : ks.eraseDups = ks := by
  induction ks using List.reverseRecOn with
  | nil => simp
  | append_singleton ks k ih =>
      rw [← List.concat_eq_append, List.nodup_concat] at h
      rw [eraseDups_append_singleton, if_neg h.1, ih h.2]

theorem nodup_keysIn (objects : List (Keyed String Json)) : (keysIn objects).Nodup :=
  nodup_eraseDups _

/-- How deep objects nest. -/
def nesting (objects : List (Keyed String Json)) : Nat :=
  Json.depthItems (objects.map Json.object)

theorem nesting_le_iff {objects : List (Keyed String Json)} {n : Nat} :
    nesting objects ≤ n ↔ ∀ members ∈ objects, (Json.object members).depth ≤ n := by
  simp [nesting, Json.depthItems_le_iff]

theorem nesting_objectsIn_le (values : List Json) :
    nesting (objectsIn values) ≤ Json.depthItems values := by
  rw [nesting_le_iff]
  intro members hm
  exact Json.depthItems_le_iff.mp (Nat.le_refl _) _ (mem_objectsIn.mp hm)

theorem depthItems_flatten_arraysIn_le (values : List Json) :
    Json.depthItems (arraysIn values).flatten ≤ Json.depthItems values := by
  rw [Json.depthItems_le_iff]
  intro v hv
  obtain ⟨items, hi, hv⟩ := List.mem_flatten.mp hv
  have harray : (Json.array items).depth ≤ Json.depthItems values :=
    Json.depthItems_le_iff.mp (Nat.le_refl _) _ (mem_arraysIn.mp hi)
  have hitem : v.depth ≤ Json.depthItems items := Json.depthItems_le_iff.mp (Nat.le_refl _) v hv
  simp only [Json.depth] at harray
  omega

/-- The values under a key nest less deeply than the objects that hold them. -/
theorem depthItems_valuesIn_lt {objects : List (Keyed String Json)} {key : String}
    (h : key ∈ keysIn objects) : Json.depthItems (valuesIn objects key) < nesting objects := by
  have hobject : ∀ members ∈ objects, Json.depthMembers members + 1 ≤ nesting objects := by
    intro members hm
    exact nesting_le_iff.mp (Nat.le_refl _) members hm
  obtain ⟨members, hm, _⟩ := mem_keysIn.mp h
  have hpos := hobject members hm
  have hle : Json.depthItems (valuesIn objects key) ≤ nesting objects - 1 := by
    rw [Json.depthItems_le_iff]
    intro v hv
    obtain ⟨members, hm, hv⟩ := mem_valuesIn.mp hv
    have hmember : v.depth ≤ Json.depthMembers members :=
      Json.depthMembers_le_iff.mp (Nat.le_refl _) (key, v) hv
    have := hobject members hm
    omega
  omega

/-- What holds of objects whenever it holds of the objects below each of their
keys, directly and in arrays, holds of all objects. -/
theorem objects_induction {motive : List (Keyed String Json) → Prop}
    (step : ∀ objects,
      (∀ key ∈ keysIn objects, motive (objectsIn (valuesIn objects key)) ∧
        motive (objectsIn (arraysIn (valuesIn objects key)).flatten)) → motive objects)
    (objects : List (Keyed String Json)) : motive objects := by
  induction hn : nesting objects using Nat.strongRecOn generalizing objects with
  | ind n ih =>
      apply step
      intro key hkey
      have hlt := depthItems_valuesIn_lt hkey
      have hobjects := nesting_objectsIn_le (valuesIn objects key)
      have harrays := nesting_objectsIn_le (arraysIn (valuesIn objects key)).flatten
      have hflat := depthItems_flatten_arraysIn_le (valuesIn objects key)
      exact ⟨ih _ (by omega) _ rfl, ih _ (by omega) _ rfl⟩

end Observed

end JsonRecords
