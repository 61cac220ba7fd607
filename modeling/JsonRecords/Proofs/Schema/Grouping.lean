import JsonRecords.Schema.Inference
import JsonRecords.Proofs.Keyed
import JsonRecords.Proofs.Observed

/-!
# Grouping samples by position

`group` is the schema of a list of samples said top down: all values observed
at a position are gathered first, and the position and what is below it are
read off them. Merging samples one after another gives the same tree, since
merging one more value into the tree of some values gives the tree of them all
(`meet_groupAt`, `mergeMembers_groupFields`).
-/

namespace JsonRecords

namespace Schema

open Observed

mutual

/-- The children of a position at which objects were observed: one for each key,
in order of first occurrence, with the kind of the first value under the key
and all values under it. -/
def groupFields (objects : List (Keyed String Json)) : List (String × Schema) :=
  (keysIn objects).attach.map fun ⟨key, _⟩ =>
    (key, groupAt key (firstKind (valuesIn objects key)) (valuesIn objects key))
termination_by (nesting objects, 0)
decreasing_by
  apply Prod.Lex.left
  exact depthItems_valuesIn_lt ‹key ∈ keysIn objects›

/-- The child of an array position whose elements are of a kind. Nothing but
objects among the elements has anything below it. -/
def groupElement (kind : Kind) (items : List Json) : Schema :=
  ⟨elementKey, kind, if kind = .object then groupFields (objectsIn items) else []⟩
termination_by (Json.depthItems items, 1)
decreasing_by
  rcases Nat.lt_or_eq_of_le (nesting_objectsIn_le items) with h | h
  · exact Prod.Lex.left _ _ h
  · rw [h]
    exact Prod.Lex.right _ (by omega)

/-- A position of a kind at which values were observed. Only objects count below
an object, and only arrays below an array, where the first element of the first
array gives the kind of the elements of all. -/
def groupAt (name : String) (kind : Kind) (values : List Json) : Schema :=
  ⟨name, kind,
    match kind with
    | .object => groupFields (objectsIn values)
    | .array =>
      match arraysIn values with
      | [] => []
      | first :: _ => [(elementKey, groupElement (firstKind first) (arraysIn values).flatten)]
    | _ => []⟩
termination_by (Json.depthItems values, 2)
decreasing_by
  · rcases Nat.lt_or_eq_of_le (nesting_objectsIn_le values) with h | h
    · exact Prod.Lex.left _ _ h
    · rw [h]
      exact Prod.Lex.right _ (by omega)
  · rcases Nat.lt_or_eq_of_le (depthItems_flatten_arraysIn_le values) with h | h
    · exact Prod.Lex.left _ _ h
    · rw [h]
      exact Prod.Lex.right _ (by omega)

end

/-- The schema of samples, grouped by position. -/
def group (documents : List Json) : Schema :=
  ⟨rootName, .object, groupFields (rootObjects documents)⟩

theorem groupFields_eq_tabulate (objects : List (Keyed String Json)) :
    groupFields objects = Keyed.tabulate (keysIn objects) fun key =>
      groupAt key (firstKind (valuesIn objects key)) (valuesIn objects key) := by
  rw [groupFields]
  simp only [List.map_attach_eq_pmap, List.pmap_eq_map, Keyed.tabulate]

@[simp] theorem kind_groupAt (name : String) (kind : Kind) (values : List Json) :
    (groupAt name kind values).kind = kind := by
  rw [groupAt.eq_def]

@[simp] theorem name_groupAt (name : String) (kind : Kind) (values : List Json) :
    (groupAt name kind values).name = name := by
  rw [groupAt.eq_def]

theorem groupAt_object (name : String) (values : List Json) :
    groupAt name .object values = ⟨name, .object, groupFields (objectsIn values)⟩ := by
  rw [groupAt]

theorem groupAt_array_nil {name : String} {values : List Json} (h : arraysIn values = []) :
    groupAt name .array values = leaf name .array := by
  rw [groupAt, h]
  rfl

theorem groupAt_array_cons {name : String} {values first : List Json} {rest : List (List Json)}
    (h : arraysIn values = first :: rest) :
    groupAt name .array values =
      ⟨name, .array, [(elementKey, groupElement (firstKind first) (first :: rest).flatten)]⟩ := by
  rw [groupAt, h]

/-- Nothing is ever below a scalar. -/
theorem groupAt_scalar {name : String} {kind : Kind} {values : List Json}
    (ho : kind ≠ .object) (ha : kind ≠ .array) : groupAt name kind values = leaf name kind := by
  rw [groupAt.eq_def]
  cases kind <;> simp_all [leaf]

@[simp] theorem kind_groupElement (kind : Kind) (items : List Json) :
    (groupElement kind items).kind = kind := by
  rw [groupElement]

theorem groupElement_object (items : List Json) :
    groupElement .object items = ⟨elementKey, .object, groupFields (objectsIn items)⟩ := by
  simp [groupElement]

theorem groupElement_of_ne {kind : Kind} {items : List Json} (h : kind ≠ .object) :
    groupElement kind items = leaf elementKey kind := by
  simp [groupElement, h, leaf]

@[simp] theorem groupFields_nil : groupFields [] = [] := by
  simp [groupFields_eq_tabulate, keysIn, Keyed.keys]

/-- A position at which nothing was observed has nothing below it. -/
theorem groupAt_nil (name : String) (kind : Kind) : groupAt name kind [] = leaf name kind := by
  rw [groupAt.eq_def]
  cases kind <;> simp [objectsIn, arraysIn, leaf]

theorem groupElement_nil (kind : Kind) : groupElement kind [] = leaf elementKey kind := by
  simp [groupElement, objectsIn, leaf]

/-- A value that is no container of the kind of its position adds nothing. -/
theorem groupAt_append_of_ne {name : String} {kind : Kind} {values : List Json} {v : Json}
    (ho : v.kind = .object → kind ≠ .object) (ha : v.kind = .array → kind ≠ .array) :
    groupAt name kind (values ++ [v]) = groupAt name kind values := by
  by_cases hobject : kind = .object
  · subst hobject
    rw [groupAt_object, groupAt_object, objectsIn_append,
      objectsIn_singleton_of_ne fun hv => ho hv rfl, List.append_nil]
  by_cases harray : kind = .array
  · subst harray
    have hsame : arraysIn (values ++ [v]) = arraysIn values := by
      rw [arraysIn_append, arraysIn_singleton_of_ne fun hv => ha hv rfl, List.append_nil]
    rw [groupAt, groupAt, hsame]
  · rw [groupAt_scalar hobject harray, groupAt_scalar hobject harray]

/-- How members are spread over objects does not matter. -/
theorem groupFields_congr {objects objects' : List (Keyed String Json)}
    (h : objects.flatten = objects'.flatten) : groupFields objects = groupFields objects' := by
  have hkeys : keysIn objects = keysIn objects' := by rw [keysIn, keysIn, h]
  have hvalues : valuesIn objects = valuesIn objects' := by
    funext key
    rw [valuesIn, valuesIn, h]
  rw [groupFields_eq_tabulate, groupFields_eq_tabulate, hkeys, hvalues]

/-- Below grouped objects lie the positions of their keys. -/
theorem child_groupFields (name key : String) (objects : List (Keyed String Json)) :
    child ⟨name, .object, groupFields objects⟩ key =
      if key ∈ keysIn objects then
        some (groupAt key (firstKind (valuesIn objects key)) (valuesIn objects key))
      else none := by
  rw [child, groupFields_eq_tabulate, Keyed.get?_tabulate]

/-- Where a value under a key is met: among the values already seen under it. -/
theorem getD_child_groupFields (name key : String) (objects : List (Keyed String Json))
    (v : Json) :
    ((Schema.mk name .object (groupFields objects)).child key).getD (leaf key v.kind) =
      groupAt key (firstKind (valuesIn objects key ++ [v])) (valuesIn objects key) := by
  rw [child_groupFields]
  by_cases h : key ∈ keysIn objects
  · rw [if_pos h, Option.getD_some, firstKind_append (mem_keysIn_iff_valuesIn_ne_nil.mp h)]
  · have hnil : valuesIn objects key = [] := by
      by_contra hne
      exact h (mem_keysIn_iff_valuesIn_ne_nil.mpr hne)
    rw [if_neg h, Option.getD_none, hnil, groupAt_nil]
    rfl

/-- One more member changes the position of its key and no other. -/
theorem setChild_groupFields (name key : String) (objects : List (Keyed String Json)) (v : Json) :
    (Schema.mk name .object (groupFields objects)).setChild key
        (groupAt key (firstKind (valuesIn objects key ++ [v])) (valuesIn objects key ++ [v])) =
      ⟨name, .object, groupFields (objects ++ [[(key, v)]])⟩ := by
  have hvalues (k : String) : valuesIn (objects ++ [[(key, v)]]) k =
      if key = k then valuesIn objects k ++ [v] else valuesIn objects k := by
    rw [valuesIn_append, valuesIn_singleton]
    split <;> simp
  rw [setChild, groupFields_eq_tabulate, Keyed.set_tabulate (nodup_keysIn objects),
    groupFields_eq_tabulate, keysIn_append_singleton]
  congr 1
  apply Keyed.tabulate_congr
  intro k _
  rw [hvalues k]
  by_cases hk : key = k
  · subst hk
    simp
  · rw [if_neg hk, Function.update_of_ne fun h => hk h.symm]

mutual

/-- Meeting one more value at the position of some values gives the position of
them all. -/
theorem meet_groupAt (path : Path) (name : String) (kind : Kind) (values : List Json)
    (v : Json) :
    (meet path (groupAt name kind values) v).1 = groupAt name kind (values ++ [v]) := by
  have hcases := meet_cases (groupAt name kind values) v
  rw [kind_groupAt] at hcases
  rcases hcases with ⟨members, rfl, rfl⟩ | ⟨items, rfl, rfl⟩ | ⟨ho, ha⟩
  · have hmerge := mergeMembers_groupFields path name (objectsIn values) members
    rw [meet_object (kind_groupAt ..), groupAt_object, hmerge, groupAt_object, objectsIn_append,
      objectsIn_singleton]
  · rw [meet_array (kind_groupAt ..)]
    -- the first array that is met here decides the kind of the elements
    cases hs : arraysIn values with
    | nil =>
        have hnew := mergeElement_groupElement (path ++ [.element]) (firstKind items) [] items
        rw [groupElement_nil, List.nil_append] at hnew
        have happ : arraysIn (values ++ [.array items]) = items :: [] := by
          rw [arraysIn_append, hs, arraysIn_singleton, List.nil_append]
        rw [groupAt_array_nil hs, groupAt_array_cons happ]
        change setChild (leaf name .array) elementKey
          (mergeElement _ (leaf elementKey (firstKind items)) items).1 = _
        rw [hnew]
        simp [setChild, leaf]
    | cons first rest =>
        have hold := mergeElement_groupElement (path ++ [.element]) (firstKind first)
          (first :: rest).flatten items
        have happ : arraysIn (values ++ [.array items]) = first :: (rest ++ [items]) := by
          rw [arraysIn_append, hs, arraysIn_singleton, List.cons_append]
        rw [groupAt_array_cons hs, groupAt_array_cons happ]
        simp only [child, setChild, Keyed.get?_cons, Keyed.set_cons, if_true, Option.getD_some,
          hold]
        simp
  · rw [meet_of_ne (by rwa [kind_groupAt]) (by rwa [kind_groupAt]), groupAt_append_of_ne ho ha]
termination_by (sizeOf v, 0)

theorem mergeMembers_groupFields (path : Path) (name : String)
    (objects : List (Keyed String Json)) (members : List (String × Json)) :
    (mergeMembers path ⟨name, .object, groupFields objects⟩ members).1 =
      ⟨name, .object, groupFields (objects ++ [members])⟩ := by
  cases members with
  | nil =>
      have hnone : groupFields (objects ++ [[]]) = groupFields objects :=
        groupFields_congr (by simp)
      rw [mergeMembers_nil, hnone]
  | cons member rest =>
      obtain ⟨key, v⟩ := member
      have hmet := meet_groupAt (path ++ [.field key]) key
        (firstKind (valuesIn objects key ++ [v])) (valuesIn objects key) v
      -- the first member counts as an object of its own until the rest is merged
      have hrest := mergeMembers_groupFields path name (objects ++ [[(key, v)]]) rest
      have hspread : groupFields (objects ++ [[(key, v)]] ++ [rest]) =
          groupFields (objects ++ [(key, v) :: rest]) :=
        groupFields_congr (by simp)
      simp only [mergeMembers_cons, getD_child_groupFields, hmet, setChild_groupFields, hrest,
        hspread]
termination_by (sizeOf members, 0)

theorem mergeItems_groupFields (path : Path) (name : String)
    (objects : List (Keyed String Json)) (items : List Json) :
    (mergeItems path ⟨name, .object, groupFields objects⟩ items).1 =
      ⟨name, .object, groupFields (objects ++ objectsIn items)⟩ := by
  cases items with
  | nil => simp [objectsIn]
  | cons v rest =>
      rcases v.object_or_ne with ⟨members, rfl⟩ | hv
      · have hmembers := mergeMembers_groupFields path name objects members
        have hrest := mergeItems_groupFields path name (objects ++ [members]) rest
        simp only [mergeItems_object, hmembers, hrest]
        rw [objectsIn_cons, objectsIn_singleton, List.append_assoc]
      · have hrest := mergeItems_groupFields path name objects rest
        rw [mergeItems_of_ne hv, hrest, objectsIn_cons, objectsIn_singleton_of_ne hv,
          List.nil_append]
termination_by (sizeOf items, 0)

theorem mergeElement_groupElement (path : Path) (kind : Kind) (seen items : List Json) :
    (mergeElement path (groupElement kind seen) items).1 = groupElement kind (seen ++ items) := by
  by_cases hk : kind = .object
  · subst hk
    have hmerge := mergeItems_groupFields path elementKey (objectsIn seen) items
    rw [groupElement_object, mergeElement_object rfl, hmerge, groupElement_object,
      objectsIn_append]
  · rw [groupElement_of_ne hk, mergeElement_of_ne hk, groupElement_of_ne hk]
termination_by (sizeOf items, 1)

end

theorem observeItems_groupFields (name : String) (objects : List (Keyed String Json))
    (index : Nat) (items : List Json) :
    (observeItems ⟨name, .object, groupFields objects⟩ index items).1 =
      ⟨name, .object, groupFields (objects ++ objectsIn items)⟩ := by
  induction items generalizing objects index with
  | nil => simp [observeItems, objectsIn]
  | cons v rest ih =>
      rcases v.object_or_ne with ⟨members, rfl⟩ | hv
      · have hmembers := mergeMembers_groupFields [] name objects members
        simp only [observeItems_object, hmembers, ih]
        rw [objectsIn_cons, objectsIn_singleton, List.append_assoc]
      · simp only [observeItems_of_ne hv, ih]
        rw [objectsIn_cons, objectsIn_singleton_of_ne hv, List.nil_append]

theorem observe_groupFields (name : String) (objects : List (Keyed String Json)) (d : Json) :
    (observe ⟨name, .object, groupFields objects⟩ d).1 =
      ⟨name, .object, groupFields (objects ++ rootObjects [d])⟩ := by
  cases d with
  | object members => simp [observe, mergeMembers_groupFields, rootObjects]
  | array items => simp [observe, observeItems_groupFields, rootObjects]
  | _ => simp [observe, rootObjects]

theorem observeAll_groupFields (name : String) (objects : List (Keyed String Json))
    (documents : List Json) :
    (observeAll ⟨name, .object, groupFields objects⟩ documents).1 =
      ⟨name, .object, groupFields (objects ++ rootObjects documents)⟩ := by
  induction documents generalizing objects with
  | nil => simp [observeAll, rootObjects]
  | cons d rest ih =>
      simp only [observeAll, observe_groupFields, ih]
      rw [rootObjects_cons d rest, List.append_assoc]

theorem schema_addAll_start (documents : List Json) :
    (Inference.start.addAll documents).schema =
      ⟨rootName, .object, groupFields (rootObjects documents)⟩ := by
  have hall := observeAll_groupFields rootName [] documents
  rw [groupFields_nil, List.nil_append] at hall
  exact hall

/-- Merging samples one after another groups them by position. -/
theorem infer_eq_group (documents : List Json) : infer documents = group documents :=
  schema_addAll_start documents

end Schema

end JsonRecords
