import JsonRecords.Record.Generate
import JsonRecords.Proofs.Schema.Shape

/-!
# Schemas that differ in the order of children

`Alike` compares schemas up to the order of children at every level. The order
is all that samples in another order can change, and it does not reach the
records made of a schema (`records_eq_of_alike`): their fields go by name, and
siblings have distinct names.
-/

namespace JsonRecords

namespace Schema

open Observed

/-- Schemas that are equal up to the order of children at every level. -/
inductive Alike : Schema → Schema → Prop where
  | node {name : String} {kind : Kind} {cs ds es : List (String × Schema)}
      (hk : Keyed.keys cs = Keyed.keys ds)
      (hv : List.Forall₂ Alike (Keyed.values cs) (Keyed.values ds)) (hp : ds.Perm es) :
      Alike ⟨name, kind, cs⟩ ⟨name, kind, es⟩

theorem Alike.kind_eq {s t : Schema} (h : Alike s t) : s.kind = t.kind := by
  cases h
  rfl

theorem alike_of_values {name : String} {kind : Kind} {cs ds : List (String × Schema)}
    (hk : Keyed.keys cs = Keyed.keys ds)
    (hv : List.Forall₂ Alike (Keyed.values cs) (Keyed.values ds)) :
    Alike ⟨name, kind, cs⟩ ⟨name, kind, ds⟩ :=
  .node hk hv (.refl ds)

theorem alike_leaf (name : String) (kind : Kind) : Alike (leaf name kind) (leaf name kind) :=
  alike_of_values rfl .nil

theorem Alike.eq_leaf {name : String} {kind : Kind} {t : Schema} (h : Alike (leaf name kind) t) :
    t = leaf name kind := by
  obtain ⟨hk, hv, hp⟩ := h
  rename_i ds es
  obtain rfl : ds = [] := by simpa [Keyed.keys] using hk.symm
  obtain rfl := hp.nil_eq
  rfl

/-- What is like a position with a single child has a single child like it. -/
theorem Alike.exists_singleton {name key : String} {kind : Kind} {c t : Schema}
    (h : Alike ⟨name, kind, [(key, c)]⟩ t) : ∃ d, t = ⟨name, kind, [(key, d)]⟩ ∧ Alike c d := by
  obtain ⟨hk, hv, hp⟩ := h
  cases Keyed.forall₂_of_values hk hv with
  | @cons _ d _ _ hcd hrest =>
      obtain ⟨k, d⟩ := d
      obtain ⟨rfl, hcd⟩ := hcd
      cases hrest
      exact ⟨d, by rw [hp.singleton_eq], hcd⟩

/-- The children under one key are alike, if there are any. -/
theorem Alike.child {s t : Schema} (h : Alike s t) (hd : Distinct s) (key : String) :
    Option.Rel Alike (s.child key) (t.child key) := by
  cases h with
  | @node name kind cs ds es hk hv hp =>
      cases hd with
      | node hn _ =>
          have hread : Keyed.get? key ds = Keyed.get? key es :=
            Keyed.get?_eq_of_perm hp (hk ▸ hn) key
          change Option.Rel Alike (Keyed.get? key cs) (Keyed.get? key es)
          rw [← hread]
          exact Keyed.get?_rel (Keyed.forall₂_of_values hk hv) key

theorem Alike.child_cases {s t : Schema} (h : Alike s t) (hd : Distinct s) (key : String) :
    (s.child key = none ∧ t.child key = none) ∨
      ∃ c d, s.child key = some c ∧ t.child key = some d ∧ Alike c d := by
  have hchild := h.child hd key
  generalize s.child key = c at hchild ⊢
  generalize t.child key = d at hchild ⊢
  cases hchild with
  | none => exact Or.inl ⟨rfl, rfl⟩
  | some hcd => exact Or.inr ⟨_, _, rfl, rfl, hcd⟩

theorem Distinct.child {s c : Schema} (h : Distinct s) {key : String}
    (hc : s.child key = some c) : Distinct c := by
  cases h with
  | node _ h => exact h (key, c) (Keyed.mem_of_get?_eq_some hc)

/-- Tables over the same keys with alike entries are alike as children. -/
theorem alike_tabulate {name : String} {kind : Kind} {ks ks' : List String} {f g : String → Schema}
    (hp : ks.Perm ks') (h : ∀ key ∈ ks, Alike (f key) (g key)) :
    Alike ⟨name, kind, Keyed.tabulate ks f⟩ ⟨name, kind, Keyed.tabulate ks' g⟩ := by
  have hvalues : List.Forall₂ Alike (Keyed.values (Keyed.tabulate ks f))
      (Keyed.values (Keyed.tabulate ks g)) := by
    clear hp
    induction ks with
    | nil => exact .nil
    | cons key rest ih =>
        obtain ⟨hkey, hrest⟩ := List.forall_mem_cons.mp h
        exact .cons hkey (ih hrest)
  exact .node (by rw [Keyed.keys_tabulate, Keyed.keys_tabulate]) hvalues (hp.map _)

/-- Grouped objects are alike if they have the same keys and group alike under
each of them. -/
theorem alike_groupFields {name : String} {objects objects' : List (Keyed String Json)}
    (hkeys : ∀ key, key ∈ keysIn objects ↔ key ∈ keysIn objects')
    (h : ∀ key ∈ keysIn objects,
      Alike (groupAt key (firstKind (valuesIn objects key)) (valuesIn objects key))
        (groupAt key (firstKind (valuesIn objects' key)) (valuesIn objects' key))) :
    Alike ⟨name, .object, groupFields objects⟩ ⟨name, .object, groupFields objects'⟩ := by
  rw [groupFields_eq_tabulate, groupFields_eq_tabulate]
  apply alike_tabulate _ h
  exact (List.perm_ext_iff_of_nodup (nodup_keysIn objects) (nodup_keysIn objects')).mpr hkeys

/-- Grouped values of one kind are alike if what counts below that kind is. -/
theorem alike_groupAt {name : String} {kind : Kind} {values values' : List Json}
    (hfirst : firstKind values = kind) (hfirst' : firstKind values' = kind)
    (ho : kind = .object → Alike ⟨name, .object, groupFields (objectsIn values)⟩
      ⟨name, .object, groupFields (objectsIn values')⟩)
    (ha : ∀ first rest first' rest', arraysIn values = first :: rest →
      arraysIn values' = first' :: rest' → firstKind first = firstKind first' ∧
        (firstKind first = .object →
          Alike ⟨elementKey, .object, groupFields (objectsIn (arraysIn values).flatten)⟩
            ⟨elementKey, .object, groupFields (objectsIn (arraysIn values').flatten)⟩)) :
    Alike (groupAt name kind values) (groupAt name kind values') := by
  by_cases hobject : kind = .object
  · subst hobject
    rw [groupAt_object, groupAt_object]
    exact ho rfl
  by_cases harray : kind = .array
  · subst harray
    obtain ⟨first, rest, hs⟩ := exists_arraysIn_of_firstKind hfirst
    obtain ⟨first', rest', hs'⟩ := exists_arraysIn_of_firstKind hfirst'
    obtain ⟨hk, helements⟩ := ha first rest first' rest' hs hs'
    rw [groupAt_array_cons hs, groupAt_array_cons hs', ← hk]
    have helement : Alike (groupElement (firstKind first) (first :: rest).flatten)
        (groupElement (firstKind first) (first' :: rest').flatten) := by
      by_cases he : firstKind first = .object
      · rw [he, groupElement_object, groupElement_object, ← hs, ← hs']
        exact helements he
      · rw [groupElement_of_ne he, groupElement_of_ne he]
        exact alike_leaf _ _
    exact alike_of_values rfl (.cons helement .nil)
  · rw [groupAt_scalar hobject harray, groupAt_scalar hobject harray]
    exact alike_leaf _ _

@[simp] theorem name_sorted (s : Schema) : s.sorted.name = s.name := by
  cases s
  rw [sorted]

theorem sortedChildren_eq_map (cs : List (String × Schema)) :
    sortedChildren cs = cs.map fun c => (c.1, c.2.sorted) := by
  induction cs with
  | nil => rw [sortedChildren, List.map_nil]
  | cons c rest ih =>
      obtain ⟨key, s⟩ := c
      rw [sortedChildren, ih, List.map_cons]

/-- Sorting by name puts names in order. -/
theorem pairwise_mergeSort {α : Type} (name : α → String) (l : List α) :
    (l.mergeSort fun a b => decide (name a ≤ name b)).Pairwise fun a b => name a ≤ name b := by
  have hsorted : (l.mergeSort fun a b => decide (name a ≤ name b)).Pairwise
      fun a b => decide (name a ≤ name b) = true := by
    apply List.pairwise_mergeSort
    · intro a b c hab hbc
      exact decide_eq_true (String.le_trans (of_decide_eq_true hab) (of_decide_eq_true hbc))
    · intro a b
      simpa using String.le_total (name a) (name b)
  exact hsorted.imp of_decide_eq_true

/-- Sorting by name does not see the order in which distinct names come. -/
theorem mergeSort_eq_of_perm {cs ds : List (String × Schema)} (hp : cs.Perm ds)
    (hn : (cs.map fun c => c.2.name).Nodup) :
    cs.mergeSort (fun a b => decide (a.2.name ≤ b.2.name)) =
      ds.mergeSort (fun a b => decide (a.2.name ≤ b.2.name)) := by
  have hsorted := pairwise_mergeSort fun c : String × Schema => c.2.name
  -- entries of one name are one entry, so the order by name is antisymmetric here
  apply List.Perm.eq_of_pairwise _ (hsorted cs) (hsorted ds)
  · exact (List.mergeSort_perm cs _).trans (hp.trans (List.mergeSort_perm ds _).symm)
  · intro a b ha hb hab hba
    exact List.inj_on_of_nodup_map hn (List.mem_mergeSort.mp ha)
      (hp.mem_iff.mpr (List.mem_mergeSort.mp hb)) (String.le_antisymm hab hba)

theorem sortedChildren_eq_of_alike {cs ds : List (String × Schema)}
    (hs : ∀ c ∈ cs, ∀ t, Alike c.2 t → c.2.sorted = t.sorted)
    (hk : Keyed.keys cs = Keyed.keys ds)
    (hv : List.Forall₂ Alike (Keyed.values cs) (Keyed.values ds)) :
    sortedChildren cs = sortedChildren ds := by
  rw [sortedChildren_eq_map, sortedChildren_eq_map]
  have hentries := Keyed.forall₂_of_values hk hv
  clear hk hv
  induction hentries with
  | nil => rfl
  | @cons c d rest rest' hcd _ ih =>
      obtain ⟨hc, hs⟩ := List.forall_mem_cons.mp hs
      rw [List.map_cons, List.map_cons, ih hs, hcd.1, hc d.2 hcd.2]

/-- Objects with alike fields under distinct names sort to one. -/
theorem sorted_object_eq {name : String} {cs ds es : List (String × Schema)}
    (h : sortedChildren cs = sortedChildren ds) (hp : ds.Perm es)
    (hn : (cs.map fun c => c.2.name).Nodup) :
    sorted ⟨name, .object, cs⟩ = sorted ⟨name, .object, es⟩ := by
  have hperm : (sortedChildren cs).Perm (sortedChildren es) := by
    rw [h, sortedChildren_eq_map, sortedChildren_eq_map]
    exact hp.map _
  have hnames : ((sortedChildren cs).map fun c => c.2.name).Nodup := by
    rw [sortedChildren_eq_map, List.map_map]
    simpa [Function.comp_def] using hn
  rw [sorted, sorted]
  simp only [if_true, mergeSort_eq_of_perm hperm hnames]

mutual

theorem Shaped.sorted_eq : ∀ {s t : Schema}, Shaped s → Alike s t → s.sorted = t.sorted
  | _, _, .object h, .node hk hv hp =>
      sorted_object_eq (h.sortedChildren_eq hk hv) hp h.nodup_names
  | _, _, .array h, halike => by
      obtain ⟨d, rfl, hd⟩ := halike.exists_singleton
      simp only [sorted, sortedChildren, h.sorted_eq hd]
  | _, _, .scalar _ _, halike => by rw [halike.eq_leaf]

theorem ShapedElement.sorted_eq :
    ∀ {s t : Schema}, ShapedElement s → Alike s t → s.sorted = t.sorted
  | _, _, .object h, .node hk hv hp =>
      sorted_object_eq (h.sortedChildren_eq hk hv) hp h.nodup_names
  | _, _, .other _, halike => by rw [halike.eq_leaf]

theorem ShapedFields.sortedChildren_eq : ∀ {cs ds : List (String × Schema)}, ShapedFields cs →
    Keyed.keys cs = Keyed.keys ds → List.Forall₂ Alike (Keyed.values cs) (Keyed.values ds) →
      sortedChildren cs = sortedChildren ds
  | _, _, .mk _ _ h, hk, hv =>
      sortedChildren_eq_of_alike (fun c hc _ ht => (h c hc).sorted_eq ht) hk hv

end

/-- Records do not depend on the order of children. -/
theorem records_eq_of_alike {s t : Schema} (hs : Shaped s) (h : Alike s t) (naming : Naming)
    (spell : TypeSpelling) : s.records naming spell = t.records naming spell := by
  rw [records, records, hs.sorted_eq h]

end Schema

end JsonRecords
