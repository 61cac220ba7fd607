import JsonRecords.Proofs.Json.Distinct

/-!
# Values that differ in the order of members

`Shuffled` permutes the members of objects at any depth and leaves the elements
of arrays where they are. Of distinct objects each holds at most one value under
a key, so shuffling them shuffles the values that are observed under a key and
keeps the order in which they are observed (`forall₂_valuesIn`).
-/

namespace JsonRecords

namespace Json

open Observed

/-- Values that are equal up to the order of members in any object. -/
inductive Shuffled : Json → Json → Prop where
  | null : Shuffled .null .null
  | bool (value : Bool) : Shuffled (.bool value) (.bool value)
  | number (value : Number) : Shuffled (.number value) (.number value)
  | string (value : String) : Shuffled (.string value) (.string value)
  | array {items items' : List Json} (h : List.Forall₂ Shuffled items items') :
      Shuffled (.array items) (.array items')
  | object {members between members' : List (String × Json)}
      (hk : Keyed.keys members = Keyed.keys between)
      (hv : List.Forall₂ Shuffled (Keyed.values members) (Keyed.values between))
      (hp : between.Perm members') : Shuffled (.object members) (.object members')

/-- Member lists of shuffled objects. -/
def ShuffledMembers (members members' : Keyed String Json) : Prop :=
  Shuffled (.object members) (.object members')

theorem Shuffled.kind_eq {v w : Json} (h : Shuffled v w) : v.kind = w.kind := by
  cases h <;> rfl

theorem Shuffled.members? {v w : Json} (h : Shuffled v w) :
    Option.Rel ShuffledMembers v.members? w.members? := by
  cases h with
  | object hk hv hp => exact .some (.object hk hv hp)
  | _ => exact .none

theorem Shuffled.items? {v w : Json} (h : Shuffled v w) :
    Option.Rel (List.Forall₂ Shuffled) v.items? w.items? := by
  cases h with
  | array h => exact .some h
  | _ => exact .none

/-- Shuffled members of a distinct object read alike under every key. -/
theorem ShuffledMembers.get? {members members' : Keyed String Json}
    (h : ShuffledMembers members members') (hd : Distinct (.object members)) (key : String) :
    Option.Rel Shuffled (Keyed.get? key members) (Keyed.get? key members') := by
  have hn := (distinct_object.mp hd).1
  cases h with
  | @object _ between _ hk hv hp =>
      have hread : Keyed.get? key between = Keyed.get? key members' :=
        Keyed.get?_eq_of_perm hp (hk ▸ hn) key
      rw [← hread]
      exact Keyed.get?_rel (Keyed.forall₂_of_values hk hv) key

theorem ShuffledMembers.nodup_keys {members members' : Keyed String Json}
    (h : ShuffledMembers members members') (hd : Distinct (.object members)) :
    (Keyed.keys members').Nodup := by
  have hn := (distinct_object.mp hd).1
  cases h with
  | object hk hv hp =>
      rw [hk] at hn
      exact (hp.map Prod.fst).nodup_iff.mp hn

end Json

namespace Observed

open Json

theorem distinct_of_mem_objectsIn {values : List Json} (hd : ∀ v ∈ values, v.Distinct) :
    ∀ members ∈ objectsIn values, Distinct (.object members) := by
  intro members hm
  exact hd _ (mem_objectsIn.mp hm)

theorem distinct_of_mem_flatten_arraysIn {values : List Json} (hd : ∀ v ∈ values, v.Distinct) :
    ∀ v ∈ (arraysIn values).flatten, v.Distinct := by
  intro v hv
  obtain ⟨items, hi, hv⟩ := List.mem_flatten.mp hv
  exact distinct_array.mp (hd _ (mem_arraysIn.mp hi)) v hv

theorem distinct_of_mem_valuesIn {objects : List (Keyed String Json)}
    (hd : ∀ members ∈ objects, Distinct (.object members)) (key : String) :
    ∀ v ∈ valuesIn objects key, v.Distinct := by
  intro v hv
  obtain ⟨members, hm, hv⟩ := mem_valuesIn.mp hv
  exact (distinct_object.mp (hd members hm)).2 (key, v) hv

theorem distinct_of_mem_rootObjects {documents : List Json} (hd : ∀ d ∈ documents, d.Distinct) :
    ∀ members ∈ rootObjects documents, Distinct (.object members) := by
  intro members hm
  obtain ⟨d, hmem, hm⟩ := List.mem_flatMap.mp hm
  have hdistinct := hd d hmem
  cases d with
  | object ms =>
      obtain rfl := List.mem_singleton.mp hm
      exact hdistinct
  | array items => exact distinct_array.mp hdistinct _ (mem_objectsIn.mp hm)
  | _ => simp at hm

theorem firstKind_eq_of_forall₂ {values values' : List Json}
    (h : List.Forall₂ Shuffled values values') : firstKind values = firstKind values' := by
  cases h with
  | nil => rfl
  | cons h _ => exact h.kind_eq

theorem forall₂_objectsIn {values values' : List Json} (h : List.Forall₂ Shuffled values values') :
    List.Forall₂ ShuffledMembers (objectsIn values) (objectsIn values') :=
  List.rel_filterMap (fun _ _ hvw => hvw.members?) h

theorem forall₂_arraysIn {values values' : List Json} (h : List.Forall₂ Shuffled values values') :
    List.Forall₂ (List.Forall₂ Shuffled) (arraysIn values) (arraysIn values') :=
  List.rel_filterMap (fun _ _ hvw => hvw.items?) h

theorem forall₂_rootObjects {documents documents' : List Json}
    (h : List.Forall₂ Shuffled documents documents') :
    List.Forall₂ ShuffledMembers (rootObjects documents) (rootObjects documents') := by
  refine List.rel_flatMap h ?_
  intro d e hde
  cases hde with
  | array h => exact forall₂_objectsIn h
  | object hk hv hp => exact .cons (.object hk hv hp) .nil
  | _ => exact .nil

theorem forall₂_toList {α : Type} {R : α → α → Prop} {o o' : Option α} (h : Option.Rel R o o') :
    List.Forall₂ R o.toList o'.toList := by
  cases h with
  | none => exact .nil
  | some h => exact .cons h .nil

/-- A distinct object holds what it reads as under a key and nothing else. -/
theorem valuesIn_singleton_eq {members : Keyed String Json} (hn : (Keyed.keys members).Nodup)
    (key : String) : valuesIn [members] key = (Keyed.get? key members).toList := by
  induction members with
  | nil => rfl
  | cons m rest ih =>
      obtain ⟨k, v⟩ := m
      obtain ⟨hk, hrest⟩ := List.nodup_cons.mp hn
      have hcons : valuesIn [(k, v) :: rest] key = valuesIn [[(k, v)]] key ++ valuesIn [rest] key :=
        valuesIn_append [[(k, v)]] [rest] key
      rw [hcons, valuesIn_singleton, ih hrest, Keyed.get?_cons]
      split
      · next he =>
        subst he
        have hnone : Keyed.get? k rest = none := by
          rw [Option.eq_none_iff_forall_not_mem]
          intro w hw
          have hkeys : k ∈ Keyed.keys rest := List.mem_map_of_mem (Keyed.mem_of_get?_eq_some hw)
          exact hk hkeys
        rw [hnone]
        rfl
      · rfl

/-- Shuffling distinct objects shuffles what they hold under a key, in place. -/
theorem forall₂_valuesIn {objects objects' : List (Keyed String Json)}
    (hd : ∀ members ∈ objects, Distinct (.object members))
    (h : List.Forall₂ ShuffledMembers objects objects') (key : String) :
    List.Forall₂ Shuffled (valuesIn objects key) (valuesIn objects' key) := by
  induction h with
  | nil => exact .nil
  | @cons members members' objects objects' hm _ ih =>
      obtain ⟨hmembers, hobjects⟩ := List.forall_mem_cons.mp hd
      have hfirst : List.Forall₂ Shuffled (valuesIn [members] key) (valuesIn [members'] key) := by
        rw [valuesIn_singleton_eq (distinct_object.mp hmembers).1,
          valuesIn_singleton_eq (hm.nodup_keys hmembers)]
        exact forall₂_toList (hm.get? hmembers key)
      rw [valuesIn_cons members, valuesIn_cons members']
      exact List.rel_append hfirst (ih hobjects)

end Observed

end JsonRecords
