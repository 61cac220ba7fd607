import JsonRecords.Keyed
import Mathlib.Data.List.Forall2
import Mathlib.Data.List.Nodup
import Mathlib.Data.Option.Basic
import Mathlib.Logic.Function.Basic

/-!
# Keyed lists as functions on their keys

`tabulate keys f` holds the value of `f` under each of the keys. Reading and
writing such a list is reading and writing the function (`get?_tabulate`,
`set_tabulate`). Where no key occurs twice a keyed list is determined by what
its keys read as, so the order of the entries does not matter to a reader
(`get?_eq_of_perm`).
-/

namespace JsonRecords

namespace Keyed

variable {κ α : Type}

/-- The values of a function under keys, in the order of the keys. -/
def tabulate (keys : List κ) (f : κ → α) : Keyed κ α :=
  keys.map fun key => (key, f key)

@[simp] theorem tabulate_nil (f : κ → α) : tabulate [] f = [] := rfl

theorem tabulate_cons (key : κ) (keys : List κ) (f : κ → α) :
    tabulate (key :: keys) f = (key, f key) :: tabulate keys f := rfl

@[simp] theorem keys_tabulate (ks : List κ) (f : κ → α) :
    keys (tabulate ks f) = ks := by
  simp [keys, tabulate, Function.comp_def]

theorem mem_tabulate {ks : List κ} {f : κ → α} {entry : κ × α} :
    entry ∈ tabulate ks f ↔ entry.1 ∈ ks ∧ entry.2 = f entry.1 := by
  obtain ⟨k, v⟩ := entry
  simp only [tabulate, List.mem_map, Prod.mk.injEq]
  constructor
  · rintro ⟨k', hk', rfl, rfl⟩
    exact ⟨hk', rfl⟩
  · rintro ⟨hk, rfl⟩
    exact ⟨k, hk, rfl, rfl⟩

theorem tabulate_congr {ks : List κ} {f g : κ → α} (h : ∀ k ∈ ks, f k = g k) :
    tabulate ks f = tabulate ks g := by
  apply List.map_congr_left
  intro k hk
  rw [h k hk]

/-- Lists with the same keys whose values are related in order are related entry
by entry. -/
theorem forall₂_of_values {β : Type} {R : α → β → Prop} {entries : Keyed κ α}
    {entries' : Keyed κ β} (hk : keys entries = keys entries')
    (hv : List.Forall₂ R (values entries) (values entries')) :
    List.Forall₂ (fun m n => m.1 = n.1 ∧ R m.2 n.2) entries entries' := by
  induction entries generalizing entries' with
  | nil =>
      obtain rfl : entries' = [] := by simpa [keys] using hk.symm
      exact .nil
  | cons m rest ih =>
      cases entries' with
      | nil => simp [keys] at hk
      | cons n rest' =>
          obtain ⟨hkey, hk⟩ := List.cons.inj hk
          obtain ⟨hvalue, hv⟩ := List.forall₂_cons.mp hv
          exact .cons ⟨hkey, hvalue⟩ (ih hk hv)

variable [DecidableEq κ]

theorem get?_rel {β : Type} {R : α → β → Prop} {entries : Keyed κ α} {entries' : Keyed κ β}
    (h : List.Forall₂ (fun m n => m.1 = n.1 ∧ R m.2 n.2) entries entries') (key : κ) :
    Option.Rel R (get? key entries) (get? key entries') := by
  induction h with
  | nil => exact .none
  | @cons m n rest rest' hmn _ ih =>
      obtain ⟨k, v⟩ := m
      obtain ⟨k', v'⟩ := n
      obtain ⟨rfl, hv⟩ := hmn
      rw [get?_cons, get?_cons]
      split
      · exact .some hv
      · exact ih

theorem get?_map {β : Type} (f : α → β) (entries : Keyed κ α) (key : κ) :
    get? key (entries.map fun entry => (entry.1, f entry.2)) = (get? key entries).map f := by
  induction entries with
  | nil => rfl
  | cons entry rest ih =>
      obtain ⟨k, v⟩ := entry
      rw [List.map_cons, get?_cons, get?_cons, ih]
      split <;> rfl

/-- Reading a key reads the function where it is listed. -/
theorem get?_tabulate (ks : List κ) (f : κ → α) (key : κ) :
    get? key (tabulate ks f) = if key ∈ ks then some (f key) else none := by
  induction ks with
  | nil => simp
  | cons k ks ih =>
      rw [tabulate_cons, get?_cons, ih]
      by_cases hk : k = key
      · subst hk
        simp
      · have hk' : key ≠ k := fun h => hk h.symm
        simp [hk, hk']

/-- Writing a key writes the function there, a new key being listed last. -/
theorem set_tabulate {ks : List κ} (h : ks.Nodup) (f : κ → α) (key : κ) (value : α) :
    set key value (tabulate ks f) =
      tabulate (if key ∈ ks then ks else ks ++ [key]) (Function.update f key value) := by
  induction ks with
  | nil => simp [tabulate]
  | cons k ks ih =>
      obtain ⟨hk, hks⟩ := List.nodup_cons.mp h
      rw [tabulate_cons, set_cons]
      by_cases he : k = key
      · subst he
        have hrest : tabulate ks (Function.update f k value) = tabulate ks f := by
          apply tabulate_congr
          intro l hl
          have hne : l ≠ k := by
            rintro rfl
            exact hk hl
          exact Function.update_of_ne hne _ _
        simp [tabulate_cons, hrest]
      · have he' : key ≠ k := fun h => he h.symm
        rw [if_neg he, ih hks]
        by_cases hm : key ∈ ks <;> simp [hm, he', he, tabulate_cons]

theorem nodup_keys_set {entries : Keyed κ α} (h : (keys entries).Nodup) (key : κ) (value : α) :
    (keys (set key value entries)).Nodup := by
  rw [keys_set]
  split
  · exact h
  · next hkey => simpa using List.Nodup.concat hkey h

/-- An entry is an old one or the one that was written. -/
theorem mem_or_eq_of_mem_set {entries : Keyed κ α} {key : κ} {value : α} {entry : κ × α}
    (h : entry ∈ set key value entries) : entry ∈ entries ∨ entry = (key, value) := by
  induction entries with
  | nil => simpa using h
  | cons first rest ih =>
      obtain ⟨k, v⟩ := first
      rw [set_cons] at h
      split at h
      · next hk =>
        subst hk
        rcases List.mem_cons.mp h with h | h
        · exact Or.inr h
        · exact Or.inl (List.mem_cons_of_mem _ h)
      · rcases List.mem_cons.mp h with h | h
        · exact Or.inl (h ▸ List.mem_cons_self)
        · exact (ih h).imp_left (List.mem_cons_of_mem _)

theorem mem_of_get?_eq_some {entries : Keyed κ α} {key : κ} {value : α}
    (h : get? key entries = some value) : (key, value) ∈ entries := by
  induction entries with
  | nil => simp at h
  | cons entry rest ih =>
      obtain ⟨k, v⟩ := entry
      rw [get?_cons] at h
      split at h
      · next hk =>
        obtain rfl := Option.some.inj h
        subst hk
        exact List.mem_cons_self
      · exact List.mem_cons_of_mem _ (ih h)

/-- Writing what a key reads as already changes nothing. -/
theorem set_eq_self {entries : Keyed κ α} {key : κ} {value : α}
    (h : get? key entries = some value) : set key value entries = entries := by
  induction entries with
  | nil => simp at h
  | cons entry rest ih =>
      obtain ⟨k, v⟩ := entry
      rw [get?_cons] at h
      rw [set_cons]
      split at h
      · next hk =>
        obtain rfl := Option.some.inj h
        rw [if_pos hk]
      · next hk => rw [if_neg hk, ih h]

/-- With no key twice, every entry is what its key reads as. -/
theorem get?_eq_some_iff {entries : Keyed κ α} (h : (keys entries).Nodup) {key : κ} {value : α} :
    get? key entries = some value ↔ (key, value) ∈ entries := by
  refine ⟨mem_of_get?_eq_some, fun hm => ?_⟩
  induction entries with
  | nil => simp at hm
  | cons entry rest ih =>
      obtain ⟨k, v⟩ := entry
      obtain ⟨hk, hrest⟩ := List.nodup_cons.mp h
      rw [get?_cons]
      rcases List.mem_cons.mp hm with heq | hm
      · obtain ⟨rfl, rfl⟩ := Prod.mk.inj heq
        simp
      · have hne : k ≠ key := by
          rintro rfl
          have hkeys : k ∈ keys rest := List.mem_map_of_mem hm
          exact hk hkeys
        rw [if_neg hne, ih hrest hm]

/-- With no key twice, just one entry has the key of an entry. -/
theorem filter_eq_singleton {entries : Keyed κ α} (h : (keys entries).Nodup) {entry : κ × α}
    (he : entry ∈ entries) : entries.filter (fun e => e.1 = entry.1) = [entry] := by
  induction entries with
  | nil => simp at he
  | cons first rest ih =>
      obtain ⟨hfirst, hrest⟩ := List.nodup_cons.mp h
      rcases List.mem_cons.mp he with rfl | he
      · have hnone : rest.filter (fun e => e.1 = entry.1) = [] := by
          rw [List.filter_eq_nil_iff]
          intro e hmem heq
          exact hfirst (List.mem_map.mpr ⟨e, hmem, of_decide_eq_true heq⟩)
        simp [hnone]
      · have hne : first.1 ≠ entry.1 := by
          intro heq
          exact hfirst (List.mem_map.mpr ⟨entry, he, heq.symm⟩)
        simp [hne, ih hrest he]

/-- With no key twice, the order of the entries does not matter to a reader. -/
theorem get?_eq_of_perm {entries entries' : Keyed κ α} (hp : entries.Perm entries')
    (h : (keys entries).Nodup) (key : κ) : get? key entries = get? key entries' := by
  have h' : (keys entries').Nodup := (hp.map Prod.fst).nodup_iff.mp h
  ext value
  rw [get?_eq_some_iff h, get?_eq_some_iff h', hp.mem_iff]

theorem set_of_not_mem {entries : Keyed κ α} {key : κ} (h : key ∉ keys entries) (value : α) :
    set key value entries = entries ++ [(key, value)] := by
  induction entries with
  | nil => rfl
  | cons entry rest ih =>
      obtain ⟨k, v⟩ := entry
      have hk : k ≠ key := (List.ne_of_not_mem_cons h).symm
      rw [set_cons, if_neg hk, ih (List.not_mem_of_not_mem_cons h), List.cons_append]

/-- Entries written one after another stand in the order in which they were
written. -/
theorem foldl_set {entries more : Keyed κ α} (h : (keys (entries ++ more)).Nodup) :
    more.foldl (fun acc entry => set entry.1 entry.2 acc) entries = entries ++ more := by
  induction more generalizing entries with
  | nil => simp
  | cons entry more ih =>
      have hnew : entry.1 ∉ keys entries := by
        rw [keys, List.map_append, List.nodup_append] at h
        exact fun hm => h.2.2 _ hm _ (List.mem_map_of_mem List.mem_cons_self) rfl
      have hentries : entries ++ entry :: more = entries ++ [entry] ++ more := by simp
      rw [hentries] at h ⊢
      rw [List.foldl_cons, set_of_not_mem hnew, ih h]

end Keyed

end JsonRecords
