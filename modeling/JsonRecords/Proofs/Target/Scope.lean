import JsonRecords.Target.Scope
import Mathlib.Data.List.Nodup
import Mathlib.Data.List.Perm.Subperm

/-!
# No scope hands out an identifier twice

An answer is the identifier asked for or a suffixed form of it (`Variant`), and it was
not handed out before (`answer_not_mem_used`), since one of more suffixes than there are
used identifiers is free. So the answers to a list of claims are distinct
(`nodup_claimAll`), and an identifier that nothing was handed out for yet is kept
(`getElem?_claimAll_of_free`).
-/

namespace JsonRecords

namespace Scope

theorem suffixed_injective (ident : String) : Function.Injective (suffixed ident) := by
  intro m n h
  have hdigits : Nat.toDigits 10 m = Nat.toDigits 10 n := by
    have hlist := congrArg String.toList h
    simpa only [suffixed, String.toList_append, List.append_cancel_left_eq,
      Nat.toString_eq_ofList_toDigits, String.toList_ofList] using hlist
  have hvalue := congrArg (Nat.ofDigitChars 10 · 0) hdigits
  simpa only [Nat.ofDigitChars_toDigits (by decide : 1 < 10) (Nat.le_refl 10)] using hvalue

theorem toList_suffixed (ident : String) (n : Nat) :
    (suffixed ident n).toList = ident.toList ++ '_' :: (toString n).toList := by
  rw [suffixed, String.toList_append, String.toList_append, List.append_assoc]
  rfl

/-! ## Answers -/

/-- There are at least as many used identifiers as suffixes in a row that are taken. -/
theorem le_length_of_suffixed_mem {used : List String} {ident : String} {start k : Nat}
    (h : ∀ n ∈ List.range' start k, suffixed ident n ∈ used) : k ≤ used.length := by
  have hnodup : ((List.range' start k).map (suffixed ident)).Nodup :=
    (List.nodup_range' 1).map (suffixed_injective ident)
  have hsubset : (List.range' start k).map (suffixed ident) ⊆ used := List.forall_mem_map.mpr h
  have hlength := (hnodup.subperm hsubset).length_le
  rwa [List.length_map, List.length_range'] at hlength

/-- One of more suffixes in a row than there are used identifiers is free. -/
theorem exists_suffixed_not_mem (s : Scope) (ident : String) (start : Nat) :
    ∃ n ∈ List.range' start (s.used.length + 1), suffixed ident n ∉ s.used := by
  by_contra! h
  exact absurd (le_length_of_suffixed_mem h) (Nat.not_succ_le_self _)

theorem suffixed_freeSuffix_not_mem (s : Scope) (ident : String) :
    suffixed ident (s.freeSuffix ident) ∉ s.used := by
  obtain ⟨n, hn, hfree⟩ := exists_suffixed_not_mem s ident (following ident s.used).1
  rw [freeSuffix]
  cases hfind : (List.range' (following ident s.used).1 (s.used.length + 1)).find? fun n =>
      !s.used.contains (suffixed ident n) with
  | none => exact absurd (List.find?_eq_none.mp hfind n hn) (by simpa using hfree)
  | some m => simpa using List.find?_some hfind

theorem answer_of_not_mem {s : Scope} {ident : String} (h : ident ∉ s.used) :
    s.answer ident = ident :=
  if_neg (by simpa using h)

theorem answer_not_mem_used (s : Scope) (ident : String) : s.answer ident ∉ s.used := by
  rw [answer]
  split
  · exact suffixed_freeSuffix_not_mem s ident
  · next h => simpa using h

/-- An identifier, or one with a suffix. -/
def Variant (ident answer : String) : Prop :=
  answer = ident ∨ ∃ n, answer = suffixed ident n

theorem variant_answer (s : Scope) (ident : String) : Variant ident (s.answer ident) := by
  rw [answer]
  split
  · exact .inr ⟨_, rfl⟩
  · exact .inl rfl

/-! ## Claims in a row -/

section Declared

variable {α β : Type} {base : α → String} {f : String → α → β}

/-- What is declared under the answers to claims, place by place. -/
theorem forall₂_zipWith_claimAll {R : α → β → Prop}
    (h : ∀ a answer, Variant (base a) answer → R a (f answer a)) (s : Scope) (as : List α) :
    List.Forall₂ R as (List.zipWith f (s.claimAll (as.map base)) as) := by
  induction as generalizing s with
  | nil => exact .nil
  | cons a as ih => exact .cons (h a _ (variant_answer s (base a))) (ih _)

theorem exists_of_mem_zipWith_claimAll {s : Scope} {as : List α} {b : β}
    (h : b ∈ List.zipWith f (s.claimAll (as.map base)) as) :
    ∃ a ∈ as, ∃ answer, Variant (base a) answer ∧ f answer a = b := by
  induction as generalizing s with
  | nil => simp at h
  | cons a as ih =>
      rw [List.map_cons, claimAll_cons, List.zipWith_cons_cons, List.mem_cons] at h
      rcases h with rfl | h
      · exact ⟨a, List.mem_cons_self, _, variant_answer s (base a), rfl⟩
      · obtain ⟨a', ha', answer, hanswer⟩ := ih h
        exact ⟨a', List.mem_cons_of_mem a ha', answer, hanswer⟩

theorem map_zipWith_claimAll {g : β → String} (h : ∀ answer a, g (f answer a) = answer)
    (s : Scope) (as : List α) :
    (List.zipWith f (s.claimAll (as.map base)) as).map g = s.claimAll (as.map base) := by
  induction as generalizing s with
  | nil => rfl
  | cons a as ih =>
      rw [List.map_cons, claimAll_cons, List.zipWith_cons_cons, List.map_cons, h, ih]

end Declared

theorem not_mem_used_of_mem_claimAll {s : Scope} {idents : List String} {ident : String}
    (h : ident ∈ s.claimAll idents) : ident ∉ s.used := by
  induction idents generalizing s with
  | nil => simp at h
  | cons first idents ih =>
      rw [claimAll_cons, List.mem_cons] at h
      rcases h with rfl | h
      · exact answer_not_mem_used s first
      · exact fun hused => ih h (List.mem_cons_of_mem _ hused)

theorem nodup_claimAll (s : Scope) (idents : List String) : (s.claimAll idents).Nodup := by
  induction idents generalizing s with
  | nil => exact .nil
  | cons ident idents ih =>
      rw [claimAll_cons]
      exact List.nodup_cons.mpr
        ⟨fun h => not_mem_used_of_mem_claimAll h List.mem_cons_self, ih _⟩

/-- Each claim is answered by the scope that those before it have left. -/
theorem getElem?_claimAll {s : Scope} {idents : List String} {i : Nat} {ident : String}
    (hi : idents[i]? = some ident) : (s.claimAll idents)[i]? =
      some (answer ⟨((s.claimAll idents).take i).reverse ++ s.used⟩ ident) := by
  induction idents generalizing s i with
  | nil => simp at hi
  | cons first idents ih =>
      rw [claimAll_cons]
      cases i with
      | zero =>
          obtain rfl : first = ident := by simpa using hi
          rfl
      | succ i =>
          rw [List.getElem?_cons_succ] at hi ⊢
          rw [ih hi, List.take_succ_cons, List.reverse_cons, List.append_assoc]
          rfl

/-- What was not handed out before is handed out as it is asked for. -/
theorem getElem?_claimAll_of_free {s : Scope} {idents : List String} {i : Nat} {ident : String}
    (hi : idents[i]? = some ident) (hused : ident ∉ s.used)
    (hfree : ident ∉ (s.claimAll idents).take i) : (s.claimAll idents)[i]? = some ident := by
  rw [getElem?_claimAll hi, answer_of_not_mem]
  rw [List.mem_append, List.mem_reverse, not_or]
  exact ⟨hfree, hused⟩

/-- An identifier that is no suffixed form of any other is handed out where it is first
asked for, and nowhere else. -/
theorem getElem?_claimAll_eq_some_iff {s : Scope} {idents : List String} {ident : String}
    (hsuffixed : ∀ i ∈ idents, ∀ n, suffixed i n ≠ ident) (hused : ident ∉ s.used) {i : Nat} :
    (s.claimAll idents)[i]? = some ident ↔ idents.idxOf? ident = some i := by
  induction idents generalizing s i with
  | nil => simp
  | cons first idents ih =>
      obtain ⟨hfirst, hsuffixed⟩ := List.forall_mem_cons.mp hsuffixed
      rw [claimAll_cons, List.idxOf?_cons]
      by_cases h : first = ident
      · subst h
        -- from here on the identifier is used, so it is not handed out again
        have hrest : first ∉ (s.claim first).2.claimAll idents := by
          intro hmem
          refine not_mem_used_of_mem_claimAll hmem ?_
          simp [claim, answer_of_not_mem hused]
        cases i with
        | zero => simp [answer_of_not_mem hused]
        | succ i =>
            have hne : ((s.claim first).2.claimAll idents)[i]? ≠ some first :=
              fun h => hrest (List.mem_of_getElem? h)
            simp [hne]
      · have hanswer : s.answer first ≠ ident := by
          rcases variant_answer s first with heq | ⟨n, heq⟩
          · rwa [heq]
          · rw [heq]
            exact hfirst n
        have hused' : ident ∉ (s.claim first).2.used :=
          List.not_mem_cons_of_ne_of_not_mem hanswer.symm hused
        cases i with
        | zero => simp [hanswer, h]
        | succ i => simp [ih hsuffixed hused', h]

end Scope

end JsonRecords
