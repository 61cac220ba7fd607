import JsonRecords.Proofs.Target.Scope
import Mathlib.Order.Bounds.Basic

/-!
# Which suffix an identifier gets

A scope finds a suffix in one pass over the identifiers in use. What it finds is the
least suffix from two on that is free (`isLeast_freeSuffix`), the one at which a search
through the suffixes in their order ends (`firstFree_eq`). Such a search never needs more
tries than there are identifiers in use, since the identifier itself is one of them and
has no suffix.
-/

namespace JsonRecords

namespace Scope

theorem two_le_following (ident : String) (used : List String) : 2 ≤ (following ident used).1 := by
  induction used with
  | nil => exact Nat.le_refl 2
  | cons u used ih =>
      rw [following]
      split
      · exact Nat.le_succ_of_le ih
      · exact ih

theorem isLeast_freeSuffix (s : Scope) (ident : String) :
    IsLeast {n | 2 ≤ n ∧ suffixed ident n ∉ s.used} (s.freeSuffix ident) := by
  obtain ⟨n, hn, hfree⟩ := exists_suffixed_not_mem s ident (following ident s.used).1
  cases hfind : (List.range' (following ident s.used).1 (s.used.length + 1)).find? fun n =>
      !s.used.contains (suffixed ident n) with
  | none => exact absurd (List.find?_eq_none.mp hfind n hn) (by simpa using hfree)
  | some m =>
      have hm : s.freeSuffix ident = m := by rw [freeSuffix, hfind, Option.getD_some]
      obtain ⟨_, hrange, hbefore⟩ := List.find?_range'_eq_some.mp hfind
      have hstart := (List.mem_range'_1.mp hrange).1
      refine ⟨⟨?_, suffixed_freeSuffix_not_mem s ident⟩, ?_⟩
      · exact hm ▸ Nat.le_trans (two_le_following ident s.used) hstart
      -- a lesser suffix is taken, whether it comes before the start of the search or after
      · rintro k ⟨h2, hk⟩
        by_contra! hlt
        rw [hm] at hlt
        by_cases h : k < (following ident s.used).1
        · exact hk (mem_of_lt_following h2 h)
        · exact hk (by simpa using hbefore k (Nat.not_lt.mp h) hlt)

theorem suffixed_ne_self (ident : String) (n : Nat) : suffixed ident n ≠ ident := by
  intro h
  have hlength := congrArg String.length h
  simp only [suffixed, String.length_append] at hlength
  have hmark : "_".length = 1 := rfl
  omega

/-- The suffix is bounded by how many identifiers are in use, one of which has none. -/
theorem freeSuffix_le_length {s : Scope} {ident : String} (h : ident ∈ s.used) :
    s.freeSuffix ident ≤ s.used.length + 1 := by
  have hleast := isLeast_freeSuffix s ident
  have htaken : ∀ n ∈ List.range' 2 (s.freeSuffix ident - 2),
      suffixed ident n ∈ s.used.erase ident := by
    intro n hn
    rw [List.mem_range'_1] at hn
    rw [List.mem_erase_of_ne (suffixed_ne_self ident n)]
    by_contra hfree
    have hle := hleast.2 ⟨hn.1, hfree⟩
    omega
  have hcount := le_length_of_suffixed_mem htaken
  rw [List.length_erase_of_mem h] at hcount
  have hpos := List.length_pos_of_mem h
  omega

/-- A search through the suffixes from `n` on that is given up after so many tries. -/
def firstFree (used : List String) (ident : String) : (tries : Nat) → (n : Nat) → Option String
  | 0, _ => none
  | tries + 1, n =>
    if suffixed ident n ∈ used then firstFree used ident tries (n + 1)
    else some (suffixed ident n)

/-- The search finds the least suffix that is free, with one try for each suffix up to
it, and nothing with fewer. -/
theorem firstFree_eq {used : List String} {ident : String} {start n : Nat}
    (h : IsLeast {n | start ≤ n ∧ suffixed ident n ∉ used} n) (tries : Nat) :
    firstFree used ident tries start =
      if n < start + tries then some (suffixed ident n) else none := by
  induction tries generalizing start with
  | zero => exact (if_neg (Nat.not_lt.mpr h.1.1)).symm
  | succ tries ih =>
      obtain ⟨⟨hstart, hfree⟩, hleast⟩ := h
      rw [firstFree]
      by_cases hmem : suffixed ident start ∈ used
      · have hlt : start < n := Nat.lt_of_le_of_ne hstart (by rintro rfl; exact hfree hmem)
        have hnext : IsLeast {n | start + 1 ≤ n ∧ suffixed ident n ∉ used} n :=
          ⟨⟨hlt, hfree⟩, fun k hk => hleast ⟨Nat.le_of_succ_le hk.1, hk.2⟩⟩
        rw [if_pos hmem, ih hnext, Nat.succ_add_eq_add_succ]
      · obtain rfl : n = start := Nat.le_antisymm (hleast ⟨Nat.le_refl _, hmem⟩) hstart
        rw [if_neg hmem, if_pos (Nat.lt_add_of_pos_right (Nat.succ_pos tries))]

/-- No identifier is handed out twice. One that was not handed out before is handed out as
it is, and any other with the least suffix, from two on, for which that is so. A search
for it ends after no more tries than identifiers were handed out before. -/
theorem claimAll_answers (idents : List String) :
    (empty.claimAll idents).Nodup ∧
    ∀ i ident, idents[i]? = some ident →
      let before := (empty.claimAll idents).take i
      (ident ∉ before → (empty.claimAll idents)[i]? = some ident) ∧
      (ident ∈ before → ∃ n, IsLeast {n | 2 ≤ n ∧ suffixed ident n ∉ before} n ∧
        (empty.claimAll idents)[i]? = some (suffixed ident n) ∧
        n - 1 ≤ before.length ∧
        ∀ tries, firstFree before ident tries 2 =
          if n - 1 ≤ tries then some (suffixed ident n) else none) := by
  refine ⟨nodup_claimAll empty idents, fun i ident hi => ?_⟩
  intro before
  have hanswer := getElem?_claimAll (s := empty) hi
  have hused : empty.used = [] := rfl
  rw [hused, List.append_nil] at hanswer
  refine ⟨fun hfree => ?_, fun hmem => ?_⟩
  · exact getElem?_claimAll_of_free hi (List.not_mem_nil) hfree
  · have hleast := isLeast_freeSuffix ⟨before.reverse⟩ ident
    have hlength := freeSuffix_le_length (s := ⟨before.reverse⟩) (List.mem_reverse.mpr hmem)
    rw [answer, if_pos (by simpa using hmem)] at hanswer
    simp only [List.mem_reverse] at hleast
    rw [List.length_reverse] at hlength
    refine ⟨_, hleast, hanswer, Nat.sub_le_of_le_add hlength, fun tries => ?_⟩
    rw [firstFree_eq hleast]
    have h2 := hleast.1.1
    congr 1
    simp only [eq_iff_iff]
    omega

/-- An identifier asked for may look like one with a suffix. -/
example : empty.claimAll ["a_b", "a_b", "a_b_2", "a_b", "c"] =
    ["a_b", "a_b_2", "a_b_2_2", "a_b_3", "c"] := by decide

end Scope

end JsonRecords
