import JsonRecords.Record.Basic
import Mathlib.Data.List.Infix

/-!
# Names that can be taken apart

The name of a nested record is the root name followed by the names of the fields
on the way down, each with the separator in front. `chained` is this tail. Where
the separator has no border and occurs in no name, its first occurrence in a
chain is the one that was put there, so a chain has one reading only
(`chained_injective`).
-/

namespace JsonRecords

namespace Naming

/-- Nothing but the whole separator is both its beginning and its end. -/
def Unbordered (separator : List Char) : Prop :=
  ∀ border, border <+: separator → border <:+ separator → border = [] ∨ border = separator

/-- Names, each with the separator in front. -/
def chained (separator : List Char) (names : List (List Char)) : List Char :=
  names.flatMap fun name => separator ++ name

@[simp] theorem chained_nil (separator : List Char) : chained separator [] = [] := rfl

theorem chained_cons (separator name : List Char) (names : List (List Char)) :
    chained separator (name :: names) = separator ++ name ++ chained separator names := rfl

theorem chained_append (separator : List Char) (names more : List (List Char)) :
    chained separator (names ++ more) = chained separator names ++ chained separator more :=
  List.flatMap_append

theorem unbordered_singleton (c : Char) : Unbordered [c] := by
  intro border hprefix _
  rcases List.prefix_cons_iff.mp hprefix with rfl | ⟨rest, rfl, hrest⟩
  · exact .inl rfl
  · rw [List.prefix_nil.mp hrest]
    exact .inr rfl

section Separator

variable {separator : List Char}

/-- A separator that is met before another one ends lies wholly before it. -/
theorem infix_of_append_eq (hb : Unbordered separator) {before rest rest' : List Char}
    (hbefore : before ≠ [])
    (h : separator ++ rest = before ++ (separator ++ rest')) : separator <:+: before := by
  rcases List.append_eq_append_iff.mp h with ⟨more, rfl, _⟩ | ⟨overlap, hsep, hover⟩
  · exact (List.prefix_append separator more).isInfix
  · -- what the two occurrences share begins and ends the separator
    have hshort : overlap.length ≤ separator.length := by
      rw [hsep, List.length_append]
      omega
    have hprefix : overlap <+: separator :=
      List.prefix_of_prefix_length_le (hover ▸ List.prefix_append overlap rest)
        (List.prefix_append separator rest') hshort
    have hsuffix : overlap <:+ separator := ⟨before, hsep.symm⟩
    rcases hb overlap hprefix hsuffix with hnil | hall
    · rw [hnil, List.append_nil] at hsep
      exact hsep ▸ List.infix_rfl
    · have hlength := congrArg List.length hsep
      rw [List.length_append, hall] at hlength
      exact absurd (List.eq_nil_of_length_eq_zero (by omega)) hbefore

/-- Two texts without the separator that are each followed by it end in the same
place. -/
theorem eq_and_eq_of_append_eq (hb : Unbordered separator) {f g rest rest' : List Char}
    (hf : ¬ separator <:+: f) (hg : ¬ separator <:+: g)
    (h : f ++ (separator ++ rest) = g ++ (separator ++ rest')) : f = g ∧ rest = rest' := by
  have hfg : f = g := by
    rcases List.append_eq_append_iff.mp h with ⟨before, rfl, hsep⟩ | ⟨before, rfl, hsep⟩
    · by_contra hne
      have hbefore : before ≠ [] := by
        rintro rfl
        exact hne (List.append_nil f).symm
      exact hg ((infix_of_append_eq hb hbefore hsep).trans (List.suffix_append f before).isInfix)
    · by_contra hne
      have hbefore : before ≠ [] := by
        rintro rfl
        exact hne (List.append_nil g)
      exact hf ((infix_of_append_eq hb hbefore hsep).trans (List.suffix_append g before).isInfix)
  subst hfg
  exact ⟨rfl, List.append_cancel_left (List.append_cancel_left h)⟩

/-- A name without the separator, and chained names after it, are found again in
what they make up. -/
theorem cons_eq_cons_of_append_chained_eq (hb : Unbordered separator)
    {f g : List Char} {fs gs : List (List Char)} (hf : ¬ separator <:+: f)
    (hg : ¬ separator <:+: g) (hfs : ∀ name ∈ fs, ¬ separator <:+: name)
    (hgs : ∀ name ∈ gs, ¬ separator <:+: name)
    (h : f ++ chained separator fs = g ++ chained separator gs) : f :: fs = g :: gs := by
  induction fs generalizing f g gs with
  | nil =>
      cases gs with
      | nil => simpa using h
      | cons g' gs =>
          rw [chained_nil, List.append_nil, chained_cons] at h
          exact absurd ⟨g, g' ++ chained separator gs, by simp [h]⟩ hf
  | cons f' fs ih =>
      cases gs with
      | nil =>
          rw [chained_nil, List.append_nil, chained_cons] at h
          exact absurd ⟨f, f' ++ chained separator fs, by simp [← h]⟩ hg
      | cons g' gs =>
          rw [chained_cons, chained_cons, List.append_assoc, List.append_assoc] at h
          obtain ⟨rfl, hrest⟩ := eq_and_eq_of_append_eq hb hf hg h
          obtain ⟨hf', hfs⟩ := List.forall_mem_cons.mp hfs
          obtain ⟨hg', hgs⟩ := List.forall_mem_cons.mp hgs
          rw [ih hf' hg' hfs hgs hrest]

/-- Names without the separator can be read off their chain. -/
theorem chained_injective (hb : Unbordered separator) (hne : separator ≠ [])
    {names names' : List (List Char)} (hn : ∀ name ∈ names, ¬ separator <:+: name)
    (hn' : ∀ name ∈ names', ¬ separator <:+: name)
    (h : chained separator names = chained separator names') : names = names' := by
  cases names with
  | nil =>
      cases names' with
      | nil => rfl
      | cons g gs => simp [chained_cons, hne] at h
  | cons f fs =>
      cases names' with
      | nil => simp [chained_cons, hne] at h
      | cons g gs =>
          obtain ⟨hf, hfs⟩ := List.forall_mem_cons.mp hn
          obtain ⟨hg, hgs⟩ := List.forall_mem_cons.mp hn'
          rw [chained_cons, chained_cons, List.append_assoc, List.append_assoc] at h
          exact cons_eq_cons_of_append_chained_eq hb hf hg hfs hgs
            (List.append_cancel_left h)

end Separator

end Naming

end JsonRecords
