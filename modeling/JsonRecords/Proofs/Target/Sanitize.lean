import JsonRecords.Proofs.Target.Legal
import Mathlib.Computability.Language

/-!
# The identifier closest to a name

Identifiers are the words of a regular language: a letter or an underscore, and then any
number of letters, digits and underscores (`isIdentifier_iff_mem_pattern`). Sanitizing
maps every name into that language and leaves alone what lies in it. It does so character
by character (`toList_sanitize`), apart from the underscore that it puts in front of some
names.
-/

namespace JsonRecords

namespace Identifier

open scoped Computability

/-- An ASCII letter or an underscore. -/
def Letter (c : Char) : Prop :=
  c.isAlpha = true ∨ c = '_'

/-- An ASCII letter, a digit or an underscore. -/
def WordChar (c : Char) : Prop :=
  c.isAlphanum = true ∨ c = '_'

instance (c : Char) : Decidable (WordChar c) :=
  inferInstanceAs (Decidable (_ ∨ _))

/-- The words of a single character of some kind. -/
def single (p : Char → Prop) : Language Char :=
  {word | ∃ c, p c ∧ word = [c]}

/-- The language of identifiers. -/
def pattern : Language Char :=
  single Letter * (single WordChar)∗

theorem isStart_iff {c : Char} : isStart c = true ↔ Letter c := by
  have halpha : c.isAlpha = (c.isUpper || c.isLower) := rfl
  have hupper : c.isUpper = true ↔ 'A' ≤ c ∧ c ≤ 'Z' := decide_eq_true_iff
  have hlower : c.isLower = true ↔ 'a' ≤ c ∧ c ≤ 'z' :=
    (Bool.and_eq_true _ _).to_iff.trans (and_congr decide_eq_true_iff decide_eq_true_iff)
  simp [isStart, Letter, halpha, hupper, hlower]

theorem isPart_iff {c : Char} : isPart c = true ↔ WordChar c := by
  have hdigit : isDigit c = c.isDigit := rfl
  rw [isPart, Bool.or_eq_true, isStart_iff, hdigit, Letter, WordChar, Char.isAlphanum,
    Bool.or_eq_true, or_right_comm]

theorem mem_kstar_single_iff {p : Char → Prop} {word : List Char} :
    word ∈ (single p)∗ ↔ ∀ c ∈ word, p c := by
  rw [Language.mem_kstar]
  constructor
  · rintro ⟨parts, rfl, hparts⟩ c hc
    obtain ⟨part, hpart, hc⟩ := List.mem_flatten.mp hc
    obtain ⟨d, hd, rfl⟩ := hparts part hpart
    exact List.mem_singleton.mp hc ▸ hd
  · intro h
    refine ⟨word.map fun c => [c], ?_, List.forall_mem_map.mpr fun c hc => ⟨c, h c hc, rfl⟩⟩
    rw [← List.flatMap_def, List.flatMap_singleton']

theorem spells_iff_mem_pattern {word : List Char} : spells word = true ↔ word ∈ pattern := by
  rw [pattern, Language.mem_mul]
  constructor
  · intro h
    cases word with
    | nil => cases h
    | cons c cs =>
        rw [spells, Bool.and_eq_true, List.all_eq_true] at h
        exact ⟨[c], ⟨c, isStart_iff.mp h.1, rfl⟩, cs,
          mem_kstar_single_iff.mpr fun d hd => isPart_iff.mp (h.2 d hd), rfl⟩
  · rintro ⟨_, ⟨c, hc, rfl⟩, cs, hcs, rfl⟩
    have hall : cs.all isPart = true :=
      List.all_eq_true.mpr fun d hd => isPart_iff.mpr (mem_kstar_single_iff.mp hcs d hd)
    rw [List.singleton_append, spells, isStart_iff.mpr hc, hall]
    rfl

theorem clean_eq (c : Char) : clean c = if WordChar c then c else '_' := by
  rw [clean]
  exact if_congr isPart_iff rfl rfl

end Identifier

open Identifier

theorem isIdentifier_iff_mem_pattern (name : String) :
    isIdentifier name = true ↔ name.toList ∈ pattern :=
  spells_iff_mem_pattern

/-- Every character of a name is kept at its place if it is a word character, and becomes an
underscore otherwise; one more underscore comes before a digit at the front, and before
nothing. -/
theorem toList_sanitize (name : String) :
    (sanitize name).toList =
      (if name = "" ∨ name.toList.head?.any Char.isDigit = true then ['_'] else []) ++
        name.toList.map fun c => if WordChar c then c else '_' := by
  rw [sanitize_eq, String.toList_ofList]
  simp only [← clean_eq, ← String.toList_eq_nil_iff]
  cases name.toList with
  | nil => rfl
  | cons c cs =>
      have hdigit : isDigit c = c.isDigit := rfl
      have hunderscore : clean '_' = '_' := rfl
      rw [guardFront, hdigit]
      by_cases h : c.isDigit = true <;> simp [h, hunderscore]

/-- No word of Python or Rust is what sanitizing makes of a name that is no identifier. -/
theorem sanitize_not_mem_keywords {name : String} (h : isIdentifier name = false)
    (target : Target) : sanitize name ∉ target.keywords := fun hmem =>
  target.underscore_not_mem_of_mem_keywords _ hmem (underscore_mem_sanitize h)

/-- Sanitizing is a retraction onto identifiers. -/
theorem sanitize_retracts (name : String) :
    (isIdentifier name = true ↔ name.toList ∈ pattern) ∧
    isIdentifier (sanitize name) = true ∧
    (sanitize name = name ↔ isIdentifier name = true) ∧
    sanitize (sanitize name) = sanitize name ∧
    (sanitize name).toList =
      (if name = "" ∨ name.toList.head?.any Char.isDigit = true then ['_'] else []) ++
        name.toList.map (fun c => if WordChar c then c else '_') ∧
    (isIdentifier name = false →
      sanitize name ∉ Python.keywords ∧ sanitize name ∉ Rust.keywords) := by
  refine ⟨isIdentifier_iff_mem_pattern name, isIdentifier_sanitize name, ?_,
    sanitize_of_isIdentifier (isIdentifier_sanitize name), toList_sanitize name, fun h => ?_⟩
  · constructor
    · intro h
      exact h ▸ isIdentifier_sanitize name
    · exact sanitize_of_isIdentifier
  · exact ⟨sanitize_not_mem_keywords h .python, sanitize_not_mem_keywords h .rust⟩

end JsonRecords
