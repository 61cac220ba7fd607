import JsonRecords.Proofs.Target.Scope
import JsonRecords.Target

/-!
# Every declared name is an identifier

Whatever a name looks like, each target declares it under an identifier: sanitizing
gives one, keywords are lengthened to one, and the suffixes of a scope keep one.
-/

namespace JsonRecords

namespace Identifier

theorem isPart_clean (c : Char) : isPart (clean c) = true := by
  rw [clean]
  split
  · assumption
  · rfl

theorem spells_guardFront {cs : List Char} (h : ∀ c ∈ cs, isPart c = true) :
    spells (guardFront cs) = true := by
  cases cs with
  | nil => rfl
  | cons c cs =>
      obtain ⟨hc, hcs⟩ := List.forall_mem_cons.mp h
      have hall : cs.all isPart = true := List.all_eq_true.mpr hcs
      rw [guardFront]
      split
      · simp [spells, hc, hall, isStart]
      · next hd =>
        have hs : isStart c = true := by simpa [isPart, hd] using hc
        simp [spells, hs, hall]

end Identifier

open Identifier

theorem isPart_of_isIdentifier {s : String} (h : isIdentifier s = true) :
    ∀ c ∈ s.toList, isPart c = true := by
  rw [isIdentifier] at h
  cases hs : s.toList with
  | nil => simp
  | cons c cs =>
      rw [hs, spells, Bool.and_eq_true] at h
      exact List.forall_mem_cons.mpr ⟨by simp [isPart, h.1], List.all_eq_true.mp h.2⟩

theorem toList_ne_nil_of_isIdentifier {s : String} (h : isIdentifier s = true) :
    s.toList ≠ [] := by
  intro hs
  rw [isIdentifier, hs] at h
  exact absurd h (by decide)

theorem newline_not_mem_of_isIdentifier {s : String} (h : isIdentifier s = true) :
    '\n' ∉ s.toList :=
  fun hm => absurd (isPart_of_isIdentifier h _ hm) (by decide)

theorem isIdentifier_sanitize (name : String) : isIdentifier (sanitize name) = true := by
  rw [isIdentifier, sanitize, String.toList_ofList]
  exact spells_guardFront (List.forall_mem_map.mpr fun c _ => isPart_clean c)

theorem isIdentifier_append {s t : String} (hs : isIdentifier s = true)
    (ht : t.toList.all isPart = true) : isIdentifier (s ++ t) = true := by
  rw [isIdentifier] at hs ⊢
  rw [String.toList_append]
  cases h : s.toList with
  | nil => simp [h, spells] at hs
  | cons c cs =>
      rw [h, spells, Bool.and_eq_true] at hs
      rw [List.cons_append, spells, List.all_append, hs.1, hs.2, ht]
      rfl

theorem all_isPart_toString (n : Nat) : (toString n).toList.all isPart = true := by
  refine List.all_eq_true.mpr fun c hc => ?_
  have hdigits : (toString n).toList = Nat.toDigits 10 n := Nat.toList_repr
  rw [hdigits] at hc
  have hdigit : c.isDigit = true := Nat.isDigit_of_mem_toDigits (by decide) (Nat.le_refl 10) hc
  have hd : isDigit c = true := hdigit
  rw [isPart, hd, Bool.or_true]

namespace Scope

theorem isIdentifier_suffixed {ident : String} (h : isIdentifier ident = true) (n : Nat) :
    isIdentifier (suffixed ident n) = true :=
  isIdentifier_append (isIdentifier_append h (by decide)) (all_isPart_toString n)

theorem Variant.isIdentifier {ident answer : String} (h : Variant ident answer)
    (hident : isIdentifier ident = true) : isIdentifier answer = true := by
  rcases h with rfl | ⟨n, rfl⟩
  · exact hident
  · exact isIdentifier_suffixed hident n

end Scope

/-! ## The identifiers of each target -/

theorem Python.identifier_cases (name : String) :
    (name ∈ keywords ∧ identifier name = "_" ++ name) ∨
    (name ∉ keywords ∧ isIdentifier name = true ∧ identifier name = name) ∨
    (name ∉ keywords ∧ isIdentifier name = false ∧ identifier name = sanitize name) := by
  rw [identifier, List.contains_eq_mem]
  by_cases hkeyword : name ∈ keywords
  · simp [hkeyword]
  · by_cases hident : isIdentifier name = true <;> simp [hkeyword, hident]

theorem Python.isIdentifier_identifier (name : String) :
    isIdentifier (Python.identifier name) = true := by
  have hkeywords : ∀ k ∈ Python.keywords, isIdentifier ("_" ++ k) = true := by decide
  rcases Python.identifier_cases name with ⟨hkeyword, heq⟩ | ⟨_, hident, heq⟩ | ⟨_, _, heq⟩
  · exact heq ▸ hkeywords name hkeyword
  · rwa [heq]
  · exact heq ▸ isIdentifier_sanitize name

theorem Rust.structName_cases (name : String) :
    (isIdentifier name = true ∧ name ∉ keywords ∧ structName name = name) ∨
    ((isIdentifier name = false ∨ name ∈ keywords) ∧ structName name = sanitize name ++ "_") := by
  rw [structName, List.contains_eq_mem]
  by_cases hkeyword : name ∈ keywords
  · simp [hkeyword]
  · by_cases hident : isIdentifier name = true <;> simp [hkeyword, hident]

theorem Rust.isIdentifier_structName (name : String) :
    isIdentifier (Rust.structName name) = true := by
  rcases Rust.structName_cases name with ⟨hident, _, heq⟩ | ⟨_, heq⟩
  · rwa [heq]
  · exact heq ▸ isIdentifier_append (isIdentifier_sanitize name) (by decide)

theorem Rust.fieldIdentifier_cases (name : String) :
    ((name ∈ keywords ∨ name = "_") ∧ fieldIdentifier name = (name ++ "_", true)) ∨
    (name ∉ keywords ∧ name ≠ "_" ∧ isIdentifier name = true ∧
      fieldIdentifier name = (name, false)) ∨
    (isIdentifier name = false ∧ fieldIdentifier name = (sanitize name, true)) := by
  rw [fieldIdentifier, List.contains_eq_mem]
  by_cases hkeyword : name ∈ keywords
  · simp [hkeyword]
  by_cases hunderscore : name = "_"
  · simp [hunderscore]
  · by_cases hident : isIdentifier name = true <;> simp [hkeyword, hunderscore, hident]

theorem Rust.isIdentifier_fieldIdentifier (name : String) :
    isIdentifier (Rust.fieldIdentifier name).1 = true := by
  have hkeywords : ∀ k ∈ "_" :: Rust.keywords, isIdentifier (k ++ "_") = true := by decide
  rcases Rust.fieldIdentifier_cases name with ⟨hname, heq⟩ | ⟨_, _, hident, heq⟩ | ⟨_, heq⟩
  · exact heq ▸ hkeywords name (List.mem_cons.mpr hname.symm)
  · rwa [heq]
  · exact heq ▸ isIdentifier_sanitize name

theorem TypeScript.isIdentifier_interfaceName (name : String) :
    isIdentifier (TypeScript.interfaceName name) = true := by
  rw [TypeScript.interfaceName]
  split
  · assumption
  · exact isIdentifier_sanitize name

end JsonRecords
