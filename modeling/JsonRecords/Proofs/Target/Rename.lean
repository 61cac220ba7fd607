import JsonRecords.Proofs.Target.Rust

/-!
# A field keeps its name in JSON

A field of a Rust struct goes by its label in JSON unless an attribute gives it another
name. A keyword, a name that is no identifier and one that another field has taken are
each declared under a label that is not the name, and no label comes to be a name by
accident (`rename_declaredField`). So the attribute is there exactly if it is needed, and
every field goes by the name it had in the samples (`key_declared`).
-/

namespace JsonRecords

open Source

/-- The name by which a field goes in JSON: the one it is given, or else its label. -/
def Source.FieldText.key (f : FieldText) : String :=
  f.rename.getD f.label

namespace Scope

theorem Variant.length_le {ident answer : String} (h : Variant ident answer) :
    ident.length ≤ answer.length := by
  rcases h with rfl | ⟨n, rfl⟩
  · exact Nat.le_refl _
  · simp [suffixed, Nat.add_assoc]

end Scope

namespace Rust

/-- A field is given its name exactly if that is not its identifier. -/
theorem rename_declaredField {f : FieldDecl} {ident : String}
    (h : Scope.Variant (fieldIdentifier f.name).1 ident) :
    (declaredField ident f).rename = if ident = f.name then none else some f.name := by
  rw [declaredField]
  rcases fieldIdentifier_cases f.name with ⟨_, heq⟩ | ⟨_, _, _, heq⟩ | ⟨hident, heq⟩
  · -- an underscore more makes the identifier longer than the name
    have hlength := h.length_le
    rw [heq, String.length_append] at hlength
    have hne : ident ≠ f.name := by
      rintro rfl
      exact absurd hlength (Nat.not_le.mpr (Nat.lt_succ_self _))
    simp [heq, hne]
  · simp [heq]
  · have hne : ident ≠ f.name := by
      rintro rfl
      have hlegal := h.isIdentifier (isIdentifier_fieldIdentifier f.name)
      exact absurd hlegal (by simp [hident])
    simp [heq, hne]

/-- A field has an attribute exactly if its label is not its name, what is quoted there
is its name, and so its key is its name. -/
theorem key_declared (rs : List RecordDecl) :
    render rs = unlines (headerLines ++ (rs.map declared).flatMap printRecord) ∧
    ((∀ r ∈ rs, ∀ f ∈ r.fields, '\n' ∉ f.typeExpr.toList) →
      read (render rs) = some (rs.map declared)) ∧
    ∀ r ∈ rs, List.Forall₂ (fun f t =>
        (t.rename.isSome = true ↔ t.label ≠ f.name) ∧
        (∀ name ∈ t.rename, ∀ levels,
          Json.decode levels (Utf8.ofString (Encode.quoted name)) = .ok (.string f.name)) ∧
        t.key = f.name)
      r.fields (declared r).fields := by
  refine ⟨render_eq_unlines rs, read_render, fun r _ => ?_⟩
  refine Scope.forall₂_zipWith_claimAll (fun f label hlabel => ?_) .empty r.fields
  have hrename := rename_declaredField hlabel
  have hkept : (declaredField label f).label = label := rfl
  rw [FieldText.key, hrename, hkept]
  by_cases h : label = f.name <;> simp [h, Json.decode_quoted]

end Rust

end JsonRecords
