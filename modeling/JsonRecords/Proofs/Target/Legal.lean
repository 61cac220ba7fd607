import JsonRecords.Proofs.Target.Apart

/-!
# Which declared names are legal

An identifier is no legal name if its language keeps it as a keyword. What sanitizing
makes of a name that is no identifier holds an underscore, and so does everything with
one put before or after it and everything with a suffix, while no keyword does
(`underscore_mem_sanitize`, `Scope.Variant.not_mem`). So all names that a text declares
are legal in Python (`Python.legal_declared`). In Rust they are too, but for the lone
underscore, which that language also refuses. `Rust.legal_or_underscore_declared` says
where one is declared: for a record of that name, and for the first field of a record
whose name is empty or a single character that no identifier has.
-/

namespace JsonRecords

namespace Identifier

/-- Whether nothing of a name is left in its identifier but one underscore: the name is
empty, or a single character that no identifier has. -/
def isLone : List Char → Bool
  | [] => true
  | [c] => !isPart c
  | _ => false

theorem exists_isGap_of_not_spells {cs : List Char} (h : spells cs = false) :
    ∃ c ∈ guardFront cs, isGap c = true := by
  cases cs with
  | nil => exact ⟨'_', List.mem_cons_self, rfl⟩
  | cons c cs =>
      rw [guardFront]
      by_cases hdigit : isDigit c = true
      · rw [if_pos hdigit]
        exact ⟨'_', List.mem_cons_self, rfl⟩
      · have hc : isPart c = isStart c := by simp [isPart, hdigit]
        have hpart : ∃ d ∈ c :: cs, isPart d = false := by
          simpa only [spells, ← hc, List.all_cons, Bool.not_eq_true, ← List.all_cons,
            List.all_eq_false] using h
        obtain ⟨d, hd, hpart⟩ := hpart
        rw [if_neg hdigit]
        exact ⟨d, hd, by simp [isGap, hpart]⟩

theorem map_clean_guardFront_eq_iff {cs : List Char} (h : spells cs = false) :
    (guardFront cs).map clean = ['_'] ↔ isLone cs = true := by
  match cs with
  | [] => simp [guardFront, isLone, clean_eq_underscore_iff, isGap]
  | [c] =>
      by_cases hdigit : isDigit c = true
      · simp [guardFront, isLone, isPart, hdigit]
      · have hne : c ≠ '_' := by
          rintro rfl
          exact absurd h (by decide)
        simp [guardFront, isLone, hdigit, clean_eq_underscore_iff, isGap, hne]
  | c :: d :: cs =>
      rw [guardFront]
      split <;> simp [isLone]

end Identifier

open Identifier Source

theorem underscore_mem_sanitize {name : String} (h : isIdentifier name = false) :
    '_' ∈ (sanitize name).toList := by
  obtain ⟨c, hc, hgap⟩ := exists_isGap_of_not_spells h
  rw [sanitize_eq, String.toList_ofList]
  exact List.mem_map.mpr ⟨c, hc, clean_eq_underscore_iff.mpr hgap⟩

theorem sanitize_eq_underscore_iff {name : String} (h : isIdentifier name = false) :
    sanitize name = "_" ↔ isLone name.toList = true := by
  rw [← map_clean_guardFront_eq_iff h, sanitize_eq, ← String.toList_inj, String.toList_ofList]
  rfl

/-- No keyword of any target holds an underscore. -/
theorem Target.underscore_not_mem_of_mem_keywords (target : Target) :
    ∀ k ∈ target.keywords, '_' ∉ k.toList := by
  cases target <;> decide

namespace Scope

/-- Words that hold no underscore are no suffixed forms of anything. -/
theorem Variant.not_mem {words : List String} (hwords : ∀ w ∈ words, '_' ∉ w.toList)
    {ident answer : String} (h : Variant ident answer) (hident : ident ∉ words) :
    answer ∉ words := by
  rcases h with rfl | ⟨n, rfl⟩
  · exact hident
  · intro hmem
    refine hwords _ hmem ?_
    simp [toList_suffixed]

theorem suffixed_ne_underscore {ident : String} (h : isIdentifier ident = true) (n : Nat) :
    suffixed ident n ≠ "_" := by
  intro heq
  have hne := toList_ne_nil_of_isIdentifier h
  have hlist : ident.toList ++ '_' :: (toString n).toList = ['_'] := by
    rw [← toList_suffixed, heq]
    rfl
  cases hs : ident.toList with
  | nil => exact hne hs
  | cons c cs => simp [hs] at hlist

end Scope

namespace Python

/-- Whether a name may be declared. -/
def Legal (ident : String) : Prop :=
  isIdentifier ident = true ∧ ident ∉ keywords

theorem legal_identifier (name : String) : Legal (identifier name) := by
  refine ⟨isIdentifier_identifier name, fun hmem => ?_⟩
  have hnone := Target.underscore_not_mem_of_mem_keywords .python _ hmem
  rcases identifier_cases name with ⟨_, heq⟩ | ⟨hkeyword, _, heq⟩ | ⟨_, hident, heq⟩
  · simp [heq] at hnone
  · exact hkeyword (heq ▸ hmem)
  · exact hnone (heq ▸ underscore_mem_sanitize hident)

theorem Legal.variant {ident answer : String} (h : Legal ident) (ha : Scope.Variant ident answer) :
    Legal answer :=
  ⟨ha.isIdentifier h.1, ha.not_mem (Target.underscore_not_mem_of_mem_keywords .python) h.2⟩

theorem labels_declaredFields (scope : Scope) (fields : List FieldDecl) :
    (declaredFields scope fields).map FieldText.label =
      scope.claimAll (fields.map fun f => identifier f.name) :=
  Scope.map_zipWith_claimAll (fun _ _ => rfl) scope fields

theorem legal_of_mem_labels {r : RecordDecl} {label : String}
    (h : label ∈ (declared r).fields.map FieldText.label) : Legal label := by
  obtain ⟨f, hf, rfl⟩ := List.mem_map.mp h
  obtain ⟨g, _, label, hlabel, rfl⟩ := Scope.exists_of_mem_zipWith_claimAll hf
  exact (legal_identifier g.name).variant hlabel

/-- The names that a text declares are legal, and within a record no two are the same. A
field is declared under its own identifier unless a field before it is. -/
theorem legal_declared (rs : List RecordDecl) :
    render rs = unlines (headerLines ++ (rs.map declared).flatMap printRecord) ∧
    ((∀ r ∈ rs, ∀ f ∈ r.fields, '\n' ∉ f.typeExpr.toList) →
      read (render rs) = some (rs.map declared)) ∧
    ∀ r ∈ rs,
      let labels := (declared r).fields.map FieldText.label
      (∀ ident ∈ (declared r).identifier :: labels, Legal ident) ∧
      labels.Nodup ∧
      labels.length = r.fields.length ∧
      ∀ (i : Nat) (f : FieldDecl), r.fields[i]? = some f → identifier f.name ∉ labels.take i →
        labels[i]? = some (identifier f.name) := by
  refine ⟨render_eq_unlines rs, read_render, fun r _ => ?_⟩
  intro labels
  have hlabels : labels = Scope.empty.claimAll (r.fields.map fun f => identifier f.name) :=
    labels_declaredFields .empty r.fields
  refine ⟨?_, ?_, ?_, ?_⟩
  · exact List.forall_mem_cons.mpr ⟨legal_identifier r.name, fun _ => legal_of_mem_labels⟩
  · exact hlabels ▸ Scope.nodup_claimAll _ _
  · rw [hlabels, Scope.length_claimAll, List.length_map]
  · intro i f hf hfree
    rw [hlabels] at hfree ⊢
    refine Scope.getElem?_claimAll_of_free ?_ List.not_mem_nil hfree
    rw [List.getElem?_map, hf, Option.map_some]

end Python

namespace Rust

/-- Whether a name may be declared. -/
def Legal (ident : String) : Prop :=
  isIdentifier ident = true ∧ ident ∉ keywords ∧ ident ≠ "_"

theorem append_underscore_eq_iff {s : String} : s ++ "_" = "_" ↔ s = "" := by
  rw [← String.toList_inj, String.toList_append, List.append_left_eq_self, String.toList_eq_nil_iff]

theorem structName_not_mem_keywords (name : String) : structName name ∉ keywords := by
  intro hmem
  have hnone := Target.underscore_not_mem_of_mem_keywords .rust _ hmem
  rcases structName_cases name with ⟨_, hkeyword, heq⟩ | ⟨_, heq⟩
  · exact hkeyword (heq ▸ hmem)
  · simp [heq] at hnone

theorem fieldIdentifier_not_mem_keywords (name : String) :
    (fieldIdentifier name).1 ∉ keywords := by
  intro hmem
  have hnone := Target.underscore_not_mem_of_mem_keywords .rust _ hmem
  rcases fieldIdentifier_cases name with ⟨_, heq⟩ | ⟨hkeyword, _, _, heq⟩ | ⟨hident, heq⟩
  · simp [heq] at hnone
  · rw [heq] at hmem
    exact hkeyword hmem
  · rw [heq] at hnone
    exact hnone (underscore_mem_sanitize hident)

theorem structName_eq_underscore_iff {name : String} : structName name = "_" ↔ name = "_" := by
  rcases structName_cases name with ⟨_, _, heq⟩ | ⟨hname, heq⟩
  · rw [heq]
  · have hkept : ¬ (isIdentifier "_" = false ∨ "_" ∈ keywords) := by decide
    have hempty : sanitize name ≠ "" := by
      intro h
      exact absurd (isIdentifier_sanitize name) (by rw [h]; decide)
    rw [heq, append_underscore_eq_iff]
    refine ⟨fun h => absurd h hempty, ?_⟩
    rintro rfl
    exact absurd hname hkept

/-- A field asks for the lone underscore if nothing else is left of its name. -/
theorem fieldIdentifier_eq_underscore_iff {name : String} :
    (fieldIdentifier name).1 = "_" ↔ isLone name.toList = true := by
  have hkeywords : ∀ k ∈ "_" :: keywords, k ≠ "" ∧ isLone k.toList = false := by decide
  rcases fieldIdentifier_cases name with
    ⟨hname, heq⟩ | ⟨_, hunderscore, hident, heq⟩ | ⟨hident, heq⟩
  · obtain ⟨hempty, hlone⟩ := hkeywords name (List.mem_cons.mpr hname.symm)
    rw [heq, append_underscore_eq_iff, hlone]
    simp [hempty]
  · have hlone : isLone name.toList = false := by
      cases hs : name.toList with
      | nil => exact absurd hs (toList_ne_nil_of_isIdentifier hident)
      | cons c cs =>
          have hc : isPart c = true := isPart_of_isIdentifier hident c (by simp [hs])
          cases cs <;> simp [isLone, hc]
    simp [heq, hunderscore, hlone]
  · rw [heq]
    exact sanitize_eq_underscore_iff hident

theorem labels_declaredFields (scope : Scope) (fields : List FieldDecl) :
    (declaredFields scope fields).map FieldText.label =
      scope.claimAll (fields.map fun f => (fieldIdentifier f.name).1) :=
  Scope.map_zipWith_claimAll (fun _ _ => rfl) scope fields

theorem legal_or_underscore_of_mem_labels {r : RecordDecl} {label : String}
    (h : label ∈ (declared r).fields.map FieldText.label) : Legal label ∨ label = "_" := by
  obtain ⟨f, hf, rfl⟩ := List.mem_map.mp h
  obtain ⟨g, _, label, hlabel, rfl⟩ := Scope.exists_of_mem_zipWith_claimAll hf
  have hident := hlabel.isIdentifier (isIdentifier_fieldIdentifier g.name)
  have hkeyword := hlabel.not_mem (Target.underscore_not_mem_of_mem_keywords .rust)
    (fieldIdentifier_not_mem_keywords g.name)
  exact or_iff_not_imp_right.mpr fun hne => ⟨hident, hkeyword, hne⟩

/-- The lone underscore is the label of the first field that asks for it. -/
theorem getElem?_labels_eq_underscore_iff {fields : List FieldDecl} {i : Nat} :
    ((declaredFields .empty fields).map FieldText.label)[i]? = some "_" ↔
      fields.findIdx? (fun f => isLone f.name.toList) = some i := by
  have hsuffixed : ∀ base ∈ fields.map fun f => (fieldIdentifier f.name).1,
      ∀ n, Scope.suffixed base n ≠ "_" :=
    List.forall_mem_map.mpr fun f _ =>
      Scope.suffixed_ne_underscore (isIdentifier_fieldIdentifier f.name)
  have hasks : ∀ f : FieldDecl, ((fieldIdentifier f.name).1 == "_") = isLone f.name.toList := by
    intro f
    rw [Bool.eq_iff_iff, beq_iff_eq]
    exact fieldIdentifier_eq_underscore_iff
  have hused : "_" ∉ Scope.empty.used := List.not_mem_nil
  rw [labels_declaredFields, Scope.getElem?_claimAll_eq_some_iff hsuffixed hused, List.idxOf?,
    List.findIdx?_map]
  simp only [Function.comp_def, hasks]

/-- The names that a text declares are legal but for the lone underscore, and within a
record no two are the same. The record that is declared under a lone underscore has it as
its name; the field is the first of its record of whose name nothing else is left. -/
theorem legal_or_underscore_declared (rs : List RecordDecl) :
    render rs = unlines (headerLines ++ (rs.map declared).flatMap printRecord) ∧
    ((∀ r ∈ rs, ∀ f ∈ r.fields, '\n' ∉ f.typeExpr.toList) →
      read (render rs) = some (rs.map declared)) ∧
    ∀ r ∈ rs,
      let labels := (declared r).fields.map FieldText.label
      (∀ ident ∈ (declared r).identifier :: labels, Legal ident ∨ ident = "_") ∧
      labels.Nodup ∧
      ((declared r).identifier = "_" ↔ r.name = "_") ∧
      ∀ i : Nat, labels[i]? = some "_" ↔
        r.fields.findIdx? (fun f => isLone f.name.toList) = some i := by
  refine ⟨render_eq_unlines rs, read_render, fun r _ => ?_⟩
  intro labels
  have hlabels : labels = Scope.empty.claimAll (r.fields.map fun f => (fieldIdentifier f.name).1) :=
    labels_declaredFields .empty r.fields
  refine ⟨?_, ?_, structName_eq_underscore_iff, fun _ => getElem?_labels_eq_underscore_iff⟩
  · refine List.forall_mem_cons.mpr ⟨?_, fun _ => legal_or_underscore_of_mem_labels⟩
    exact or_iff_not_imp_right.mpr fun hne =>
      ⟨isIdentifier_structName r.name, structName_not_mem_keywords r.name, hne⟩
  · exact hlabels ▸ Scope.nodup_claimAll _ _

/-- A record and a field that are declared under a lone underscore. -/
theorem not_legal_underscores :
    let r : RecordDecl := ⟨"_", [⟨"", "f64"⟩]⟩
    read (render [r]) = some [⟨"_", [⟨"_", some "", "f64"⟩]⟩] ∧ ¬ Legal "_" := by
  intro r
  refine ⟨?_, fun h => h.2.2 rfl⟩
  rw [read_render (by decide)]
  decide

end Rust

end JsonRecords
