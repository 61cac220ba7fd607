import JsonRecords.Proofs.Target.Source

/-!
# Which names share an identifier

Each target makes an identifier of a record name by itself, without regard to the
names of other records: it puts underscores before or after some names (`padded`) and
replaces every character that no identifier has by one (`identifier_eq`). So names
share an identifier exactly if, padded, they are the same place by place but for what
stands as an underscore (`identifier_eq_iff`), and the records of a text have
identifiers of their own exactly if no two of their names are `Alike`
(`nodup_identifiers_iff_pairwise`).
-/

namespace JsonRecords

namespace Identifier

/-- Whether a character stands as an underscore in an identifier. -/
def isGap (c : Char) : Bool :=
  c == '_' || !isPart c

theorem clean_of_isPart {c : Char} (h : isPart c = true) : clean c = c :=
  if_pos h

theorem clean_eq_underscore_iff {c : Char} : clean c = '_' ↔ isGap c = true := by
  by_cases h : isPart c = true <;> simp [clean, isGap, h]

theorem clean_of_ne_underscore {c : Char} (h : clean c ≠ '_') : clean c = c := by
  by_cases hc : isPart c = true
  · exact clean_of_isPart hc
  · exact absurd (if_neg hc) h

/-- Characters are cleaned to the same one if they are the same or gaps. -/
theorem clean_eq_clean_iff {c d : Char} :
    clean c = clean d ↔ c = d ∨ isGap c = true ∧ isGap d = true := by
  rw [← clean_eq_underscore_iff, ← clean_eq_underscore_iff]
  constructor
  · intro h
    by_cases hc : clean c = '_'
    · exact .inr ⟨hc, h ▸ hc⟩
    · have hd : clean d ≠ '_' := h ▸ hc
      rw [clean_of_ne_underscore hc, clean_of_ne_underscore hd] at h
      exact .inl h
  · rintro (rfl | ⟨hc, hd⟩)
    · rfl
    · rw [hc, hd]

theorem isDigit_clean (c : Char) : isDigit (clean c) = isDigit c := by
  by_cases h : isPart c = true
  · rw [clean_of_isPart h]
  · have hdigit : isDigit c = false := by simp_all [isPart]
    rw [clean, if_neg h, hdigit]
    rfl

theorem guardFront_map_clean (cs : List Char) :
    guardFront (cs.map clean) = (guardFront cs).map clean := by
  cases cs with
  | nil => rfl
  | cons c cs =>
      have hunderscore : clean '_' = '_' := rfl
      rw [List.map_cons, guardFront, guardFront, isDigit_clean]
      split <;> simp [hunderscore]

theorem isDigit_of_isStart {c : Char} (h : isStart c = true) : isDigit c = false := by
  simp only [isStart, Bool.or_eq_true, Bool.and_eq_true, decide_eq_true_eq, beq_iff_eq,
    Char.le_def, UInt32.le_iff_toNat_le] at h
  rw [← Bool.not_eq_true, isDigit, Bool.and_eq_true, decide_eq_true_eq, decide_eq_true_eq,
    Char.le_def, Char.le_def, UInt32.le_iff_toNat_le, UInt32.le_iff_toNat_le]
  rcases h with (h | h) | rfl
  · have hbounds : '9'.val.toNat < 'A'.val.toNat := by decide
    omega
  · have hbounds : '9'.val.toNat < 'a'.val.toNat := by decide
    omega
  · decide

end Identifier

open Identifier Source

theorem map_clean_of_isIdentifier {s : String} (h : isIdentifier s = true) :
    s.toList.map clean = s.toList :=
  (List.map_congr_left fun c hc => clean_of_isPart (isPart_of_isIdentifier h c hc)).trans
    (List.map_id _)

theorem guardFront_of_isIdentifier {s : String} (h : isIdentifier s = true) :
    guardFront s.toList = s.toList := by
  have hne := toList_ne_nil_of_isIdentifier h
  rw [isIdentifier] at h
  cases hs : s.toList with
  | nil => exact absurd hs hne
  | cons c cs =>
      rw [hs, spells, Bool.and_eq_true] at h
      rw [guardFront, isDigit_of_isStart h.1]
      rfl

theorem sanitize_eq (name : String) :
    sanitize name = String.ofList ((guardFront name.toList).map clean) := by
  rw [sanitize, guardFront_map_clean]

/-- Sanitizing leaves an identifier as it is. -/
theorem sanitize_of_isIdentifier {s : String} (h : isIdentifier s = true) : sanitize s = s := by
  rw [sanitize_eq, guardFront_of_isIdentifier h, map_clean_of_isIdentifier h, String.ofList_toList]

namespace Target

/-- The words that a target keeps for itself. -/
def keywords : Target → List String
  | python => Python.keywords
  | typeScript => []
  | rust => Rust.keywords

/-- A name with the underscores that a target puts before or after it. -/
def padded : Target → String → List Char
  | python, name =>
    if name ∈ Python.keywords then '_' :: name.toList else guardFront name.toList
  | typeScript, name => guardFront name.toList
  | rust, name =>
    if isIdentifier name = true ∧ name ∉ Rust.keywords then name.toList
    else guardFront name.toList ++ ['_']

/-- Names that are the same place by place, with the underscores that a target puts
around them, but for what stands as an underscore. -/
def Alike (target : Target) (name name' : String) : Prop :=
  List.Forall₂ (fun c d => c = d ∨ isGap c = true ∧ isGap d = true) (target.padded name)
    (target.padded name')

/-- An identifier is the padded name, cleaned. -/
theorem identifier_eq (target : Target) (name : String) :
    target.identifier name = String.ofList ((target.padded name).map clean) := by
  cases target with
  | python =>
      rw [identifier, padded]
      rcases Python.identifier_cases name with
        ⟨hkeyword, heq⟩ | ⟨hkeyword, hident, heq⟩ | ⟨hkeyword, _, heq⟩
      · have hident := Python.isIdentifier_identifier name
        have htext : '_' :: name.toList = ("_" ++ name).toList := by
          rw [String.toList_append]
          rfl
        rw [heq] at hident ⊢
        rw [if_pos hkeyword, htext, map_clean_of_isIdentifier hident, String.ofList_toList]
      · rw [heq, if_neg hkeyword, ← sanitize_eq, sanitize_of_isIdentifier hident]
      · rw [heq, if_neg hkeyword, sanitize_eq]
  | typeScript =>
      rw [identifier, padded, TypeScript.interfaceName]
      split
      · next h => rw [← sanitize_eq, sanitize_of_isIdentifier h]
      · exact sanitize_eq name
  | rust =>
      rw [identifier, padded]
      rcases Rust.structName_cases name with ⟨hident, hkeyword, heq⟩ | ⟨hname, heq⟩
      · rw [heq, if_pos ⟨hident, hkeyword⟩, map_clean_of_isIdentifier hident, String.ofList_toList]
      · have hkept : ¬ (isIdentifier name = true ∧ name ∉ Rust.keywords) := by
          rintro ⟨hident, hkeyword⟩
          simp [hident, hkeyword] at hname
        rw [heq, if_neg hkept, List.map_append, String.ofList_append, ← sanitize_eq]
        rfl

theorem identifier_eq_iff {target : Target} {name name' : String} :
    target.identifier name = target.identifier name' ↔ target.Alike name name' := by
  rw [identifier_eq, identifier_eq, String.ofList_inj, ← List.forall₂_eq_eq_eq,
    List.forall₂_map_left_iff, List.forall₂_map_right_iff, Alike]
  simp only [clean_eq_clean_iff]

theorem padded_of_kept {target : Target} {name : String} (h : isIdentifier name = true)
    (hk : name ∉ target.keywords) : target.padded name = name.toList := by
  cases target with
  | python => exact (if_neg hk).trans (guardFront_of_isIdentifier h)
  | typeScript => exact guardFront_of_isIdentifier h
  | rust => exact if_pos ⟨h, hk⟩

/-- Identifiers that are no keywords are declared as they are. -/
theorem identifier_of_kept {target : Target} {name : String} (h : isIdentifier name = true)
    (hk : name ∉ target.keywords) : target.identifier name = name := by
  rw [identifier_eq, padded_of_kept h hk, map_clean_of_isIdentifier h, String.ofList_toList]

theorem nodup_identifiers_iff_pairwise {target : Target} {rs : List RecordDecl} :
    ((rs.map target.declared).map RecordText.identifier).Nodup ↔
      rs.Pairwise fun r s => ¬ target.Alike r.name s.name := by
  rw [List.Nodup, List.pairwise_map, List.pairwise_map]
  simp only [identifier_declared, ne_eq, identifier_eq_iff]

/-- If no other record has a name like that of a record, nothing else is declared under
its identifier. -/
theorem filter_declared_eq_singleton {target : Target} {rs : List RecordDecl}
    (hn : (rs.map RecordDecl.name).Nodup) {r : RecordDecl} (hr : r ∈ rs)
    (h : ∀ s ∈ rs, s.name ≠ r.name → ¬ target.Alike s.name r.name) :
    (rs.map target.declared).filter (fun t => t.identifier = target.identifier r.name) =
      [target.declared r] := by
  have hiff : ∀ s ∈ rs, (target.declared s).identifier = target.identifier r.name ↔ s = r := by
    intro s hs
    rw [identifier_declared]
    constructor
    · intro heq
      by_contra hne
      have hname : s.name ≠ r.name := fun hname => hne (List.inj_on_of_nodup_map hn hs hr hname)
      exact h s hs hname (identifier_eq_iff.mp heq)
    · rintro rfl
      rfl
  have hfilter : rs.filter (fun s => (target.declared s).identifier = target.identifier r.name) =
      rs.filter (· = r) := by
    apply List.filter_congr
    intro s hs
    rw [decide_eq_decide]
    exact hiff s hs
  rw [List.filter_map, Function.comp_def, hfilter, List.filter_eq,
    List.count_eq_one_of_mem hn.of_map hr]
  rfl

/-- The records of a generated text are declared under identifiers of their own exactly
if no two of their names are alike, as identifiers that are no keywords never are. Where
the name that the hint of a field gives is like that of no other record, the one record
under its identifier is the record of that name. -/
theorem nodup_identifiers_generate (samples : List Json) (naming : Naming) :
    ∃ fields : String → List Schema, ∀ target : Target,
      let records := generateRecords samples naming target.typeExpr
      let texts := records.map target.declared
      target.read (generate samples naming target) = some texts ∧
      ((texts.map RecordText.identifier).Nodup ↔
        records.Pairwise fun r s => ¬ target.Alike r.name s.name) ∧
      ((∀ r ∈ records, isIdentifier r.name = true ∧ r.name ∉ target.keywords) →
        (texts.map RecordText.identifier).Nodup) ∧
      ∀ r ∈ records,
        r.fields = (fields r.name).map (Generate.declare naming target.typeExpr r.name) ∧
        ∀ field ∈ fields r.name, ∀ name, Generate.hint naming r.name field = .record name →
          (∀ s ∈ records, s.name ≠ name → ¬ target.Alike s.name name) →
          ∃ s ∈ records, s.name = name ∧
            texts.filter (fun t => t.identifier = target.identifier name) =
              [target.declared s] := by
  let events := Generate.walk naming naming.rootName (Schema.infer samples)
  refine ⟨fun record => Generate.fieldsOf record events, ?_⟩
  intro target records texts
  have hn : (records.map RecordDecl.name).Nodup := Schema.nodup_names_records _ naming _
  refine ⟨?_, nodup_identifiers_iff_pairwise, ?_, ?_⟩
  · exact read_render fun r hr f hf => (spells_of_mem_generateRecords hr hf).1
  · intro hkept
    have hidentifier : texts.map RecordText.identifier = records.map RecordDecl.name := by
      rw [List.map_map]
      apply List.map_congr_left
      intro r hr
      exact (identifier_declared target r).trans
        (identifier_of_kept (hkept r hr).1 (hkept r hr).2)
    rwa [hidentifier]
  · intro r hr
    refine ⟨Schema.fields_of_mem_records hr, fun field hfield name hname halone => ?_⟩
    obtain ⟨s, hs, rfl⟩ := Schema.exists_mem_records_of_hint hfield hname target.typeExpr
    exact ⟨s, hs, rfl, filter_declared_eq_singleton hn hs halone⟩

/-- Two keys that differ in a character that no identifier has. -/
def similarKeys : List Json :=
  [.object [("a-b", .object []), ("a.b", .object [])]]

theorem names_similarKeys (target : Target) :
    (generateRecords similarKeys .standard target.typeExpr).map RecordDecl.name =
      ["root", "root_a-b", "root_a.b"] := by
  rw [generateRecords, Schema.names_records, ← Schema.names_records _ _ Neutral.typeExpr]
  cbv

/-- Similar keys are declared under one identifier, whatever the target. -/
theorem exists_identifier_eq_similarKeys (target : Target) :
    let records := generateRecords similarKeys .standard target.typeExpr
    target.read (generate similarKeys .standard target) = some (records.map target.declared) ∧
      ∃ r ∈ records, ∃ s ∈ records, r.name ≠ s.name ∧
        (target.declared r).identifier = (target.declared s).identifier := by
  intro records
  have hidentifier : target.identifier "root_a-b" = target.identifier "root_a.b" := by
    cases target <;> decide
  have hmem (name : String) (h : name ∈ ["root", "root_a-b", "root_a.b"]) :
      ∃ r ∈ records, r.name = name := List.mem_map.mp (names_similarKeys target ▸ h)
  obtain ⟨r, hr, hrname⟩ := hmem "root_a-b" (by decide)
  obtain ⟨s, hs, hsname⟩ := hmem "root_a.b" (by decide)
  refine ⟨?_, r, hr, s, hs, ?_, ?_⟩
  · exact read_render fun r hr f hf => (spells_of_mem_generateRecords hr hf).1
  · rw [hrname, hsname]
    decide
  · rw [identifier_declared, identifier_declared, hrname, hsname, hidentifier]

theorem identifier_eq_of_name_ne :
    let records := generateRecords similarKeys .standard Python.typeExpr
    python.read (generate similarKeys .standard python) = some (records.map python.declared) ∧
      ∃ r ∈ records, ∃ s ∈ records, r.name ≠ s.name ∧
        (python.declared r).identifier = (python.declared s).identifier :=
  exists_identifier_eq_similarKeys python

end Target

end JsonRecords
