import JsonRecords.Proofs.Record.Ancestry
import JsonRecords.Proofs.Target.Python
import JsonRecords.Proofs.Target.Rust
import JsonRecords.Proofs.Target.TypeScript

/-!
# No name breaks the layout of a source text

Names come from anywhere and may hold anything, and yet a reader that knows only the
layout of its target recovers every record of a generated text as it was declared
(`Target.read_generate`). Type expressions hold no line feed and no words but those of
the target and the identifiers of records, and each of those is declared in the text.
-/

namespace JsonRecords

namespace Source

/-- The words of a text: its longest stretches of letters, digits and underscores. -/
def words (s : String) : List String :=
  ((s.toList.splitOnP fun c => !Identifier.isPart c).filter (· ≠ [])).map String.ofList

theorem words_of_isIdentifier {ident : String} (h : isIdentifier ident = true) :
    words ident = [ident] := by
  have hne := toList_ne_nil_of_isIdentifier h
  have hsplit : ident.toList.splitOnP (fun c => !Identifier.isPart c) = [ident.toList] :=
    List.splitOnP_eq_singleton fun c hc => by simp [isPart_of_isIdentifier h c hc]
  simp [words, hsplit, hne]

/-- A character that is no part of a word parts words. -/
theorem words_append {c : Char} (hc : Identifier.isPart c = false) (s l : String) :
    words (s ++ (String.singleton c ++ l)) = words s ++ words l := by
  let sep (c : Char) : Bool := !Identifier.isPart c
  have hsep : sep c = true := by simp [sep, hc]
  have hsplit : (s.toList ++ c :: l.toList).splitOnP sep =
      s.toList.splitOnP sep ++ l.toList.splitOnP sep :=
    List.splitOnP_append_cons s.toList l.toList hsep
  rw [words, String.toList_append, String.toList_append, String.toList_singleton,
    List.singleton_append, hsplit, List.filter_append, List.map_append]
  rfl

theorem words_bracketed {opening closing : Char} (hopening : Identifier.isPart opening = false)
    (hclosing : Identifier.isPart closing = false) (s e : String) :
    words (s ++ (String.singleton opening ++ (e ++ String.singleton closing))) =
      words s ++ words e := by
  have hend : words (e ++ String.singleton closing) = words e ++ words "" := by
    rw [← words_append hclosing, String.append_empty]
  rw [words_append hopening, hend, show words "" = [] from rfl, List.append_nil]

end Source

open Source

namespace Target

def identifier : Target → String → String
  | python => Python.identifier
  | typeScript => TypeScript.interfaceName
  | rust => Rust.structName

/-- A record as it is declared. -/
def declared : Target → RecordDecl → RecordText
  | python => Python.declared
  | typeScript => TypeScript.declared
  | rust => Rust.declared

/-- The records of a text, if it has the layout of the target to its end. -/
def read : Target → String → Option (List RecordText)
  | python => Python.read
  | typeScript => TypeScript.read
  | rust => Rust.read

/-- The words that a target has for types. -/
def typeWords : Target → List String
  | python => ["str", "Union", "int", "float", "bool", "list", "object"]
  | typeScript => ["string", "number", "boolean", "any"]
  | rust => ["String", "f64", "bool", "Vec", "serde_json", "Value"]

theorem identifier_declared (target : Target) (r : RecordDecl) :
    (target.declared r).identifier = target.identifier r.name := by
  cases target <;> rfl

/-- The type expressions of a record are those it was generated with. -/
theorem exists_of_mem_declared {target : Target} {r : RecordDecl} {f : FieldText}
    (h : f ∈ (target.declared r).fields) : ∃ g ∈ r.fields, g.typeExpr = f.typeExpr := by
  cases target with
  | python => exact (Python.exists_of_mem_declared h).2.2
  | typeScript =>
      obtain ⟨g, hg, rfl⟩ := List.mem_map.mp h
      exact ⟨g, hg, rfl⟩
  | rust => exact (Rust.exists_of_mem_declared h).2

theorem read_render {target : Target} {rs : List RecordDecl}
    (h : ∀ r ∈ rs, ∀ f ∈ r.fields, '\n' ∉ f.typeExpr.toList) :
    target.read (target.render rs) = some (rs.map target.declared) := by
  cases target with
  | python => exact Python.read_render h
  | typeScript => exact TypeScript.read_render h
  | rust => exact Rust.read_render h

theorem isIdentifier_identifier (target : Target) (name : String) :
    isIdentifier (target.identifier name) = true := by
  cases target with
  | python => exact Python.isIdentifier_identifier name
  | typeScript => exact TypeScript.isIdentifier_interfaceName name
  | rust => exact Rust.isIdentifier_structName name

/-! ## Type expressions -/

/-- The type expressions in which there is no record. -/
def plainTypes (target : Target) : List String :=
  Kind.all.flatMap fun kind => [target.typeExpr kind .none, target.typeExpr .array (.element kind)]

/-- The type of arrays of a type. -/
def arrayOf : Target → String → String
  | python, e => "list[" ++ e ++ "]"
  | typeScript, e => e ++ "[]"
  | rust, e => "Vec<" ++ e ++ ">"

theorem typeExpr_cases (target : Target) (kind : Kind) (hint : Hint) :
    target.typeExpr kind hint ∈ target.plainTypes ∨ ∃ name, hint = .record name ∧
      (target.typeExpr kind hint = target.identifier name ∨
        target.typeExpr kind hint = target.arrayOf (target.identifier name)) := by
  have hnone : target.typeExpr kind .none ∈ target.plainTypes :=
    List.mem_flatMap.mpr ⟨kind, Kind.mem_all kind, List.mem_cons_self⟩
  cases hint with
  | none => exact .inl hnone
  | element k =>
      by_cases hkind : kind = .array
      · subst hkind
        exact .inl (List.mem_flatMap.mpr ⟨k, Kind.mem_all k, by simp⟩)
      · have htype : target.typeExpr kind (.element k) = target.typeExpr kind .none := by
          cases target <;> cases kind <;> first | rfl | exact absurd rfl hkind
        exact .inl (htype ▸ hnone)
  | record name =>
      by_cases hobject : kind = .object
      · subst hobject
        exact .inr ⟨name, rfl, .inl (by cases target <;> rfl)⟩
      by_cases harray : kind = .array
      · subst harray
        exact .inr ⟨name, rfl, .inr (by cases target <;> rfl)⟩
      · have htype : target.typeExpr kind (.record name) = target.typeExpr kind .none := by
          cases target <;> cases kind <;>
            first | rfl | exact absurd rfl hobject | exact absurd rfl harray
        exact .inl (htype ▸ hnone)

theorem words_of_mem_plainTypes {target : Target} {e : String} (h : e ∈ target.plainTypes) :
    '\n' ∉ e.toList ∧ ∀ w ∈ words e, w ∈ target.typeWords := by
  have hall : ∀ e ∈ target.plainTypes, '\n' ∉ e.toList ∧ ∀ w ∈ words e, w ∈ target.typeWords := by
    cases target <;> decide
  exact hall e h

theorem newline_not_mem_arrayOf {e : String} (h : '\n' ∉ e.toList) (target : Target) :
    '\n' ∉ (target.arrayOf e).toList := by
  cases target <;> simp [arrayOf, h]

theorem words_arrayOf {target : Target} {e w : String} (hw : w ∈ words (target.arrayOf e)) :
    w ∈ target.typeWords ∨ w ∈ words e := by
  have hlist : ∀ w ∈ words "list", w ∈ python.typeWords := by decide
  have hvec : ∀ w ∈ words "Vec", w ∈ rust.typeWords := by decide
  cases target with
  | python =>
      have harray : arrayOf python e =
          "list" ++ (String.singleton '[' ++ (e ++ String.singleton ']')) := by
        rw [arrayOf, String.append_assoc, ← String.append_assoc]
        rfl
      rw [harray, words_bracketed (by decide) (by decide), List.mem_append] at hw
      exact hw.imp_left (hlist w)
  | typeScript =>
      have harray : arrayOf typeScript e =
          e ++ (String.singleton '[' ++ ("" ++ String.singleton ']')) := by
        rw [arrayOf, String.empty_append]
        rfl
      rw [harray, words_bracketed (by decide) (by decide), List.mem_append] at hw
      exact .inr (hw.resolve_right List.not_mem_nil)
  | rust =>
      have harray : arrayOf rust e =
          "Vec" ++ (String.singleton '<' ++ (e ++ String.singleton '>')) := by
        rw [arrayOf, String.append_assoc, ← String.append_assoc]
        rfl
      rw [harray, words_bracketed (by decide) (by decide), List.mem_append] at hw
      exact hw.imp_left (hvec w)

/-- A type expression holds no line feed and no words but those of the target and the
identifier of the record that its hint names. -/
theorem spells_typeExpr (target : Target) (kind : Kind) (hint : Hint) :
    '\n' ∉ (target.typeExpr kind hint).toList ∧ ∀ w ∈ words (target.typeExpr kind hint),
      w ∈ target.typeWords ∨ ∃ name, hint = .record name ∧ w = target.identifier name := by
  rcases typeExpr_cases target kind hint with hplain | ⟨name, hname, h | h⟩
  · obtain ⟨hnewline, hwords⟩ := words_of_mem_plainTypes hplain
    exact ⟨hnewline, fun w hw => .inl (hwords w hw)⟩
  · have hident := isIdentifier_identifier target name
    rw [h, words_of_isIdentifier hident]
    refine ⟨newline_not_mem_of_isIdentifier hident, fun w hw => .inr ⟨name, hname, ?_⟩⟩
    exact List.mem_singleton.mp hw
  · have hident := isIdentifier_identifier target name
    rw [h]
    refine ⟨newline_not_mem_arrayOf (newline_not_mem_of_isIdentifier hident) target, fun w hw => ?_⟩
    refine (words_arrayOf hw).imp_right fun hw => ⟨name, hname, ?_⟩
    rw [words_of_isIdentifier hident] at hw
    exact List.mem_singleton.mp hw

/-- A word in a generated type expression is one of the target or the identifier of a
generated record. -/
theorem spells_of_mem_generateRecords {samples : List Json} {naming : Naming} {target : Target}
    {r : RecordDecl} (hr : r ∈ generateRecords samples naming target.typeExpr) {f : FieldDecl}
    (hf : f ∈ r.fields) :
    '\n' ∉ f.typeExpr.toList ∧ ∀ w ∈ words f.typeExpr, w ∈ target.typeWords ∨
      ∃ child ∈ generateRecords samples naming target.typeExpr,
        w = target.identifier child.name := by
  rw [Schema.fields_of_mem_records hr] at hf
  obtain ⟨field, hfield, rfl⟩ := List.mem_map.mp hf
  obtain ⟨hnewline, hwords⟩ :=
    spells_typeExpr target field.kind (Generate.hint naming r.name field)
  refine ⟨hnewline, fun w hw => (hwords w hw).imp_right ?_⟩
  rintro ⟨name, hname, rfl⟩
  obtain ⟨child, hchild, rfl⟩ := Schema.exists_mem_records_of_hint hfield hname target.typeExpr
  exact ⟨child, hchild, rfl⟩

/-- What is read of a generated text are its records as they were declared, and nothing
of the text is left. Every word of a type expression is one of the target or the
identifier of a record in the same text. Behind each record stand the schemas of its
fields, whatever the target, and a record that the hint of one names is declared. -/
theorem read_generate (samples : List Json) (naming : Naming) :
    ∃ fields : String → List Schema, ∀ target : Target,
      let records := generateRecords samples naming target.typeExpr
      let texts := records.map target.declared
      target.read (generate samples naming target) = some texts ∧
      (∀ t ∈ texts, ∀ f ∈ t.fields, ∀ w ∈ words f.typeExpr,
        w ∈ target.typeWords ∨ w ∈ texts.map RecordText.identifier) ∧
      ∀ r ∈ records,
        r.fields = (fields r.name).map (Generate.declare naming target.typeExpr r.name) ∧
        ∀ field ∈ fields r.name, ∀ name, Generate.hint naming r.name field = .record name →
          target.identifier name ∈ texts.map RecordText.identifier := by
  let events := Generate.walk naming naming.rootName (Schema.infer samples)
  refine ⟨fun record => Generate.fieldsOf record events, ?_⟩
  intro target records texts
  have hidentifier : ∀ r ∈ records, target.identifier r.name ∈ texts.map RecordText.identifier := by
    intro r hr
    rw [← identifier_declared]
    exact List.mem_map_of_mem (List.mem_map_of_mem hr)
  refine ⟨?_, ?_, ?_⟩
  · exact read_render fun r hr f hf => (spells_of_mem_generateRecords hr hf).1
  · intro t ht f hf w hw
    obtain ⟨r, hr, rfl⟩ := List.mem_map.mp ht
    obtain ⟨g, hg, htype⟩ := exists_of_mem_declared hf
    refine ((spells_of_mem_generateRecords hr hg).2 w (htype ▸ hw)).imp_right ?_
    rintro ⟨child, hchild, rfl⟩
    exact hidentifier child hchild
  · intro r hr
    refine ⟨Schema.fields_of_mem_records hr, fun field hfield name hname => ?_⟩
    obtain ⟨child, hchild, rfl⟩ := Schema.exists_mem_records_of_hint hfield hname target.typeExpr
    exact hidentifier child hchild

end Target

end JsonRecords
