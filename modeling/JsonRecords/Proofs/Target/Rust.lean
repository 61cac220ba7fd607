import JsonRecords.Proofs.Target.Lines

/-!
# Rust source read back

The reader knows the header, the three lines that open a struct and the one that
closes it, the line of a field and the attribute that can stand before it. It
recovers every struct as it was declared, with the names that attributes give to
fields (`read_render`).
-/

namespace JsonRecords

namespace Rust

open Source

/-- A field as it is declared. It is given its name if that is not its identifier. -/
def declaredField (ident : String) (f : FieldDecl) : FieldText where
  label := ident
  rename :=
    if (fieldIdentifier f.name).2 || ident != (fieldIdentifier f.name).1 then some f.name else none
  typeExpr := f.typeExpr

/-- Fields as they are declared, each under the identifier that a scope hands out. -/
def declaredFields (scope : Scope) (fields : List FieldDecl) : List FieldText :=
  List.zipWith declaredField (scope.claimAll (fields.map fun f => (fieldIdentifier f.name).1))
    fields

/-- A record as it is declared. -/
def declared (r : RecordDecl) : RecordText :=
  ⟨structName r.name, declaredFields .empty r.fields⟩

/-! ## The layout -/

def headerLines : List String :=
  ["#![allow(non_camel_case_types, non_snake_case)]", "",
    "use serde::\x7bDeserialize, Serialize\x7d;"]

def head : Head where
  above := ["", "#[derive(Debug, Clone, Serialize, Deserialize)]"]
  opening := "pub struct "
  closing := " \x7b"
  below _ := []
  breaks := breaksOff_brace

def printRename (name : String) : String :=
  "    #[serde(rename = " ++ (Encode.quoted name ++ ")]")

def printDeclaration (label typeExpr : String) : String :=
  "    pub " ++ (label ++ (": " ++ (typeExpr ++ ",")))

def printField (f : FieldText) : List String :=
  f.rename.toList.map printRename ++ [printDeclaration f.label f.typeExpr]

def printRecord (t : RecordText) : List String :=
  head.print t.identifier ++ (t.fields.flatMap printField ++ ["\x7d"])

def readRename (l : String) : Option String := do
  let l ← after? "    #[serde(rename = " l
  let (name, l) ← readQuoted l
  if l = ")]" then some name else none

def readDeclaration (l : String) : Option (String × String) := do
  let l ← after? "    pub " l
  let (label, l) ← readIdentifier l
  let l ← after? ": " l
  let typeExpr ← before? "," l
  return (label, typeExpr)

/-- A field, with the attribute before it if there is one. -/
def readField : List String → Option (FieldText × List String)
  | [] => none
  | l :: ls =>
    match readRename l, ls with
    | none, ls => do
      let (label, typeExpr) ← readDeclaration l
      return (⟨label, none, typeExpr⟩, ls)
    | some _, [] => none
    | some name, l :: ls => do
      let (label, typeExpr) ← readDeclaration l
      return (⟨label, some name, typeExpr⟩, ls)

def readRecord (ls : List String) : Option (RecordText × List String) := do
  let (ident, ls) ← head.read ls
  let (fields, ls) := readMany readField ls
  let ls ← stripPrefix? ["\x7d"] ls
  return (⟨ident, fields⟩, ls)

/-- The structs of a text, if it has the layout to its end. -/
def read (text : String) : Option (List RecordText) :=
  readText headerLines readRecord text

/-! ## What is printed is read -/

theorem readRename_print (name : String) : readRename (printRename name) = some name := by
  unfold printRename
  simp [readRename, readQuoted_quoted]

theorem readDeclaration_print {label : String} (h : isIdentifier label = true)
    (typeExpr : String) :
    readDeclaration (printDeclaration label typeExpr) = some (label, typeExpr) := by
  have hcolon : breaksOff (": " ++ (typeExpr ++ ",")) = true := breaksOff_append (by decide) _
  unfold printDeclaration
  simp [readDeclaration, readIdentifier_append h hcolon]

/-- The line of a field is no attribute. -/
theorem readRename_printDeclaration (label typeExpr : String) :
    readRename (printDeclaration label typeExpr) = none := by
  have hstrip : after? "    #[serde(rename = " (printDeclaration label typeExpr) = none := by
    unfold printDeclaration
    rw [after?, String.toList_append]
    rfl
  rw [readRename, hstrip]
  rfl

theorem readField_print {f : FieldText} (hlabel : isIdentifier f.label = true)
    (ls : List String) : readField (printField f ++ ls) = some (f, ls) := by
  obtain ⟨label, rename, typeExpr⟩ := f
  have hdeclaration := readDeclaration_print hlabel typeExpr
  cases rename with
  | none =>
      have hrename := readRename_printDeclaration label typeExpr
      simp [readField, printField, hrename, hdeclaration]
  | some name => simp [readField, printField, readRename_print, hdeclaration]

theorem readRecord_print {t : RecordText} (hident : isIdentifier t.identifier = true)
    (hfields : ∀ f ∈ t.fields, isIdentifier f.label = true) (ls : List String) :
    readRecord (printRecord t ++ ls) = some (t, ls) := by
  have hmany : readMany readField (t.fields.flatMap printField ++ (["\x7d"] ++ ls)) =
      (t.fields, ["\x7d"] ++ ls) :=
    readMany_flatMap (fun _ => True) (fun f hf ls _ => readField_print (hfields f hf) ls)
      (fun _ _ => trivial) trivial rfl
  rw [printRecord, List.append_assoc, List.append_assoc, readRecord, head.read_print hident]
  simp only [Option.bind_eq_bind, Option.bind_some, hmany, stripPrefix?_append]
  rfl

/-! ## The text is what is printed -/

theorem fieldText_eq_unlines (ident : String) (f : FieldDecl) :
    (if (fieldIdentifier f.name).2 || ident != (fieldIdentifier f.name).1 then renameLine f.name
      else "") ++ fieldLine ident f.typeExpr = unlines (printField (declaredField ident f)) := by
  rw [printField, declaredField]
  unfold renameLine fieldLine printRename printDeclaration
  split <;> simp [String.append_assoc]

theorem fieldLines_eq_unlines (scope : Scope) (fields : List FieldDecl) :
    fieldLines scope fields = unlines ((declaredFields scope fields).flatMap printField) := by
  induction fields generalizing scope with
  | nil => rfl
  | cons f fields ih =>
      rw [declaredFields, List.map_cons, Scope.claimAll_cons, List.zipWith_cons_cons,
        List.flatMap_cons, unlines_append, ← fieldText_eq_unlines, ← declaredFields, ← ih]
      rfl

theorem unlines_head (ident : String) :
    unlines (head.print ident) =
      "\n#[derive(Debug, Clone, Serialize, Deserialize)]\n" ++
        ("pub struct " ++ (ident ++ " \x7b\n")) := by
  have hopen : "\n#[derive(Debug, Clone, Serialize, Deserialize)]\n" =
      "\n" ++ ("#[derive(Debug, Clone, Serialize, Deserialize)]" ++ "\n") := rfl
  have hbrace : " \x7b\n" = " \x7b" ++ "\n" := rfl
  rw [hopen, hbrace, head]
  simp only [Head.print, List.cons_append, List.nil_append, unlines_cons, unlines_nil,
    String.empty_append, String.append_empty, String.append_assoc]

theorem structText_eq_unlines (r : RecordDecl) :
    structText r = unlines (printRecord (declared r)) := by
  have hclose : unlines ["\x7d"] = "\x7d\n" := rfl
  unfold structText
  rw [fieldLines_eq_unlines, printRecord, unlines_append, unlines_append, unlines_head, hclose,
    declared]
  simp only [String.append_assoc]

theorem render_eq_unlines (rs : List RecordDecl) :
    render rs = unlines (headerLines ++ (rs.map declared).flatMap printRecord) := by
  rw [render, unlines_append, unlines_flatMap, List.map_map]
  exact congrArg _ (congrArg _ (List.map_congr_left fun r _ => structText_eq_unlines r))

theorem isIdentifier_declared (r : RecordDecl) : isIdentifier (declared r).identifier = true :=
  isIdentifier_structName r.name

theorem exists_of_mem_declared {r : RecordDecl} {f : FieldText} (h : f ∈ (declared r).fields) :
    isIdentifier f.label = true ∧ ∃ g ∈ r.fields, g.typeExpr = f.typeExpr := by
  obtain ⟨g, hg, label, hlabel, rfl⟩ := Scope.exists_of_mem_zipWith_claimAll h
  exact ⟨hlabel.isIdentifier (isIdentifier_fieldIdentifier g.name), g, hg, rfl⟩

theorem newline_not_mem_printField {f : FieldText} (hlabel : isIdentifier f.label = true)
    (htype : '\n' ∉ f.typeExpr.toList) : ∀ l ∈ printField f, '\n' ∉ l.toList := by
  have hrename (name : String) : '\n' ∉ (printRename name).toList := by
    unfold printRename
    simp [newline_not_mem_quoted]
  have hdeclaration : '\n' ∉ (printDeclaration f.label f.typeExpr).toList := by
    unfold printDeclaration
    simp [newline_not_mem_of_isIdentifier hlabel, htype]
  simp only [printField, List.forall_mem_append, List.forall_mem_map, List.forall_mem_singleton]
  exact ⟨fun name _ => hrename name, hdeclaration⟩

theorem newline_not_mem_printRecord {r : RecordDecl}
    (h : ∀ f ∈ r.fields, '\n' ∉ f.typeExpr.toList) :
    ∀ l ∈ printRecord (declared r), '\n' ∉ l.toList := by
  have hident := newline_not_mem_of_isIdentifier (isIdentifier_declared r)
  simp only [printRecord, List.forall_mem_append, List.forall_mem_flatMap]
  refine ⟨?_, ?_, by decide⟩
  · simp [Head.print, head, hident]
  · intro f hf
    obtain ⟨hlabel, g, hg, htype⟩ := exists_of_mem_declared hf
    exact newline_not_mem_printField hlabel (htype ▸ h g hg)

/-- Structs are read back as they were declared, and nothing is left of the text. -/
theorem read_render {rs : List RecordDecl}
    (h : ∀ r ∈ rs, ∀ f ∈ r.fields, '\n' ∉ f.typeExpr.toList) :
    read (render rs) = some (rs.map declared) := by
  have hread (r : RecordDecl) (ls : List String) :
      readRecord (printRecord (declared r) ++ ls) = some (declared r, ls) :=
    readRecord_print (isIdentifier_declared r) (fun f hf => (exists_of_mem_declared hf).1) ls
  rw [read, render_eq_unlines]
  exact readText_unlines (fun _ => True) (List.forall_mem_map.mpr fun r _ ls _ => hread r ls)
    (fun _ _ => trivial) trivial rfl (by decide)
    (List.forall_mem_map.mpr fun r hr => newline_not_mem_printRecord (h r hr))

end Rust

end JsonRecords
