import JsonRecords.Proofs.Target.Lines

/-!
# Python source read back

The reader knows the header, the five lines that open a class, the blank line before
its fields and the line of a field. It recovers every class as it was declared
(`read_render`).
-/

namespace JsonRecords

namespace Python

open Source

/-- A field as it is declared. -/
def declaredField (ident : String) (f : FieldDecl) : FieldText :=
  ⟨ident, none, f.typeExpr⟩

/-- Fields as they are declared, each under the identifier that a scope hands out. -/
def declaredFields (scope : Scope) (fields : List FieldDecl) : List FieldText :=
  List.zipWith declaredField (scope.claimAll (fields.map fun f => identifier f.name)) fields

/-- A record as it is declared. -/
def declared (r : RecordDecl) : RecordText :=
  ⟨identifier r.name, declaredFields .empty r.fields⟩

/-! ## The layout -/

def headerLines : List String :=
  ["from __future__ import annotations", "", "from dataclasses import dataclass",
    "from typing import Union"]

def head : Head where
  above := ["", "", "@dataclass"]
  opening := "class "
  closing := ":"
  below ident := ["    \"\"\"" ++ (ident ++ " dataclass\"\"\"")]
  breaks := by decide

def printField (f : FieldText) : List String :=
  ["    " ++ (f.label ++ (": " ++ f.typeExpr))]

/-- The lines of fields. A blank line stands before them, if there are any. -/
def printFields (fields : List FieldText) : List String :=
  (if fields.isEmpty then [] else [""]) ++ fields.flatMap printField

def printRecord (t : RecordText) : List String :=
  head.print t.identifier ++ printFields t.fields

def readField : List String → Option (FieldText × List String)
  | [] => none
  | l :: ls => do
    let l ← after? "    " l
    let (label, l) ← readIdentifier l
    let typeExpr ← after? ": " l
    return (⟨label, none, typeExpr⟩, ls)

/-- The fields of a class. A blank line belongs to them if they follow it. -/
def readFields (ls : List String) : List FieldText × List String :=
  match stripPrefix? [""] ls with
  | none => ([], ls)
  | some below =>
    match readMany readField below with
    | ([], _) => ([], ls)
    | many => many

def readRecord (ls : List String) : Option (RecordText × List String) := do
  let (ident, ls) ← head.read ls
  let (fields, ls) := readFields ls
  return (⟨ident, fields⟩, ls)

/-- The classes of a text, if it has the layout to its end. -/
def read (text : String) : Option (List RecordText) :=
  readText headerLines readRecord text

/-! ## What is printed is read -/

theorem readField_print {f : FieldText} (hlabel : isIdentifier f.label = true)
    (hrename : f.rename = none) (ls : List String) :
    readField (printField f ++ ls) = some (f, ls) := by
  obtain ⟨label, rename, typeExpr⟩ := f
  obtain rfl : rename = none := hrename
  have hcolon : breaksOff (": " ++ typeExpr) = true := breaksOff_append (by decide) typeExpr
  simp [readField, printField, readIdentifier_append hlabel hcolon]

/-- What can follow a class: the end of the text or another class. -/
def Follows (ls : List String) : Prop :=
  ls = [""] ∨ ∃ more, ls = "" :: "" :: more

theorem readField_of_follows {ls : List String} (h : Follows ls) : readField ls = none := by
  rcases h with rfl | ⟨more, rfl⟩ <;> rfl

theorem readFields_print {fields : List FieldText}
    (h : ∀ f ∈ fields, isIdentifier f.label = true ∧ f.rename = none) {ls : List String}
    (hls : Follows ls) : readFields (printFields fields ++ ls) = (fields, ls) := by
  cases fields with
  | nil =>
      -- The blank line that can follow is no part of the class, as no field follows it.
      rcases hls with rfl | ⟨more, rfl⟩ <;> rfl
  | cons f fields =>
      have hmany : readMany readField ((f :: fields).flatMap printField ++ ls) =
          (f :: fields, ls) :=
        readMany_flatMap (fun _ => True)
          (fun f hf ls _ => readField_print (h f hf).1 (h f hf).2 ls) (fun _ _ => trivial) trivial
          (readField_of_follows hls)
      rw [readFields, printFields, List.append_assoc]
      simp only [List.isEmpty_cons, Bool.false_eq_true, if_false, stripPrefix?_append, hmany]

theorem readRecord_print {t : RecordText} (hident : isIdentifier t.identifier = true)
    (hfields : ∀ f ∈ t.fields, isIdentifier f.label = true ∧ f.rename = none) (ls : List String)
    (hls : Follows ls) : readRecord (printRecord t ++ ls) = some (t, ls) := by
  rw [printRecord, List.append_assoc, readRecord, head.read_print hident]
  simp [readFields_print hfields hls]

/-! ## The text is what is printed -/

theorem fieldLines_eq_unlines (scope : Scope) (fields : List FieldDecl) :
    fieldLines scope fields = unlines ((declaredFields scope fields).flatMap printField) := by
  induction fields generalizing scope with
  | nil => rfl
  | cons f fields ih =>
      rw [declaredFields, List.map_cons, Scope.claimAll_cons, List.zipWith_cons_cons,
        List.flatMap_cons, unlines_append, fieldLines, ← declaredFields, ← ih]
      simp [Scope.claim, fieldLine, printField, declaredField, String.append_assoc]

theorem unlines_head (ident : String) :
    unlines (head.print ident) =
      "\n\n@dataclass\nclass " ++ ident ++ ":\n    \"\"\"" ++ ident ++ " dataclass\"\"\"\n" := by
  have hopen : "\n\n@dataclass\nclass " =
      "\n" ++ ("\n" ++ ("@dataclass" ++ ("\n" ++ "class "))) := rfl
  have hmiddle : ":\n    \"\"\"" = ":" ++ ("\n" ++ "    \"\"\"") := rfl
  have hclose : " dataclass\"\"\"\n" = " dataclass\"\"\"" ++ "\n" := rfl
  rw [hopen, hmiddle, hclose, head]
  simp only [Head.print, List.cons_append, List.nil_append, unlines_cons, unlines_nil,
    String.empty_append, String.append_empty, String.append_assoc]

theorem classText_eq_unlines (r : RecordDecl) :
    classText r = unlines (printRecord (declared r)) := by
  have hempty : (declaredFields .empty r.fields).isEmpty = r.fields.isEmpty := by
    rw [declaredFields]
    cases r.fields <;> rfl
  unfold classText
  dsimp only
  rw [← unlines_head, fieldLines_eq_unlines, printRecord, printFields, unlines_append,
    unlines_append, declared, hempty, ← String.append_assoc]
  cases r.fields.isEmpty <;> rfl

theorem render_eq_unlines (rs : List RecordDecl) :
    render rs = unlines (headerLines ++ (rs.map declared).flatMap printRecord) := by
  rw [render, unlines_append, unlines_flatMap, List.map_map]
  exact congrArg _ (congrArg _ (List.map_congr_left fun r _ => classText_eq_unlines r))

theorem isIdentifier_declared (r : RecordDecl) : isIdentifier (declared r).identifier = true :=
  isIdentifier_identifier r.name

theorem exists_of_mem_declared {r : RecordDecl} {f : FieldText} (h : f ∈ (declared r).fields) :
    isIdentifier f.label = true ∧ f.rename = none ∧ ∃ g ∈ r.fields, g.typeExpr = f.typeExpr := by
  obtain ⟨g, hg, label, hlabel, rfl⟩ := Scope.exists_of_mem_zipWith_claimAll h
  exact ⟨hlabel.isIdentifier (isIdentifier_identifier g.name), rfl, g, hg, rfl⟩

theorem newline_not_mem_printRecord {r : RecordDecl}
    (h : ∀ f ∈ r.fields, '\n' ∉ f.typeExpr.toList) :
    ∀ l ∈ printRecord (declared r), '\n' ∉ l.toList := by
  have hident := newline_not_mem_of_isIdentifier (isIdentifier_declared r)
  simp only [printRecord, printFields, List.forall_mem_append, List.forall_mem_flatMap]
  refine ⟨?_, ?_, ?_⟩
  · simp [Head.print, head, hident]
  · split <;> simp
  · intro f hf
    obtain ⟨hlabel, _, g, hg, htype⟩ := exists_of_mem_declared hf
    have hnewline := h g hg
    simp [printField, newline_not_mem_of_isIdentifier hlabel, ← htype, hnewline]

/-- Classes are read back as they were declared, and nothing is left of the text. -/
theorem read_render {rs : List RecordDecl}
    (h : ∀ r ∈ rs, ∀ f ∈ r.fields, '\n' ∉ f.typeExpr.toList) :
    read (render rs) = some (rs.map declared) := by
  have hread (r : RecordDecl) (ls : List String) (hls : Follows ls) :
      readRecord (printRecord (declared r) ++ ls) = some (declared r, ls) :=
    readRecord_print (isIdentifier_declared r)
      (fun f hf => ⟨(exists_of_mem_declared hf).1, (exists_of_mem_declared hf).2.1⟩) ls hls
  rw [read, render_eq_unlines]
  exact readText_unlines Follows (List.forall_mem_map.mpr fun r _ => hread r)
    (fun t ls => .inr ⟨_, rfl⟩) (.inl rfl) rfl (by decide)
    (List.forall_mem_map.mpr fun r hr => newline_not_mem_printRecord (h r hr))

end Python

end JsonRecords
