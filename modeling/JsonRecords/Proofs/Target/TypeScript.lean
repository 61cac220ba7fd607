import JsonRecords.Proofs.Target.Lines

/-!
# TypeScript source read back

The reader knows the line that opens an interface and the one that closes it, the line
of a property and the blank line between interfaces. A property key is an identifier
or a quoted string, and what is read of it is the name it stands for. Every interface
is recovered as it was declared (`read_render`).
-/

namespace JsonRecords

namespace TypeScript

open Source

/-- A field as it is declared, by the name that its key stands for. -/
def declaredField (f : FieldDecl) : FieldText :=
  ⟨f.name, none, f.typeExpr⟩

/-- A record as it is declared. -/
def declared (r : RecordDecl) : RecordText :=
  ⟨interfaceName r.name, r.fields.map declaredField⟩

/-! ## The layout -/

/-- Nothing stands before the first interface. -/
def headerLines : List String := []

def head : Head where
  above := []
  opening := "export interface "
  closing := " \x7b"
  below _ := []
  breaks := breaksOff_brace

def printField (f : FieldText) : List String :=
  ["  " ++ (propertyKey f.label ++ (": " ++ (f.typeExpr ++ ";")))]

/-- The lines of an interface and a blank line after it. -/
def printRecord (t : RecordText) : List String :=
  head.print t.identifier ++ (t.fields.flatMap printField ++ ["\x7d", ""])

/-- A property key at the start of a line, and what follows it. -/
def readKey (l : String) : Option (String × String) :=
  readIdentifier l <|> readQuoted l

def readField : List String → Option (FieldText × List String)
  | [] => none
  | l :: ls => do
    let l ← after? "  " l
    let (label, l) ← readKey l
    let l ← after? ": " l
    let typeExpr ← before? ";" l
    return (⟨label, none, typeExpr⟩, ls)

def readRecord (ls : List String) : Option (RecordText × List String) := do
  let (ident, ls) ← head.read ls
  let (fields, ls) := readMany readField ls
  let ls ← stripPrefix? ["\x7d", ""] ls
  return (⟨ident, fields⟩, ls)

/-- The interfaces of a text, if it has the layout to its end. A line feed more makes
the end of the last one look like that of any other. -/
def read (text : String) : Option (List RecordText) :=
  if text = "" then some [] else readText headerLines readRecord (text ++ "\n")

/-! ## What is printed is read -/

theorem readKey_propertyKey (name : String) {l : String} (hl : breaksOff l = true) :
    readKey (propertyKey name ++ l) = some (name, l) := by
  rw [readKey, propertyKey]
  split
  · next h => rw [readIdentifier_append h hl]; rfl
  · have hquote : readIdentifier (Encode.quoted name ++ l) = none := by
      rw [readIdentifier, String.toList_append, Encode.quoted, String.toList_ofList]
      rfl
    rw [hquote, readQuoted_quoted]
    rfl

theorem readField_print {f : FieldText} (hrename : f.rename = none) (ls : List String) :
    readField (printField f ++ ls) = some (f, ls) := by
  obtain ⟨label, rename, typeExpr⟩ := f
  obtain rfl : rename = none := hrename
  have hcolon : breaksOff (": " ++ (typeExpr ++ ";")) = true := breaksOff_append (by decide) _
  simp [readField, printField, readKey_propertyKey label hcolon]

theorem readRecord_print {t : RecordText} (hident : isIdentifier t.identifier = true)
    (hfields : ∀ f ∈ t.fields, f.rename = none) (ls : List String) :
    readRecord (printRecord t ++ ls) = some (t, ls) := by
  have hmany : readMany readField (t.fields.flatMap printField ++ (["\x7d", ""] ++ ls)) =
      (t.fields, ["\x7d", ""] ++ ls) :=
    readMany_flatMap (fun _ => True) (fun f hf ls _ => readField_print (hfields f hf) ls)
      (fun _ _ => trivial) trivial rfl
  rw [printRecord, List.append_assoc, List.append_assoc, readRecord, head.read_print hident]
  simp only [Option.bind_eq_bind, Option.bind_some, hmany, stripPrefix?_append]
  rfl

/-! ## The text is what is printed -/

theorem propertyLine_eq_unlines (f : FieldDecl) :
    propertyLine f = unlines (printField (declaredField f)) := by
  rw [propertyLine, printField, declaredField]
  simp [String.append_assoc]

theorem interfaceText_eq_unlines (r : RecordDecl) :
    interfaceText r ++ "\n" = unlines (printRecord (declared r)) := by
  have hopen : unlines (head.print (interfaceName r.name)) =
      "export interface " ++ (interfaceName r.name ++ " \x7b\n") := by
    have hbrace : " \x7b\n" = " \x7b" ++ "\n" := rfl
    rw [hbrace, head]
    simp only [Head.print, List.nil_append, unlines_cons, unlines_nil, String.append_empty,
      String.append_assoc]
  have hclose : unlines ["\x7d", ""] = "\x7d\n" ++ "\n" := rfl
  have hfields : r.fields.map propertyLine =
      r.fields.map fun f => unlines (printField (declaredField f)) :=
    List.map_congr_left fun f _ => propertyLine_eq_unlines f
  unfold interfaceText
  rw [printRecord, unlines_append, unlines_append, unlines_flatMap, declared, List.map_map, hopen,
    hclose, hfields]
  simp only [String.append_assoc]
  rfl

theorem render_eq_unlines {rs : List RecordDecl} (h : rs ≠ []) :
    render rs ++ "\n" = unlines (headerLines ++ (rs.map declared).flatMap printRecord) := by
  rw [render, headerLines, List.nil_append]
  induction rs with
  | nil => exact absurd rfl h
  | cons r rs ih =>
      rw [List.map_cons, List.map_cons, List.flatMap_cons, unlines_append,
        ← interfaceText_eq_unlines]
      cases rs with
      | nil => simp
      | cons r' rs =>
          rw [← ih (List.cons_ne_nil _ _), List.map_cons, String.intercalate_cons_cons,
            String.append_assoc]

theorem render_ne_empty {rs : List RecordDecl} (h : rs ≠ []) : render rs ≠ "" := by
  have hinterface (r : RecordDecl) : interfaceText r ≠ "" := by
    unfold interfaceText
    simp [String.append_eq_empty_iff]
  rw [render]
  match rs with
  | [] => exact absurd rfl h
  | [r] => simpa using hinterface r
  | r :: r' :: rs => simp [String.append_eq_empty_iff, hinterface]

theorem isIdentifier_declared (r : RecordDecl) : isIdentifier (declared r).identifier = true :=
  isIdentifier_interfaceName r.name

theorem newline_not_mem_propertyKey (name : String) : '\n' ∉ (propertyKey name).toList := by
  rw [propertyKey]
  split
  · next h => exact newline_not_mem_of_isIdentifier h
  · exact newline_not_mem_quoted name

theorem newline_not_mem_printRecord {r : RecordDecl}
    (h : ∀ f ∈ r.fields, '\n' ∉ f.typeExpr.toList) :
    ∀ l ∈ printRecord (declared r), '\n' ∉ l.toList := by
  have hident := newline_not_mem_of_isIdentifier (isIdentifier_declared r)
  simp only [printRecord, List.forall_mem_append, List.forall_mem_flatMap]
  refine ⟨?_, ?_, by decide⟩
  · simp [Head.print, head, hident]
  · rw [declared, List.forall_mem_map]
    intro f hf
    have hnewline := h f hf
    simp [printField, declaredField, newline_not_mem_propertyKey, hnewline]

/-- Interfaces are read back as they were declared, and nothing is left of the text. -/
theorem read_render {rs : List RecordDecl}
    (h : ∀ r ∈ rs, ∀ f ∈ r.fields, '\n' ∉ f.typeExpr.toList) :
    read (render rs) = some (rs.map declared) := by
  have hread (r : RecordDecl) (ls : List String) :
      readRecord (printRecord (declared r) ++ ls) = some (declared r, ls) :=
    readRecord_print (isIdentifier_declared r) (List.forall_mem_map.mpr fun _ _ => rfl) ls
  by_cases hrs : rs = []
  · subst hrs
    rfl
  · rw [read, if_neg (render_ne_empty hrs), render_eq_unlines hrs]
    exact readText_unlines (fun _ => True) (List.forall_mem_map.mpr fun r _ ls _ => hread r ls)
      (fun _ _ => trivial) trivial rfl (by decide)
      (List.forall_mem_map.mpr fun r hr => newline_not_mem_printRecord (h r hr))

example : read (render [⟨"1\n", [⟨"a\n\"", "string"⟩, ⟨"type", "boolean"⟩]⟩]) =
    some [⟨"_1_", [⟨"a\n\"", none, "string"⟩, ⟨"type", none, "boolean"⟩]⟩] := by decide +kernel

end TypeScript

end JsonRecords
