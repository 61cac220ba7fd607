import JsonRecords.Json.Encode
import JsonRecords.Proofs.Json.Row
import JsonRecords.Proofs.Json.Strings

/-!
# Written values

A value may be written in many ways that differ in blanks only: items of a list
and members of an object stand in a row (`Written`). Both layouts of the encoder
are such ways (`written_compact`, `written_pretty`), so a reader that is right
about every written form is right about both.
-/

namespace JsonRecords

namespace Utf8

theorem ofString_append (s t : String) : ofString (s ++ t) = ofString s ++ ofString t := by
  rw [ofString, String.toList_append, encode_append]
  rfl

theorem ofString_intercalate (separator : String) (items : List String) :
    ofString (separator.intercalate items) =
      (ofString separator).intercalate (items.map ofString) := by
  induction items with
  | nil => rfl
  | cons item items ih =>
      cases items with
      | nil => rw [String.intercalate_singleton, List.map_singleton, List.intercalate_singleton]
      | cons next items =>
          rw [String.intercalate_cons_cons, ofString_append, ofString_append, ih]
          simp only [List.map_cons, List.intercalate_cons_cons]

end Utf8

namespace Encode

open Ascii Decode

mutual

/-- A text is a way to write a value. -/
inductive Written : Json → Bytes → Prop where
  | scalar {v : Json} (h : v.depth = 0) : Written v (Utf8.ofString (compact v))
  | array {items : List Json} {texts : List Bytes} {body : Bytes}
      (h : List.Forall₂ Written items texts) (hr : Row true texts body) :
      Written (.array items) (openBracket :: (body ++ [closeBracket]))
  | object {members : List (String × Json)} {texts : List Bytes} {body : Bytes}
      (h : List.Forall₂ WrittenMember members texts) (hr : Row true texts body) :
      Written (.object members) (openBrace :: (body ++ [closeBrace]))

/-- A text is a way to write a member of an object. -/
inductive WrittenMember : String × Json → Bytes → Prop where
  | mk {key : String} {v : Json} {gap gap' text : Bytes} (hgap : Blank gap) (hgap' : Blank gap')
      (h : Written v text) :
      WrittenMember (key, v)
        (Utf8.ofString (quoted key) ++ (gap ++ Ascii.colon :: (gap' ++ text)))

end

theorem intercalate_cons {α : Type} (separator first : List α) (rest : List (List α)) :
    separator.intercalate (first :: rest) = first ++ rest.flatMap (separator ++ ·) := by
  induction rest generalizing first with
  | nil => simp
  | cons next rest ih =>
      rw [List.intercalate_cons_cons, ih, List.flatMap_cons, List.append_assoc, List.append_assoc]

theorem row_flatMap {gap trail : Bytes} (hgap : Blank gap) (htrail : Blank trail)
    (texts : List Bytes) :
    Row false texts (texts.flatMap (fun t => comma :: (gap ++ t)) ++ trail) := by
  induction texts with
  | nil => exact .nil htrail
  | cons t texts ih =>
      have h : Row false (t :: texts) ([] ++ between false ++ (gap ++ (t ++ _))) :=
        .cons blank_nil hgap ih
      rw [List.flatMap_cons]
      simpa [between] using h

/-- Items stand in a row with commas between them, and the same blanks after each
comma. -/
theorem row_intercalate (gap : String) {lead trail : Bytes} (hlead : Blank lead)
    (hgap : Blank (Utf8.ofString gap)) (htrail : Blank trail) (items : List String) :
    Row true (items.map Utf8.ofString)
      (lead ++ (Utf8.ofString (("," ++ gap).intercalate items) ++ trail)) := by
  have hseparator : Utf8.ofString ("," ++ gap) = comma :: Utf8.ofString gap := by
    rw [Utf8.ofString_append]
    rfl
  rw [Utf8.ofString_intercalate, hseparator]
  cases items with
  | nil =>
      refine .nil fun b hb => ?_
      rcases List.mem_append.mp hb with hb | hb
      · exact hlead b hb
      · exact htrail b hb
  | cons item items =>
      have h : Row true (Utf8.ofString item :: _)
          ([] ++ between true ++ (lead ++ (Utf8.ofString item ++ _))) :=
        .cons blank_nil hlead (row_flatMap hgap htrail (items.map Utf8.ofString))
      rw [List.map_cons, intercalate_cons]
      simpa [between] using h

/-! ## The compact layout -/

theorem row_enclosed (opening closing : String) (items : List String) :
    ∃ body, Row true (items.map Utf8.ofString) body ∧
      Utf8.ofString (opening ++ ",".intercalate items ++ closing) =
        Utf8.ofString opening ++ (body ++ Utf8.ofString closing) := by
  refine ⟨_, row_intercalate "" blank_nil blank_nil blank_nil items, ?_⟩
  rw [Utf8.ofString_append, Utf8.ofString_append, List.append_assoc]
  simp

mutual

theorem written_compact : ∀ v : Json, Written v (Utf8.ofString (compact v))
  | .null => .scalar rfl
  | .bool _ => .scalar rfl
  | .number _ => .scalar rfl
  | .string _ => .scalar rfl
  | .array items => by
      obtain ⟨body, hrow, htext⟩ := row_enclosed "[" "]" (compactItems items)
      rw [compact, htext]
      exact .array (written_compactItems items) hrow
  | .object members => by
      obtain ⟨body, hrow, htext⟩ := row_enclosed "\x7b" "\x7d" (compactMembers members)
      rw [compact, htext]
      exact .object (written_compactMembers members) hrow

theorem written_compactItems : ∀ items : List Json,
    List.Forall₂ Written items ((compactItems items).map Utf8.ofString)
  | [] => .nil
  | item :: rest => .cons (written_compact item) (written_compactItems rest)

theorem written_compactMembers : ∀ members : List (String × Json),
    List.Forall₂ WrittenMember members ((compactMembers members).map Utf8.ofString)
  | [] => .nil
  | (key, item) :: rest => by
      refine .cons ?_ (written_compactMembers rest)
      have hcolon : Utf8.ofString ":" = [Ascii.colon] := rfl
      rw [Utf8.ofString_append, Utf8.ofString_append, List.append_assoc, hcolon]
      have h : WrittenMember (key, item) _ := .mk blank_nil blank_nil (written_compact item)
      simpa only [List.nil_append, List.singleton_append] using h

end

/-! ## The pretty layout -/

theorem toList_pushn (s : String) (c : Char) (n : Nat) :
    (s.pushn c n).toList = s.toList ++ List.replicate n c := by
  rw [String.pushn_eq_repeat_push]
  induction n with
  | zero => simp [Nat.repeat]
  | succ n ih => rw [Nat.repeat, String.toList_push, ih, List.append_assoc, ← List.replicate_succ']

theorem blank_newline (level : Nat) : Blank (Utf8.ofString (newline level)) := by
  have htext : Utf8.ofString (newline level) =
      lineFeed :: Utf8.encode (List.replicate (2 * level) ' ') := by
    rw [newline, Utf8.ofString_append, Utf8.ofString, Utf8.ofString, toList_pushn]
    rfl
  rw [htext]
  refine blank_cons.mpr ⟨rfl, ?_⟩
  induction 2 * level with
  | zero => exact blank_nil
  | succ n ih => exact blank_cons.mpr ⟨rfl, ih⟩

theorem row_block (opening closing : String) (level : Nat) (items : List String) :
    ∃ body, Row true (items.map Utf8.ofString) body ∧
      Utf8.ofString (block opening closing level items) =
        Utf8.ofString opening ++ (body ++ Utf8.ofString closing) := by
  cases items with
  | nil => exact ⟨[], .nil blank_nil, Utf8.ofString_append _ _⟩
  | cons item items =>
      refine ⟨_, row_intercalate (newline (level + 1)) (blank_newline (level + 1))
        (blank_newline (level + 1)) (blank_newline level) (item :: items), ?_⟩
      rw [block, Utf8.ofString_append, Utf8.ofString_append, Utf8.ofString_append,
        Utf8.ofString_append]
      · simp only [List.append_assoc]
      · exact List.cons_ne_nil _ _

mutual

theorem written_prettyAt : ∀ (level : Nat) (v : Json), Written v (Utf8.ofString (prettyAt level v))
  | _, .null => .scalar rfl
  | _, .bool _ => .scalar rfl
  | _, .number _ => .scalar rfl
  | _, .string _ => .scalar rfl
  | level, .array items => by
      obtain ⟨body, hrow, htext⟩ := row_block "[" "]" level (prettyItems (level + 1) items)
      rw [prettyAt, htext]
      exact .array (written_prettyItems (level + 1) items) hrow
  | level, .object members => by
      obtain ⟨body, hrow, htext⟩ :=
        row_block "\x7b" "\x7d" level (prettyMembers (level + 1) members)
      rw [prettyAt, htext]
      exact .object (written_prettyMembers (level + 1) members) hrow

theorem written_prettyItems : ∀ (level : Nat) (items : List Json),
    List.Forall₂ Written items ((prettyItems level items).map Utf8.ofString)
  | _, [] => .nil
  | level, item :: rest => .cons (written_prettyAt level item) (written_prettyItems level rest)

theorem written_prettyMembers : ∀ (level : Nat) (members : List (String × Json)),
    List.Forall₂ WrittenMember members ((prettyMembers level members).map Utf8.ofString)
  | _, [] => .nil
  | level, (key, item) :: rest => by
      refine .cons ?_ (written_prettyMembers level rest)
      have hgap : Blank [(0x20 : UInt8)] := blank_cons.mpr ⟨rfl, blank_nil⟩
      have hcolon : Utf8.ofString ": " = [Ascii.colon, 0x20] := rfl
      rw [Utf8.ofString_append, Utf8.ofString_append, List.append_assoc, hcolon]
      have h : WrittenMember (key, item) _ := .mk blank_nil hgap (written_prettyAt level item)
      simpa only [List.nil_append, List.cons_append] using h

end

theorem written_pretty (v : Json) : Written v (Utf8.ofString (pretty v)) :=
  written_prettyAt 0 v

end Encode

end JsonRecords
