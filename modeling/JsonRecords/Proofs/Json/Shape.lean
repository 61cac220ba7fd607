import JsonRecords.Json.Shape
import JsonRecords.Proofs.Json.Written
import JsonRecords.Proofs.Keyed

/-!
# Records read off written text

What the readers of strings, lists, keyed collections and records make of written
text, given what their readers of items and slots make of it. None of them
depends on the blanks of the text or on what follows it.
-/

namespace JsonRecords

namespace Encode

open Ascii Decode

theorem Written.eq_quoted {s : String} {text : Bytes} (h : Written (.string s) text) :
    text = Utf8.ofString (quoted s) := by
  cases h
  rfl

theorem Written.exists_items {items : List Json} {text : Bytes} (h : Written (.array items) text) :
    ∃ texts body, List.Forall₂ Written items texts ∧ Row true texts body ∧
      text = openBracket :: (body ++ [closeBracket]) := by
  cases h with
  | scalar h => exact absurd h (Nat.succ_ne_zero _)
  | array h hr => exact ⟨_, _, h, hr, rfl⟩

theorem Written.exists_members {members : List (String × Json)} {text : Bytes}
    (h : Written (.object members) text) :
    ∃ texts body, List.Forall₂ WrittenMember members texts ∧ Row true texts body ∧
      text = openBrace :: (body ++ [closeBrace]) := by
  cases h with
  | scalar h => exact absurd h (Nat.succ_ne_zero _)
  | object h hr => exact ⟨_, _, h, hr, rfl⟩

theorem Written.begins_object {members : List (String × Json)} {text : Bytes}
    (h : Written (.object members) text) : Begins text := by
  obtain ⟨texts, body, _, _, rfl⟩ := h.exists_members
  exact ⟨openBrace, _, rfl, by decide, by decide⟩

end Encode

namespace Decode

open Ascii Encode

theorem settles_string (s : String) :
    Settles Shape.string (Utf8.ofString (quoted s)) (some s) := by
  intro gap rest hgap _
  have hquote : isBlank quote = false := by decide
  rw [Lexeme.ofString_quoted, List.cons_append, List.append_assoc, List.singleton_append,
    Shape.string, skipBlank_append hgap, skipBlank_of_not hquote]
  simp only [if_true, Lexeme.string_quoted]
  rfl

theorem settles_word {α : Type} {ofWord? : String → Option α} {known : List String} {levels : Nat}
    {w : String} {v : α} (h : ofWord? w = some v) :
    Settles (Shape.word ofWord? known levels) (Utf8.ofString (quoted w)) (some v) := by
  intro gap rest hgap _
  have hquote : isBlank quote = false := by decide
  rw [Lexeme.ofString_quoted, List.cons_append, List.append_assoc, List.singleton_append,
    Shape.word, skipBlank_append hgap, skipBlank_of_not hquote]
  simp [Lexeme.string_quoted, h, bind, Except.bind, pure, Except.pure, Except.toOption]

/-- A list is read item by item. -/
theorem settles_list {α : Type} {bound levels : Nat}
    {item : Nat → Bytes → Except Fault (α × Bytes)} {values : List α} {texts : List Bytes}
    {body : Bytes} (hr : Row true texts body)
    (h : List.Forall₂ (fun v t => Settles (item levels) t (some v)) values texts)
    (hbegin : ∀ t ∈ texts, Begins t) (hbound : body.length < bound) :
    Settles (Shape.list bound (levels + 1) item) (openBracket :: (body ++ [closeBracket]))
      (some values) := by
  intro gap rest hgap _
  have hopen : isBlank openBracket = false := by decide
  have hitems : List.Forall₂ (Settles (item levels)) texts (values.map some) :=
    List.forall₂_map_right_iff.mpr h.flip
  have hall : (values.map some).mapM id = some values := by
    rw [List.mapM_map]
    simpa using List.mapM_pure (m := Option) (l := values) (f := id)
  have hrow := items_row hr hitems hbegin hbound [] rest
  rw [hall] at hrow
  rw [List.cons_append, List.append_assoc, List.singleton_append, Shape.list,
    skipBlank_append hgap, skipBlank_of_not hopen]
  simp only [if_true, Shape.descend, bind, Except.bind]
  exact hrow

/-- A member is read by its key and by what stands after the key. -/
theorem updates_quoted {σ : Type} {member : σ → String → Bytes → Except Fault (σ × Bytes)}
    {key : String} {tail : Bytes} {change : σ → Option σ}
    (h : ∀ state rest, Ends rest →
      (member state key (tail ++ rest)).toOption = (change state).map fun state => (state, rest)) :
    Updates member (Utf8.ofString (quoted key) ++ tail) change := by
  refine ⟨Utf8.encode (key.toList.flatMap quotedChar) ++ quote :: tail, ?_, ?_⟩
  · simp [Lexeme.ofString_quoted]
  · intro state rest hrest
    rw [List.append_assoc, List.cons_append, Lexeme.string_quoted]
    exact h state rest hrest

/-- A member of a keyed collection is put under its key. -/
theorem updates_keyed {α : Type} {item : Bytes → Except Fault (α × Bytes)} {key : String} {v : Json}
    {text : Bytes} {a : α} (hw : WrittenMember (key, v) text)
    (h : ∀ t, Written v t → t.length < text.length → Settles item t (some a)) :
    Updates (keyed item) text fun entries => some (Keyed.set key a entries) := by
  cases hw with
  | @mk _ _ gap gap' text hgap hgap' hw =>
      have hitem := h text hw (by simp only [List.length_append, List.length_cons]; omega)
      refine updates_quoted fun entries rest hrest => ?_
      have hread := hitem gap' rest hgap' hrest
      rw [List.append_assoc, List.cons_append, List.append_assoc, keyed, colon_gap hgap]
      exact toOption_bind_ok hread fun a => Keyed.set key a entries

/-- A member that is a slot of a record fills the slot. -/
theorem updates_slot {σ : Type} (bound : Nat) {levels : Nat} {slots : List (Shape.Slot σ)}
    {slot : Shape.Slot σ} {key : String} {v : Json} {text : Bytes} {fill : σ → σ}
    (hfind : slots.find? (fun slot => slot.name = key) = some slot)
    (hw : WrittenMember (key, v) text)
    (h : ∀ t, Written v t → t.length < text.length → ∀ state,
      Settles (slot.fill levels state) t (some (fill state))) :
    Updates (Shape.member bound levels slots) text
      fun state => if slot.isFilled state then none else some (fill state) := by
  cases hw with
  | @mk _ _ gap gap' text hgap hgap' hw =>
      have hslot := h text hw (by simp only [List.length_append, List.length_cons]; omega)
      refine updates_quoted fun state rest hrest => ?_
      rw [List.append_assoc, List.cons_append, List.append_assoc, Shape.member, hfind]
      cases hfilled : slot.isFilled state with
      | true => simp [hfilled, Except.toOption]
      | false =>
          have hread := hslot state gap' rest hgap' hrest
          simp only [hfilled, Bool.false_eq_true, if_false, colon_gap hgap]
          exact hread

/-- An object is read as a record if its members fill all the slots that must be
filled. -/
theorem settles_record {σ : Type} {wanted : String} {slots : List (Shape.Slot σ)}
    {bound levels : Nat} {empty state : σ} {texts : List Bytes} {body : Bytes}
    {changes : List (σ → Option σ)} (hr : Row true texts body)
    (h : List.Forall₂ (Updates (Shape.member bound levels slots)) texts changes)
    (hbound : body.length < bound)
    (hfold : changes.foldlM (fun (state : σ) (change : σ → Option σ) => change state) empty =
      some state)
    (hfull : slots.find? (fun slot => slot.required && !slot.isFilled state) = none) :
    Settles (Shape.record wanted slots bound (levels + 1) empty)
      (openBrace :: (body ++ [closeBrace])) (some state) := by
  intro gap rest hgap _
  have hopen : isBlank openBrace = false := by decide
  have hrow := members_row hr h hbound empty rest
  rw [hfold] at hrow
  rw [List.cons_append, List.append_assoc, List.singleton_append, Shape.record,
    skipBlank_append hgap, skipBlank_of_not hopen]
  have hrow := toOption_eq_some_iff.mp hrow
  simp only [if_true, Shape.descend, bind, Except.bind, hrow, hfull]
  rfl

end Decode

end JsonRecords
