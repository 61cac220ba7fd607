import JsonRecords.Error
import JsonRecords.Proofs.Json.Decoding
import JsonRecords.Proofs.Json.Nesting

/-!
# One document on one line

A text on one line is one document, and it is a list of one document when it is read
line by line. The two readers agree on every value but those that nest exactly as
deep as the scan of brackets still lets pass: the scan allows one level more than
the decoder of lines does (`parse_iff_parseLines`).
-/

namespace JsonRecords

/-! ## One line -/

namespace Lines

theorem split_of_not_mem {cs : List Char} (hne : cs ≠ []) (h : '\n' ∉ cs) : split cs = [cs] := by
  have hfrom (line : List Char) : splitFrom line cs =
      if (cs.reverse ++ line).isEmpty then [] else [(cs.reverse ++ line).reverse] := by
    clear hne
    induction cs generalizing line with
    | nil => rfl
    | cons c cs ih =>
        have hc : c ≠ '\n' := (List.ne_of_not_mem_cons h).symm
        rw [splitFrom, if_neg hc, ih (List.not_mem_of_not_mem_cons h)]
        simp
  rw [split, hfrom]
  simp [hne]

theorem trim_of_ends {cs : List Char} (hhead : ∀ c ∈ cs.head?, isBlank c = false)
    (hlast : ∀ c ∈ cs.getLast?, isBlank c = false) : trim cs = cs :=
  trim_eq_iff.mpr ⟨[], [], by simp, by simp, by simp, hhead, hlast⟩

end Lines

namespace Grammar

open Utf8

/-- A character that is stored with a visible ASCII byte is no blank. -/
theorem not_isBlank_of_mem_encodeChar {c : Char} {b : UInt8} (hb : b ∈ encodeChar c)
    (hmark : IsMark b) : Lines.isBlank c = false := by
  simp only [IsMark, UInt8.lt_iff_toNat_lt] at hmark
  have hlow : 0x20 < b.toNat := hmark.1
  have hhigh : b.toNat < 0x7F := hmark.2
  have hlt : c.toNat < 0x80 := by
    by_contra hge
    have hbyte := toNat_ge_of_mem_encodeChar (Nat.not_lt.mp hge) hb
    omega
  rw [encodeChar_of_lt hlt, List.mem_singleton] at hb
  have hc : b.toNat = c.toNat := by rw [hb, toNat_ofNat (by omega)]
  simp [Lines.isBlank]
  omega

/-- A value begins and ends with a visible character, so nothing of it is trimmed. -/
theorem Nests.trim_eq {d : Nat} {cs : List Char} (h : Nests d (encode cs)) :
    Lines.trim cs = cs := by
  refine Lines.trim_of_ends (fun c hc => ?_) (fun c hc => ?_)
  · obtain ⟨b, s, htext, hmark, _⟩ := h.first
    obtain ⟨cs, rfl⟩ := List.head?_eq_some_iff.mp hc
    obtain ⟨x, xs, hx⟩ := List.exists_cons_of_ne_nil (encodeChar_ne_nil c)
    rw [encode_cons, hx] at htext
    obtain ⟨rfl, _⟩ := List.cons.inj htext
    exact not_isBlank_of_mem_encodeChar (by simp [hx]) hmark
  · obtain ⟨s, b, htext, hmark⟩ := h.last
    obtain ⟨cs, rfl⟩ := List.getLast?_eq_some_iff.mp hc
    obtain ⟨xs, x, hx⟩ := (List.eq_nil_or_concat' _).resolve_left (encodeChar_ne_nil c)
    rw [encode_append, encode_cons, encode_nil, List.append_nil, hx, ← List.append_assoc] at htext
    obtain ⟨_, hxb⟩ := List.append_inj' htext rfl
    obtain rfl : x = b := List.singleton_inj.mp hxb
    exact not_isBlank_of_mem_encodeChar (by simp [hx]) hmark

theorem Nests.ne_nil {d : Nat} {cs : List Char} (h : Nests d (encode cs)) : cs ≠ [] := by
  rintro rfl
  obtain ⟨b, s, htext, _⟩ := h.first
  exact absurd htext (List.cons_ne_nil _ _).symm

end Grammar

namespace Document

open Ascii Decode Grammar Utf8

theorem toOption_mapError {ε ε' α : Type} (x : Except ε α) (f : ε → ε') :
    (x.mapError f).toOption = x.toOption := by
  cases x <;> rfl

/-- A value on one line is the only document of its text. -/
theorem toOption_parseLines {d : Nat} {cs : List Char} (h : Nests d (encode cs))
    (hline : '\n' ∉ cs) :
    (parseLines cs).toOption = (Json.decode depthLimit (encode cs)).toOption.map fun v => [v] := by
  have hempty : cs.isEmpty = false := List.isEmpty_eq_false_iff.mpr h.ne_nil
  rw [parseLines, toOption_mapError, decodeLines, Lines.split_of_not_mem h.ne_nil hline]
  simp only [decodeLinesFrom, h.trim_eq, hempty, Bool.false_eq_true, if_false, decodeLine]
  cases Json.decode depthLimit (encode cs) <;> rfl

/-- A document is decoded without a limit if the scan lets it pass. -/
theorem toOption_parse {d : Nat} {t : Bytes} (h : Nests d t) {v? : Option Json}
    (hv : ∀ levels, (Json.decode levels t).toOption = within levels d v?) :
    (parse t).toOption = within scanLimit d v? := by
  have hfull : (Json.decode t.length t).toOption = v? := by
    rw [hv, within, if_pos h.le_length]
  rw [parse, toOption_mapError, decode, isDeep, exceeds_nests h]
  by_cases hd : scanLimit < d
  · have hlimit : ¬ d ≤ depthLimit := by
      simp only [scanLimit, depthLimit] at hd ⊢
      omega
    rw [decide_eq_true hd, if_pos rfl, hv, within, within, if_neg hlimit,
      if_neg (Nat.not_le.mpr hd)]
  · rw [decide_eq_false hd, if_neg Bool.false_ne_true, within, if_pos (Nat.not_lt.mp hd)]
    cases hdecode : Json.decode t.length t with
    | ok v => rw [← hfull, hdecode]
    | error f =>
        rw [hdecode] at hfull
        rw [hv, ← hfull]
        simp [within, Except.toOption]

/-- A value on one line is one document, and it is the list of that document, unless
it nests exactly as deep as the scan lets pass. Then no line holds it, and it is
decoded as if there were no limit. -/
theorem parse_iff_parseLines {d : Nat} {cs : List Char} (h : Nests d (encode cs))
    (hline : '\n' ∉ cs) :
    (d ≠ scanLimit → ∀ v, parse (encode cs) = .ok v ↔ parseLines cs = .ok [v]) ∧
    (d = scanLimit → (∀ vs, parseLines cs ≠ .ok vs) ∧
      ∀ v, parse (encode cs) = .ok v ↔ Json.decode (encode cs).length (encode cs) = .ok v) := by
  obtain ⟨v?, hv⟩ := decode_nests h
  have hparse := toOption_parse h hv
  have hlines := toOption_parseLines h hline
  rw [hv] at hlines
  constructor
  · intro hd v
    have hiff : within scanLimit d v? = within depthLimit d v? := by
      have hle : d ≤ scanLimit ↔ d ≤ depthLimit := by
        simp only [scanLimit, depthLimit] at hd ⊢
        omega
      simp only [within, hle]
    rw [← toOption_eq_some_iff, ← toOption_eq_some_iff, hparse, hlines, hiff]
    simp
  · rintro rfl
    constructor
    · rw [← toOption_eq_none_iff, hlines, within, if_neg (by decide)]
      rfl
    · intro v
      rw [← toOption_eq_some_iff, ← toOption_eq_some_iff, hparse, hv, within, within,
        if_pos (Nat.le_refl _), if_pos h.le_length]

/-- Lists nested in each other, the innermost one empty. -/
def brackets : Nat → List Char
  | 0 => ['[', ']']
  | n + 1 => '[' :: (brackets n ++ [']'])

theorem nests_brackets (n : Nat) : Nests (n + 1) (encode (brackets n)) := by
  induction n with
  | zero =>
      have hrow : Row true [] [] := .nil blank_nil
      exact .array (fun _ => 0) hrow (List.forall_mem_nil _)
  | succ n ih =>
      have hrow : Row true [encode (brackets n)] (encode (brackets n)) := by
        have hrow : Row true [encode (brackets n)]
            ([] ++ between true ++ ([] ++ (encode (brackets n) ++ []))) :=
          .cons blank_nil blank_nil (.nil blank_nil)
        simpa [between] using hrow
      have h := Nests.array (fun _ => n + 1) hrow (List.forall_mem_singleton.mpr ih)
      rw [brackets, encode_cons, encode_append]
      exact h

theorem parse_iff_parseLines_brackets :
    Nests 2 (encode (brackets 1)) ∧ '\n' ∉ brackets 1 ∧
      (∀ v, parse (encode (brackets 1)) = .ok v ↔ parseLines (brackets 1) = .ok [v]) ∧
      Nests scanLimit (encode (brackets 127)) ∧ '\n' ∉ brackets 127 ∧
      ∀ vs, parseLines (brackets 127) ≠ .ok vs := by
  have hshallow : '\n' ∉ brackets 1 := by decide
  have hdeep : '\n' ∉ brackets 127 := by decide
  exact ⟨nests_brackets 1, hshallow,
    (parse_iff_parseLines (nests_brackets 1) hshallow).1 (by decide), nests_brackets 127, hdeep,
    ((parse_iff_parseLines (nests_brackets 127) hdeep).2 rfl).1⟩

/-- Lists nested as deep as the scan lets pass are a document and no line. -/
theorem parse_not_parseLines_brackets :
    Nests scanLimit (encode (brackets 127)) ∧ '\n' ∉ brackets 127 ∧
      ∃ v, parse (encode (brackets 127)) = .ok v ∧ parseLines (brackets 127) ≠ .ok [v] := by
  have hline : '\n' ∉ brackets 127 := by decide
  have hsome : (parse (encode (brackets 127))).toOption.isSome = true := by decide +kernel
  have hnone : (parseLines (brackets 127)).toOption = none := by
    obtain ⟨v?, hv⟩ := decode_nests (nests_brackets 127)
    rw [toOption_parseLines (nests_brackets 127) hline, hv, within, if_neg (by decide)]
    rfl
  obtain ⟨v, hparse⟩ := Option.isSome_iff_exists.mp hsome
  exact ⟨nests_brackets 127, hline, v, toOption_eq_some_iff.mp hparse,
    toOption_eq_none_iff.mp hnone [v]⟩

end Document

end JsonRecords
