import JsonRecords.Json.Decode
import JsonRecords.Json.Encode
import JsonRecords.Json.Lexeme
import JsonRecords.Proofs.Text.Utf8

/-!
# Reading back quoted strings

The content of a string is read in steps: bytes that stand for themselves
(`content_plain`) and escapes (`content_escape`), each at its own place. What is
written for a character is one such step, so a quoted string is read back as it
was, whatever follows it (`string_quoted`).
-/

namespace JsonRecords

namespace Lexeme

open Encode

/-- Whether a byte stands for itself within a string. -/
def IsPlain (b : UInt8) : Prop :=
  b ≠ Ascii.quote ∧ b ≠ Ascii.backslash ∧ ¬ b < 0x20

theorem content_quote (done rest : Bytes) :
    content 0 done (Ascii.quote :: rest) = .ok (done.reverse, rest) := by
  simp [content]

theorem content_plain {bytes : Bytes} (h : ∀ b ∈ bytes, IsPlain b) (done rest : Bytes) :
    content 0 done (bytes ++ rest) = content 0 (bytes.reverse ++ done) rest := by
  induction bytes generalizing done with
  | nil => rfl
  | cons b bytes ih =>
      obtain ⟨⟨hquote, hback, hlow⟩, h⟩ := List.forall_mem_cons.mp h
      rw [List.cons_append, content, if_neg hquote, if_neg hback, if_neg hlow, ih h]
      simp

/-- The bytes of an escape that has been resolved are passed over. -/
theorem content_taken (taken done rest : Bytes) :
    content taken.length done (taken ++ rest) = content 0 done rest := by
  induction taken with
  | nil => rfl
  | cons b taken ih => rw [List.length_cons, List.cons_append, content, ih]

theorem content_escape {bytes taken rest : Bytes}
    (h : escape (taken ++ rest) = .ok (bytes, taken.length)) (done : Bytes) :
    content 0 done (Ascii.backslash :: (taken ++ rest)) =
      content 0 (bytes.reverse ++ done) rest := by
  have hne : Ascii.backslash ≠ Ascii.quote := by decide
  rw [content, if_neg hne, if_pos rfl, h]
  exact content_taken taken _ rest

/-- An escape of one letter. -/
theorem content_escaped? {e c : UInt8} (hu : e ≠ Ascii.letterU) (he : escaped? e = some c)
    (done rest : Bytes) :
    content 0 done (Ascii.backslash :: e :: rest) = content 0 (c :: done) rest := by
  have h : escape ([e] ++ rest) = .ok ([c], [e].length) := by
    simp [escape, hu, he]
  exact content_escape h done

/-- The lower-case digits of a number below that of the space are read as that
number. -/
theorem hex4?_hexDigit (n : Fin 0x20) :
    hex4? Ascii.zero Ascii.zero (UInt8.ofNat (hexDigit (n / 16)).toNat)
      (UInt8.ofNat (hexDigit (n % 16)).toNat) = some n.val := by
  decide +revert

theorem toNat_hexDigit_lt (n : Fin 0x20) :
    (hexDigit (n / 16)).toNat < 0x80 ∧ (hexDigit (n % 16)).toNat < 0x80 := by
  decide +revert

/-- What is written for a character holds none below the space. -/
theorem le_toNat_of_mem_quotedChar (c : Char) : ∀ d ∈ quotedChar c, 0x20 ≤ d.toNat := by
  have hdigit : ∀ n : Fin 0x20, 0x20 ≤ (hexDigit (n / 16)).toNat ∧
      0x20 ≤ (hexDigit (n % 16)).toNat := by decide
  rw [quotedChar]
  iterate 7
    split
    · simp
  split
  · next h => simpa using hdigit ⟨c.toNat, h⟩
  · next h => simpa using h

theorem not_mem_flatMap_quotedChar {d : Char} (hd : d.toNat < 0x20) (cs : List Char) :
    d ∉ cs.flatMap quotedChar := by
  intro hmem
  obtain ⟨c, _, hc⟩ := List.mem_flatMap.mp hmem
  exact absurd (le_toNat_of_mem_quotedChar c d hc) (Nat.not_le.mpr hd)

/-- An escape by number of a character below the space. -/
theorem content_numbered {c : Char} (h : c.toNat < 0x20) (done rest : Bytes) :
    content 0 done (Utf8.encode ['\\', 'u', '0', '0', hexDigit (c.toNat / 16),
      hexDigit (c.toNat % 16)] ++ rest) = content 0 ((Utf8.encodeChar c).reverse ++ done) rest := by
  obtain ⟨hhigh, hlow⟩ := toNat_hexDigit_lt ⟨c.toNat, h⟩
  have hhex := hex4?_hexDigit ⟨c.toNat, h⟩
  generalize hexDigit (c.toNat / 16) = x at hhigh hhex ⊢
  generalize hexDigit (c.toNat % 16) = y at hlow hhex ⊢
  have hescape : escape (([Ascii.letterU, Ascii.zero, Ascii.zero] ++
      [UInt8.ofNat x.toNat, UInt8.ofNat y.toNat]) ++ rest) = .ok (Utf8.encodeChar c, 5) := by
    have hlo : isLowSurrogate c.toNat = false := by simp [isLowSurrogate]; omega
    have hhi : isHighSurrogate c.toNat = false := by simp [isHighSurrogate]; omega
    simp [escape, numbered, hex4, hhex, hlo, hhi, bind, Except.bind, pure, Except.pure]
  have htext : Utf8.encode ['\\', 'u', '0', '0', x, y] ++ rest =
      Ascii.backslash :: (([Ascii.letterU, Ascii.zero, Ascii.zero] ++
        [UInt8.ofNat x.toNat, UInt8.ofNat y.toNat]) ++ rest) := by
    rw [Utf8.encode_cons, Utf8.encode_cons, Utf8.encode_cons, Utf8.encode_cons, Utf8.encode_cons,
      Utf8.encode_cons, Utf8.encodeChar_of_lt hhigh, Utf8.encodeChar_of_lt hlow]
    rfl
  rw [htext]
  exact content_escape hescape done

theorem isPlain_of_mem_encodeChar {c : Char} (hquote : c ≠ '"') (hback : c ≠ '\\')
    (hlow : ¬ c.toNat < 0x20) {b : UInt8} (hb : b ∈ Utf8.encodeChar c) : IsPlain b := by
  by_cases h : c.toNat < 0x80
  · rw [Utf8.encodeChar_of_lt h, List.mem_singleton] at hb
    have hn : b.toNat = c.toNat := by rw [hb, Utf8.toNat_ofNat (by omega)]
    have hne {d : Char} (hd : c ≠ d) : b.toNat ≠ d.toNat := by
      rw [hn]
      exact fun he => hd (Char.toNat_inj.mp he)
    refine ⟨?_, ?_, ?_⟩
    · exact fun he => hne hquote (congrArg UInt8.toNat he)
    · exact fun he => hne hback (congrArg UInt8.toNat he)
    · rw [UInt8.lt_iff_toNat_lt, hn]
      exact hlow
  · have hge := Utf8.toNat_ge_of_mem_encodeChar (Nat.not_lt.mp h) hb
    refine ⟨?_, ?_, ?_⟩
    · rintro rfl
      revert hge
      decide
    · rintro rfl
      revert hge
      decide
    · rw [UInt8.lt_iff_toNat_lt]
      exact fun hlt => absurd (Nat.lt_of_lt_of_le hlt (by decide : (0x20 : UInt8).toNat ≤ 0x80))
        (Nat.not_lt.mpr hge)

/-- What is written for a character is read as that character. -/
theorem content_quotedChar (c : Char) (done rest : Bytes) :
    content 0 done (Utf8.encode (quotedChar c) ++ rest) =
      content 0 ((Utf8.encodeChar c).reverse ++ done) rest := by
  rw [quotedChar]
  -- quote, backslash and five control characters have a letter of their own
  iterate 7
    split
    · next h =>
      subst h
      exact content_escaped? (by decide) (by decide) done rest
  split
  · next h => exact content_numbered h done rest
  · next hquote hback _ _ _ _ _ hlow =>
    rw [Utf8.encode_cons, Utf8.encode_nil, List.append_nil]
    exact content_plain (fun b => isPlain_of_mem_encodeChar hquote hback hlow) done rest

theorem content_flatMap_quotedChar (cs : List Char) (done rest : Bytes) :
    content 0 done (Utf8.encode (cs.flatMap quotedChar) ++ rest) =
      content 0 ((Utf8.encode cs).reverse ++ done) rest := by
  induction cs generalizing done with
  | nil => rfl
  | cons c cs ih =>
      rw [List.flatMap_cons, Utf8.encode_append, List.append_assoc, content_quotedChar, ih,
        Utf8.encode_cons, List.reverse_append, List.append_assoc]

/-- A quoted string is read back, whatever follows it. -/
theorem string_quoted (s : String) (rest : Bytes) :
    string (Utf8.encode (s.toList.flatMap quotedChar) ++ Ascii.quote :: rest) = .ok (s, rest) := by
  rw [string, content_flatMap_quotedChar, content_quote]
  simp [Utf8.decode_encode, bind, Except.bind, pure, Except.pure]

theorem ofString_quoted (s : String) :
    Utf8.ofString (quoted s) =
      Ascii.quote :: (Utf8.encode (s.toList.flatMap quotedChar) ++ [Ascii.quote]) := by
  rw [Utf8.ofString, quoted, String.toList_ofList, List.cons_append, Utf8.encode_cons,
    Utf8.encode_append]
  rfl

end Lexeme

/-- A quoted string is the text of a value of its own. -/
theorem Json.decode_quoted (levels : Nat) (s : String) :
    Json.decode levels (Utf8.ofString (Encode.quoted s)) = .ok (.string s) := by
  have hstring := Lexeme.string_quoted s []
  have hread (bound : Nat) (inner : Option (Bytes → Except Fault (Json × Bytes))) :
      Decode.valueWith bound inner (Utf8.ofString (Encode.quoted s)) = .ok (.string s, []) := by
    have hquote : Ascii.isBlank Ascii.quote = false := by decide
    rw [Lexeme.ofString_quoted, Decode.valueWith, Ascii.skipBlank_cons, hquote]
    exact congrArg (· >>= fun r => Except.ok (Json.string r.1, r.2)) hstring
  have hvalue (bound : Nat) :
      Decode.value bound levels (Utf8.ofString (Encode.quoted s)) = .ok (.string s, []) := by
    cases levels <;> exact hread bound _
  rw [decode, Decode.whole, hvalue]
  rfl

end JsonRecords
