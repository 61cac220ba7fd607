import JsonRecords.Text.Utf8

/-!
# Reading back what was written as UTF-8

A character is written as one to four bytes, and the reader takes them for that
character wherever they stand (`decodeFrom_encodeChar`). So every text is read
back from its bytes (`decode_encode`). The bytes of a character past ASCII are
none of ASCII.
-/

namespace JsonRecords

namespace Utf8

theorem toNat_ofNat {n : Nat} (h : n < 0x100) : (UInt8.ofNat n).toNat = n :=
  UInt8.toNat_ofNat_of_lt' h

/-- A byte that may go on with the sequence at hand does so. -/
theorem decodeFrom_tail {p : Pending} {tail : Nat} (ht : tail < 0x40)
    (hlow : p.low.toNat ≤ 0x80 + tail) (hhigh : 0x80 + tail ≤ p.high.toNat) (valid : Nat)
    (done : List Char) (s : Bytes) :
    decodeFrom (some p) valid done (UInt8.ofNat (0x80 + tail) :: s) =
      if p.missing ≤ 1 then
        decodeFrom none (valid + p.seen + 1) (Char.ofNat (p.value * 0x40 + tail) :: done) s
      else
        decodeFrom (some ⟨p.value * 0x40 + tail, p.missing - 1, 0x80, 0xBF, p.seen + 1⟩)
          valid done s := by
  have hb : (UInt8.ofNat (0x80 + tail)).toNat = 0x80 + tail := toNat_ofNat (by omega)
  have hrange : p.low ≤ UInt8.ofNat (0x80 + tail) ∧ UInt8.ofNat (0x80 + tail) ≤ p.high := by
    rw [UInt8.le_iff_toNat_le, UInt8.le_iff_toNat_le, hb]
    exact ⟨hlow, hhigh⟩
  simp only [decodeFrom, hrange, and_self, if_true, hb, Nat.add_sub_cancel_left]

theorem decodeFrom_lead {b : UInt8} {p : Pending} (hb : 0x80 ≤ b.toNat) (hp : lead? b = some p)
    (valid : Nat) (done : List Char) (s : Bytes) :
    decodeFrom none valid done (b :: s) = decodeFrom (some p) valid done s := by
  have hb : ¬ b < 0x80 := by
    rw [UInt8.lt_iff_toNat_lt]
    exact Nat.not_lt.mpr hb
  simp only [decodeFrom, hb, if_false, hp]

/-- The sequence that a leading byte begins, by its value. -/
theorem lead?_ofNat {n : Nat} (h : n < 0x100) :
    lead? (UInt8.ofNat n) =
      if n < 0xC2 then none
      else if n < 0xE0 then some ⟨n - 0xC0, 1, 0x80, 0xBF, 1⟩
      else if n = 0xE0 then some ⟨0, 2, 0xA0, 0xBF, 1⟩
      else if n = 0xED then some ⟨0x0D, 2, 0x80, 0x9F, 1⟩
      else if n < 0xF0 then some ⟨n - 0xE0, 2, 0x80, 0xBF, 1⟩
      else if n = 0xF0 then some ⟨0, 3, 0x90, 0xBF, 1⟩
      else if n < 0xF4 then some ⟨n - 0xF0, 3, 0x80, 0xBF, 1⟩
      else if n = 0xF4 then some ⟨4, 3, 0x80, 0x8F, 1⟩
      else none := by
  have hn : (UInt8.ofNat n).toNat = n := toNat_ofNat h
  simp only [lead?, UInt8.lt_iff_toNat_lt, ← UInt8.toNat_inj, hn]
  rfl

/-- A leading byte of three asks for two more, the first of them in the range of
the characters that are not written with fewer and are no surrogates. -/
theorem exists_lead_three {n : Nat} (hlow : 0x800 ≤ n) (hhigh : n < 0x10000)
    (hvalid : n < 0xD800 ∨ 0xDFFF < n) :
    ∃ low high, lead? (UInt8.ofNat (0xE0 + n / 0x1000)) = some ⟨n / 0x1000, 2, low, high, 1⟩ ∧
      low.toNat ≤ 0x80 + n / 0x40 % 0x40 ∧ 0x80 + n / 0x40 % 0x40 ≤ high.toNat := by
  rw [lead?_ofNat (by omega), if_neg (by omega), if_neg (by omega)]
  split
  · have hlead : n / 0x1000 = 0 := by omega
    rw [hlead]
    exact ⟨0xA0, 0xBF, rfl, by simp; omega, by simp; omega⟩
  split
  · have hlead : n / 0x1000 = 0x0D := by omega
    rw [hlead]
    exact ⟨0x80, 0x9F, rfl, by simp, by simp; omega⟩
  · rw [if_pos (by omega), Nat.add_sub_cancel_left]
    exact ⟨0x80, 0xBF, rfl, by simp, by simp; omega⟩

/-- A leading byte of four asks for three more, the first of them in the range of
the characters that are not written with fewer and exist. -/
theorem exists_lead_four {n : Nat} (hlow : 0x10000 ≤ n) (hhigh : n < 0x110000) :
    ∃ low high, lead? (UInt8.ofNat (0xF0 + n / 0x40000)) = some ⟨n / 0x40000, 3, low, high, 1⟩ ∧
      low.toNat ≤ 0x80 + n / 0x1000 % 0x40 ∧ 0x80 + n / 0x1000 % 0x40 ≤ high.toNat := by
  rw [lead?_ofNat (by omega), if_neg (by omega), if_neg (by omega), if_neg (by omega),
    if_neg (by omega), if_neg (by omega)]
  split
  · have hlead : n / 0x40000 = 0 := by omega
    rw [hlead]
    exact ⟨0x90, 0xBF, rfl, by simp; omega, by simp; omega⟩
  split
  · rw [Nat.add_sub_cancel_left]
    exact ⟨0x80, 0xBF, rfl, by simp, by simp; omega⟩
  · have hlead : n / 0x40000 = 4 := by omega
    rw [if_pos (by omega), hlead]
    exact ⟨0x80, 0x8F, rfl, by simp, by simp; omega⟩

/-- Wherever the bytes of a character stand they are read as that character. -/
theorem decodeFrom_encodeChar (c : Char) (valid : Nat) (done : List Char) (s : Bytes) :
    decodeFrom none valid done (encodeChar c ++ s) =
      decodeFrom none (valid + (encodeChar c).length) (c :: done) s := by
  have hc : Char.ofNat c.toNat = c := Char.ofNat_toNat c
  have hvalid : c.toNat < 0xD800 ∨ 0xDFFF < c.toNat ∧ c.toNat < 0x110000 := c.valid
  rw [encodeChar]
  generalize c.toNat = n at hc hvalid
  split
  · next h1 =>
    have hb : (UInt8.ofNat n).toNat = n := toNat_ofNat (by omega)
    have hlt : UInt8.ofNat n < 0x80 := by
      rw [UInt8.lt_iff_toNat_lt, hb]
      exact h1
    simp [decodeFrom, hlt, hb, hc]
  split
  · next h1 h2 =>
    have hlead : lead? (UInt8.ofNat (0xC0 + n / 0x40)) = some ⟨n / 0x40, 1, 0x80, 0xBF, 1⟩ := by
      rw [lead?_ofNat (by omega), if_neg (by omega), if_pos (by omega), Nat.add_sub_cancel_left]
    have htail : n / 0x40 * 0x40 + n % 0x40 = n := Nat.div_add_mod' n 0x40
    rw [List.cons_append, List.cons_append, List.nil_append,
      decodeFrom_lead (by rw [toNat_ofNat (by omega)]; omega) hlead,
      decodeFrom_tail (by omega) (by simp) (by simp; omega)]
    simp only [htail, hc]
    rfl
  split
  · next h1 h2 h3 =>
    obtain ⟨low, high, hlead, hlow, hhigh⟩ :=
      exists_lead_three (n := n) (by omega) h3 (by omega)
    have htail : (n / 0x1000 * 0x40 + n / 0x40 % 0x40) * 0x40 + n % 0x40 = n := by omega
    simp only [List.cons_append, List.nil_append]
    rw [decodeFrom_lead (by rw [toNat_ofNat (by omega)]; omega) hlead,
      decodeFrom_tail (by omega) hlow hhigh, if_neg (by simp),
      decodeFrom_tail (by omega) (by simp) (by simp; omega), if_pos (by simp)]
    simp only [htail, hc]
    rfl
  · next h1 h2 h3 =>
    obtain ⟨low, high, hlead, hlow, hhigh⟩ :=
      exists_lead_four (n := n) (by omega) (by omega)
    have htail : ((n / 0x40000 * 0x40 + n / 0x1000 % 0x40) * 0x40 + n / 0x40 % 0x40) * 0x40 +
        n % 0x40 = n := by omega
    simp only [List.cons_append, List.nil_append]
    rw [decodeFrom_lead (by rw [toNat_ofNat (by omega)]; omega) hlead,
      decodeFrom_tail (by omega) hlow hhigh, if_neg (by simp),
      decodeFrom_tail (by omega) (by simp) (by simp; omega), if_neg (by simp),
      decodeFrom_tail (by omega) (by simp) (by simp; omega), if_pos (by simp)]
    simp only [htail, hc]
    rfl

theorem decodeFrom_encode (cs : List Char) (valid : Nat) (done : List Char) :
    decodeFrom none valid done (encode cs) = .ok (done.reverse ++ cs) := by
  induction cs generalizing valid done with
  | nil => simp [decodeFrom]
  | cons c cs ih =>
      rw [encode_cons, decodeFrom_encodeChar, ih]
      simp

/-- A text is read back from its bytes. -/
theorem decode_encode (cs : List Char) : decode (encode cs) = .ok cs := by
  rw [decode, decodeFrom_encode, List.reverse_nil, List.nil_append]

theorem encodeChar_ne_nil (c : Char) : encodeChar c ≠ [] := by
  rw [encodeChar]
  split
  · exact List.cons_ne_nil _ _
  split
  · exact List.cons_ne_nil _ _
  split <;> exact List.cons_ne_nil _ _

theorem encodeChar_of_lt {c : Char} (h : c.toNat < 0x80) : encodeChar c = [UInt8.ofNat c.toNat] :=
  if_pos h

/-- The bytes of a character past ASCII are past ASCII. -/
theorem toNat_ge_of_mem_encodeChar {c : Char} (h : 0x80 ≤ c.toNat) {b : UInt8}
    (hb : b ∈ encodeChar c) : 0x80 ≤ b.toNat := by
  have hvalid : c.toNat < 0xD800 ∨ 0xDFFF < c.toNat ∧ c.toNat < 0x110000 := c.valid
  rw [encodeChar] at hb
  generalize c.toNat = n at h hb hvalid
  rw [if_neg (by omega)] at hb
  split at hb
  · simp only [List.mem_cons, List.not_mem_nil, or_false] at hb
    rcases hb with rfl | rfl <;> rw [toNat_ofNat (by omega)] <;> omega
  split at hb
  · simp only [List.mem_cons, List.not_mem_nil, or_false] at hb
    rcases hb with rfl | rfl | rfl <;> rw [toNat_ofNat (by omega)] <;> omega
  · simp only [List.mem_cons, List.not_mem_nil, or_false] at hb
    rcases hb with rfl | rfl | rfl | rfl <;> rw [toNat_ofNat (by omega)] <;> omega

end Utf8

end JsonRecords
