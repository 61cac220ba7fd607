import JsonRecords.Proofs.Json.Grammar

/-!
# Decoding well-formed text

The decoder settles every value of the grammar: what it makes of one depends on
nothing but its text and on whether it nests deeper than allowed
(`settles_value`).
-/

namespace JsonRecords

namespace Grammar

open Ascii Decode

/-! ## Numerals -/

/-- What comes next is no digit. -/
def NoDigit (s : Bytes) : Prop :=
  ∀ b ∈ s.head?, isDigit b = false

/-- What comes next does not continue a numeral. -/
def Stops (s : Bytes) : Prop :=
  ∀ b ∈ s.head?, isDigit b = false ∧ b ≠ point ∧ isExponentMark b = false

theorem Stops.of_ends {s : Bytes} (h : Ends s) : Stops s := by
  intro b hb
  exact forall_byte (P := fun b => isBlank b ∨ b = comma ∨ b = closeBracket ∨ b = closeBrace →
    isDigit b = false ∧ b ≠ point ∧ isExponentMark b = false) (by decide +kernel) b (h b hb)

theorem spanDigits_append {digits s : Bytes} (h : ∀ b ∈ digits, isDigit b = true)
    (hs : NoDigit s) : Lexeme.spanDigits (digits ++ s) = (digits, s) := by
  rw [Lexeme.spanDigits, List.takeWhile_append_of_pos h, List.dropWhile_append_of_pos h]
  cases s with
  | nil => simp
  | cons b s => simp [hs b rfl]

theorem whole_append (cut : Reason) {w s : Bytes} (h : IsWhole w) (hs : NoDigit s) :
    Lexeme.whole cut (w ++ s) = .ok (w, s) := by
  rcases h with rfl | ⟨⟨hne, hd⟩, hzero⟩
  · cases s with
    | nil => rfl
    | cons b s => simp [Lexeme.whole, hs b rfl]
  · obtain ⟨b, w, rfl⟩ := List.exists_cons_of_ne_nil hne
    obtain ⟨hb, hd⟩ := List.forall_mem_cons.mp hd
    have hne : b ≠ zero := fun h => hzero (congrArg some h)
    simp [Lexeme.whole, hne, hb, spanDigits_append hd hs]

theorem fraction_append (cut : Reason) {f : Bytes} (h : IsFraction f) :
    ∃ digits?, ∀ s, NoDigit s → (∀ b ∈ s.head?, b ≠ point) →
      Lexeme.fraction cut (f ++ s) = .ok (digits?, s) := by
  rcases h with rfl | ⟨digits, ⟨hne, hd⟩, rfl⟩
  · refine ⟨none, fun s _ hpoint => ?_⟩
    cases s with
    | nil => rfl
    | cons b s => simp [Lexeme.fraction, hpoint b rfl]
  · refine ⟨some digits, fun s hs _ => ?_⟩
    obtain ⟨d, ds, rfl⟩ := List.exists_cons_of_ne_nil hne
    rw [List.cons_append, Lexeme.fraction, if_pos rfl, spanDigits_append hd hs]

theorem exponent_append (cut : Reason) {e : Bytes} (h : IsExponent e) :
    ∃ exponent?, ∀ s, Stops s → Lexeme.exponent cut (e ++ s) = .ok (exponent?, s) := by
  rcases h with rfl | ⟨mark, sign, digits, hmark, hsign, ⟨hne, hd⟩, rfl⟩
  · refine ⟨none, fun s hs => ?_⟩
    cases s with
    | nil => rfl
    | cons b s => simp [Lexeme.exponent, (hs b rfl).2.2]
  · obtain ⟨d, ds, rfl⟩ := List.exists_cons_of_ne_nil hne
    obtain ⟨hd, hds⟩ := List.forall_mem_cons.mp hd
    refine ⟨some (sign == [minus], d :: ds), fun s hs => ?_⟩
    have hnodigit : NoDigit s := fun b hb => (hs b hb).1
    have hunsigned : Lexeme.exponentSign (d :: (ds ++ s)) = (false, d :: (ds ++ s)) := by
      have hne := forall_byte (P := fun b => isDigit b = true → b ≠ minus ∧ b ≠ plus)
        (by decide +kernel) d hd
      simp [Lexeme.exponentSign, hne]
    have hsign : Lexeme.exponentSign (sign ++ d :: (ds ++ s)) =
        (sign == [minus], d :: (ds ++ s)) := by
      simp only [List.mem_cons, List.not_mem_nil, or_false] at hsign
      rcases hsign with rfl | rfl | rfl
      · exact hunsigned
      · rfl
      · rfl
    have hdigits : Lexeme.exponentDigits cut (d :: (ds ++ s)) = .ok (d :: ds, s) := by
      simp [Lexeme.exponentDigits, hd, spanDigits_append hds hnodigit]
    rw [List.cons_append, List.append_assoc, List.cons_append, Lexeme.exponent, if_pos hmark, hsign]
    simp [hdigits, bind, Except.bind, pure, Except.pure]

/-- A numeral is read as far as it goes, whatever follows it. -/
theorem numeral_append (cut : Reason) {t : Bytes} (h : IsNumeral t) :
    ∃ n, ∀ s, Stops s → Lexeme.numeral cut (t ++ s) = .ok (n, s) := by
  obtain ⟨sign, whole, fraction, exponent, hsign, hw, hf, he, rfl⟩ := h
  obtain ⟨digits?, hfraction⟩ := fraction_append cut hf
  obtain ⟨exponent?, hexponent⟩ := exponent_append cut he
  refine ⟨⟨sign == [minus], whole, digits?, exponent?⟩, fun s hs => ?_⟩
  have hafter : ∀ b ∈ (exponent ++ s).head?, isDigit b = false ∧ b ≠ point := by
    rcases he with rfl | ⟨mark, esign, edigits, hmark, _, _, rfl⟩
    · exact fun b hb => ⟨(hs b hb).1, (hs b hb).2.1⟩
    · intro b hb
      obtain rfl : mark = b := Option.some_inj.mp hb
      exact forall_byte (P := fun b => isExponentMark b = true → isDigit b = false ∧ b ≠ point)
        (by decide +kernel) mark hmark
  have hnodigit : NoDigit (fraction ++ (exponent ++ s)) := by
    rcases hf with rfl | ⟨fdigits, _, rfl⟩
    · exact fun b hb => (hafter b hb).1
    · intro b hb
      obtain rfl : point = b := Option.some_inj.mp hb
      decide
  have hunsigned (negative : Bool) :
      Lexeme.unsigned cut negative (whole ++ (fraction ++ (exponent ++ s))) =
        .ok (⟨negative, whole, digits?, exponent?⟩, s) := by
    rw [Lexeme.unsigned, whole_append cut hw hnodigit]
    simp [hfraction _ (fun b hb => (hafter b hb).1) (fun b hb => (hafter b hb).2), hexponent s hs,
      bind, Except.bind, pure, Except.pure]
  simp only [List.mem_cons, List.not_mem_nil, or_false] at hsign
  simp only [List.append_assoc]
  rcases hsign with rfl | rfl
  · obtain ⟨b, w, rfl⟩ := List.exists_cons_of_ne_nil hw.digits.1
    have hne : b ≠ minus := forall_byte (P := fun b => isDigit b = true → b ≠ minus)
      (by decide +kernel) b (hw.digits.2 b List.mem_cons_self)
    rw [List.nil_append, List.cons_append, Lexeme.numeral, if_neg hne]
    exact hunsigned false
  · rw [List.singleton_append, Lexeme.numeral, if_pos rfl]
    exact hunsigned true

theorem number_append {t : Bytes} (h : IsNumeral t) :
    ∃ n? : Option Number, ∀ s, Ends s →
      (Lexeme.number (t ++ s)).toOption = n?.map fun n => (n, s) := by
  obtain ⟨n, hn⟩ := numeral_append .endInValue h
  cases hrange : n.exponent.bind fun e =>
      if e.1 || n.isZero then none else Lexeme.pastRange 0 e.2 with
  | some more =>
      refine ⟨none, fun s hs => ?_⟩
      rw [Lexeme.number, hn s (.of_ends hs)]
      simp only [bind, Except.bind, hrange]
      rfl
  | none =>
      refine ⟨n.toNumber?, fun s hs => ?_⟩
      rw [Lexeme.number, hn s (.of_ends hs)]
      simp only [bind, Except.bind, hrange]
      cases n.toNumber? <;> rfl

/-! ## Strings -/

theorem escaped?_of_letter {e : UInt8}
    (h : e ∈ [quote, backslash, slash, letterB, letterF, letterN, letterR, letterT]) :
    ∃ c, Lexeme.escaped? e = some c ∧ e ≠ letterU := by
  have hall := forall_byte (P := fun e =>
    e ∈ [quote, backslash, slash, letterB, letterF, letterN, letterR, letterT] →
      (Lexeme.escaped? e).isSome ∧ e ≠ letterU) (by decide +kernel) e h
  obtain ⟨c, hc⟩ := Option.isSome_iff_exists.mp hall.1
  exact ⟨c, hc, hall.2⟩

theorem hex4_append {a b c d : UInt8} (h : ∀ x ∈ [a, b, c, d], (hexValue? x).isSome) :
    ∃ n, ∀ s, Lexeme.hex4 (a :: b :: c :: d :: s) = .ok (n, s) := by
  simp only [List.forall_mem_cons] at h
  obtain ⟨i, hi⟩ := Option.isSome_iff_exists.mp h.1
  obtain ⟨j, hj⟩ := Option.isSome_iff_exists.mp h.2.1
  obtain ⟨k, hk⟩ := Option.isSome_iff_exists.mp h.2.2.1
  obtain ⟨l, hl⟩ := Option.isSome_iff_exists.mp h.2.2.2.1
  refine ⟨((i * 16 + j) * 16 + k) * 16 + l, fun s => ?_⟩
  simp [Lexeme.hex4, Lexeme.hex4?, hi, hj, hk, hl]

theorem content_cons (p : Piece) (pieces : List Piece) :
    content (p :: pieces) = p.bytes ++ content pieces :=
  List.flatMap_cons

theorem escape_letterU (s : Bytes) : Lexeme.escape (letterU :: s) = Lexeme.numbered s := by
  rw [Lexeme.escape, if_pos rfl]

/-- What has to follow the first half of a surrogate pair. -/
def secondHalf (n : Nat) (s : Bytes) : Except Fault (Bytes × Nat) := do
  let s ← Lexeme.pairByte backslash s
  let s ← Lexeme.pairByte letterU s
  let second ← Lexeme.hex4 s
  if Lexeme.isLowSurrogate second.1 then
    return (Utf8.encodeChar (Lexeme.joinSurrogates n second.1), 11)
  else throw (.here .loneSurrogate second.2)

theorem escape_numbered {a b c d : UInt8} {n : Nat}
    (hn : ∀ s, Lexeme.hex4 (a :: b :: c :: d :: s) = .ok (n, s)) (s : Bytes) :
    Lexeme.escape ([letterU, a, b, c, d] ++ s) =
      if Lexeme.isLowSurrogate n then throw (.here .loneSurrogate s)
      else if Lexeme.isHighSurrogate n then secondHalf n s
      else return (Utf8.encodeChar (Char.ofNat n), 5) := by
  rw [List.cons_append, escape_letterU, Lexeme.numbered, List.cons_append, List.cons_append,
    List.cons_append, List.cons_append, hn]
  rfl

/-- The first half of a surrogate pair is refused in front of anything but an escape
by number that is the second half. -/
theorem secondHalf_cases (n : Nat) (pieces : List Piece) :
    (∀ s, (secondHalf n (content pieces ++ quote :: s)).toOption = none) ∨
    ∃ bytes second rest, pieces = second :: rest ∧ second.bytes.length = 6 ∧
      ∀ s, secondHalf n (second.bytes ++ s) = .ok (bytes, 11) := by
  match pieces with
  | [] =>
      have hquote : quote ≠ backslash := by decide
      left
      intro s
      simp [secondHalf, content, Lexeme.pairByte, hquote, bind, Except.bind, Except.toOption]
  | .plain x hx :: rest =>
      left
      intro s
      rw [content_cons]
      simp [secondHalf, Piece.bytes, Lexeme.pairByte, hx.2.1, bind, Except.bind, Except.toOption]
  | .letter e he :: rest =>
      obtain ⟨_, _, hu⟩ := escaped?_of_letter he
      left
      intro s
      rw [content_cons]
      simp [secondHalf, Piece.bytes, Lexeme.pairByte, hu, bind, Except.bind, Except.toOption]
  | .number i j k l h :: rest =>
      obtain ⟨m, hm⟩ := hex4_append h
      by_cases hpair : Lexeme.isLowSurrogate m = true
      · right
        refine ⟨Utf8.encodeChar (Lexeme.joinSurrogates n m), _, rest, rfl, rfl, fun s => ?_⟩
        simp [secondHalf, Piece.bytes, Lexeme.pairByte, hm, hpair, bind, Except.bind, pure,
          Except.pure]
      · left
        intro s
        rw [content_cons]
        simp [secondHalf, Piece.bytes, Lexeme.pairByte, hm, hpair, bind, Except.bind, throw,
          throwThe, MonadExceptOf.throw, Except.toOption]

/-- An escape by number is refused, or it is taken alone, or together with the
escape after it. -/
theorem escape_number {a b c d : UInt8} (h : ∀ x ∈ [a, b, c, d], (hexValue? x).isSome)
    (pieces : List Piece) :
    (∀ s, (Lexeme.escape ([letterU, a, b, c, d] ++ (content pieces ++ quote :: s))).toOption =
      none) ∨
    (∃ bytes, ∀ s, Lexeme.escape ([letterU, a, b, c, d] ++ s) = .ok (bytes, 5)) ∨
    ∃ bytes second rest, pieces = second :: rest ∧ second.bytes.length = 6 ∧
      ∀ s, Lexeme.escape (([letterU, a, b, c, d] ++ second.bytes) ++ s) = .ok (bytes, 11) := by
  obtain ⟨n, hn⟩ := hex4_append h
  by_cases hlow : Lexeme.isLowSurrogate n = true
  · left
    intro s
    rw [escape_numbered hn, if_pos hlow]
    rfl
  by_cases hhigh : Lexeme.isHighSurrogate n = true
  · rcases secondHalf_cases n pieces with hnone | ⟨bytes, second, rest, hpieces, hlength, htwo⟩
    · left
      intro s
      rw [escape_numbered hn, if_neg hlow, if_pos hhigh, hnone]
    · refine .inr (.inr ⟨bytes, second, rest, hpieces, hlength, fun s => ?_⟩)
      rw [List.append_assoc, escape_numbered hn, if_neg hlow, if_pos hhigh, htwo]
  · refine .inr (.inl ⟨Utf8.encodeChar (Char.ofNat n), fun s => ?_⟩)
    rw [escape_numbered hn, if_neg hlow, if_neg hhigh]
    rfl

/-- The content of a string up to its closing quote has a meaning, or is refused,
whatever follows the quote. -/
theorem content_append (pieces : List Piece) (done : Bytes) :
    ∃ bytes? : Option Bytes, ∀ s,
      (Lexeme.content 0 done (content pieces ++ quote :: s)).toOption =
        bytes?.map fun bytes => (bytes, s) := by
  match pieces with
  | [] =>
      refine ⟨some done.reverse, fun s => ?_⟩
      rw [content, List.flatMap_nil, List.nil_append, Lexeme.content_quote]
      rfl
  | .plain b h :: pieces =>
      obtain ⟨bytes?, hbytes⟩ := content_append pieces (b :: done)
      refine ⟨bytes?, fun s => ?_⟩
      rw [← hbytes, content_cons, List.append_assoc]
      exact congrArg _ (Lexeme.content_plain (List.forall_mem_singleton.mpr h) done _)
  | .letter e h :: pieces =>
      obtain ⟨c, hc, hu⟩ := escaped?_of_letter h
      obtain ⟨bytes?, hbytes⟩ := content_append pieces (c :: done)
      refine ⟨bytes?, fun s => ?_⟩
      rw [← hbytes, content_cons, List.append_assoc]
      exact congrArg _ (Lexeme.content_escaped? hu hc done _)
  | .number a b c d h :: pieces =>
      rcases escape_number h pieces with hnone | ⟨bytes, hone⟩ |
        ⟨bytes, second, rest, rfl, hlength, htwo⟩
      · refine ⟨none, fun s => ?_⟩
        have hne : backslash ≠ quote := by decide
        rw [content_cons, List.append_assoc]
        change (Lexeme.content 0 done (backslash :: ([letterU, a, b, c, d] ++ _))).toOption = _
        rw [Lexeme.content, if_neg hne, if_pos rfl, toOption_bind, hnone]
        rfl
      · obtain ⟨bytes?, hbytes⟩ := content_append pieces (bytes.reverse ++ done)
        refine ⟨bytes?, fun s => ?_⟩
        rw [← hbytes, content_cons, List.append_assoc]
        exact congrArg _ (Lexeme.content_escape (hone _) done)
      · obtain ⟨bytes?, hbytes⟩ := content_append rest (bytes.reverse ++ done)
        refine ⟨bytes?, fun s => ?_⟩
        have htaken : ([letterU, a, b, c, d] ++ second.bytes).length = 11 := by
          rw [List.length_append, hlength]
          rfl
        rw [← hbytes, content_cons, content_cons, List.append_assoc, List.append_assoc]
        change (Lexeme.content 0 done
          (backslash :: (([letterU, a, b, c, d] ++ (second.bytes ++ _))))).toOption = _
        rw [← List.append_assoc]
        exact congrArg _ (Lexeme.content_escape (htaken ▸ htwo _) done)
termination_by pieces.length

theorem string_append (pieces : List Piece) :
    ∃ s? : Option String, ∀ s,
      (Lexeme.string (content pieces ++ quote :: s)).toOption = s?.map fun text => (text, s) := by
  obtain ⟨bytes?, hbytes⟩ := content_append pieces []
  cases bytes? with
  | none =>
      refine ⟨none, fun s => ?_⟩
      rw [Lexeme.string, toOption_bind, hbytes]
      rfl
  | some bytes =>
      cases hdecode : Utf8.decode bytes with
      | error f =>
          refine ⟨none, fun s => ?_⟩
          rw [Lexeme.string, toOption_bind, hbytes]
          simp [hdecode, throw, throwThe, MonadExceptOf.throw, Except.toOption]
      | ok cs =>
          refine ⟨some (.ofList cs), fun s => ?_⟩
          rw [Lexeme.string, toOption_bind, hbytes]
          simp [hdecode, pure, Except.pure, Except.toOption]

/-! ## Values -/

theorem word_append (letters s : Bytes) : Lexeme.word letters (letters ++ s) = .ok s := by
  induction letters with
  | nil => cases s <;> rfl
  | cons l letters ih => rw [List.cons_append, Lexeme.word, if_pos rfl, ih]

/-- A value is read from its first byte on. -/
theorem valueWith_gap {bound : Nat} {inner : Option (Bytes → Except Fault (Json × Bytes))}
    {gap : Bytes} (hgap : Blank gap) {b : UInt8} (hb : isBlank b = false) (s : Bytes) :
    valueWith bound inner (gap ++ b :: s) = valueWith bound inner (b :: s) := by
  rw [valueWith, valueWith, skipBlank_append hgap, skipBlank_of_not hb]

/-- A word that is known by its first byte means one value. -/
theorem settles_literal {first : UInt8} {tail : Bytes} {v : Json} (hfirst : isBlank first = false)
    (hread : ∀ bound inner s, valueWith bound inner (first :: s) =
      Lexeme.word tail s >>= fun s => Except.ok (v, s)) :
    ∃ v? : Option Json, ∀ bound inner, Settles (valueWith bound inner) (first :: tail) v? := by
  refine ⟨some v, fun bound inner gap rest hgap _ => ?_⟩
  rw [List.cons_append, valueWith_gap hgap hfirst, hread, word_append]
  rfl

/-- A minus sign or a digit begins a number. -/
theorem valueWith_start {b : UInt8} (hb : b = minus ∨ isDigit b = true) (bound : Nat)
    (inner : Option (Bytes → Except Fault (Json × Bytes))) (s : Bytes) :
    isBlank b = false ∧ valueWith bound inner (b :: s) =
      Lexeme.number (b :: s) >>= fun r => Except.ok (Json.number r.1, r.2) := by
  have hnot := forall_byte (P := fun b => b = minus ∨ isDigit b = true → isBlank b = false ∧
    b ∉ [letterN, letterT, letterF, quote, openBracket, openBrace]) (by decide +kernel) b hb
  simp only [List.mem_cons, List.not_mem_nil, or_false, not_or] at hnot
  obtain ⟨hblank, hn, ht, hf, hquote, hlist, hobject⟩ := hnot
  refine ⟨hblank, ?_⟩
  simp only [valueWith, skipBlank_of_not hblank, hn, ht, hf, hquote, hlist, hobject, if_false,
    Bool.or_eq_true, decide_eq_true_eq, hb, if_true]
  rfl

theorem settles_scalar {t : Bytes} (h : Scalar t) :
    ∃ v? : Option Json, ∀ bound inner, Settles (valueWith bound inner) t v? := by
  cases h with
  | null => exact settles_literal (by decide) fun _ _ _ => rfl
  | yes => exact settles_literal (by decide) fun _ _ _ => rfl
  | no => exact settles_literal (by decide) fun _ _ _ => rfl
  | string pieces =>
      obtain ⟨text?, htext⟩ := string_append pieces
      refine ⟨text?.map .string, fun bound inner gap rest hgap _ => ?_⟩
      rw [List.cons_append, List.append_assoc, valueWith_gap hgap (by decide)]
      exact toOption_bind_ok (htext rest) Json.string
  | number h =>
      obtain ⟨n?, hn⟩ := number_append h
      obtain ⟨b, s, rfl⟩ := List.exists_cons_of_ne_nil h.ne_nil
      refine ⟨n?.map .number, fun bound inner gap rest hgap hrest => ?_⟩
      obtain ⟨hblank, hread⟩ := valueWith_start h.start bound inner (s ++ rest)
      rw [List.cons_append, valueWith_gap hgap hblank, hread]
      exact toOption_bind_ok (hn rest hrest) Json.number

/-- A list means its items, if each of them means something. -/
theorem settles_array {item : Bytes → Except Fault (Json × Bytes)} {texts : List Bytes}
    {body : Bytes} {meaning : Bytes → Option Json} (bound : Nat) (hr : Row true texts body)
    (hbound : body.length < bound) (hbegin : ∀ t ∈ texts, Begins t)
    (h : ∀ t ∈ texts, Settles item t (meaning t)) :
    Settles (valueWith bound (some item)) (openBracket :: (body ++ [closeBracket]))
      ((texts.mapM meaning).map .array) := by
  intro gap rest hgap _
  have hitems : List.Forall₂ (Settles item) texts (texts.map meaning) :=
    List.forall₂_map_right_iff.mpr (List.forall₂_same.mpr h)
  have hrow := items_row hr hitems hbegin hbound [] rest
  have hopen : isBlank openBracket = false := by decide
  rw [List.cons_append, List.append_assoc, valueWith_gap hgap hopen]
  rw [List.mapM_map] at hrow
  exact toOption_bind_ok hrow Json.array

/-- A member puts its value under its key, if both mean something. -/
theorem updates_member {item : Bytes → Except Fault (Json × Bytes)} {m : Member}
    {name? : Option String} {v? : Option Json}
    (hname : ∀ s, (Lexeme.string (content m.key ++ quote :: s)).toOption =
      name?.map fun text => (text, s))
    (h : Settles item m.value v?) :
    Updates (keyed item) m.text fun entries => name?.bind fun key =>
      v?.map fun v => Keyed.set key v entries := by
  refine ⟨_, rfl, fun entries rest hrest => ?_⟩
  have hread := h m.after rest m.blank_after hrest
  rw [List.append_assoc, List.cons_append, toOption_bind, hname]
  cases name? with
  | none => rfl
  | some key =>
      change (keyed item entries key _).toOption = _
      rw [List.append_assoc, List.cons_append, List.append_assoc, keyed, colon_gap m.blank_before]
      exact toOption_bind_ok hread fun v => Keyed.set key v entries

/-- An object means its members, if each of them means something. -/
theorem settles_object {item : Bytes → Except Fault (Json × Bytes)} {members : List Member}
    {body : Bytes} {meaning : Member → Option Json} {name : List Piece → Option String}
    (bound : Nat) (hr : Row true (members.map Member.text) body) (hbound : body.length < bound)
    (hname : ∀ pieces s, (Lexeme.string (content pieces ++ quote :: s)).toOption =
      (name pieces).map fun text => (text, s))
    (h : ∀ m ∈ members, Settles item m.value (meaning m)) :
    Settles (valueWith bound (some item)) (openBrace :: (body ++ [closeBrace]))
      ((members.foldlM (fun entries m => (name m.key).bind fun key =>
        (meaning m).map fun v => Keyed.set key v entries) []).map .object) := by
  intro gap rest hgap _
  have hupdates : List.Forall₂ (Updates (keyed item)) (members.map Member.text)
      (members.map fun m entries => (name m.key).bind fun key =>
        (meaning m).map fun v => Keyed.set key v entries) := by
    refine List.forall₂_map_left_iff.mpr (List.forall₂_map_right_iff.mpr (List.forall₂_same.mpr ?_))
    exact fun m hm => updates_member (hname m.key) (h m hm)
  have hrow := members_row hr hupdates hbound [] rest
  have hopen : isBlank openBrace = false := by decide
  rw [List.cons_append, List.append_assoc, valueWith_gap hgap hopen]
  rw [List.foldlM_map] at hrow
  exact toOption_bind_ok hrow Json.object

/-- Containers are refused where no nesting is allowed. -/
theorem settles_tooDeep {b : UInt8} (hb : b = openBracket ∨ b = openBrace) (bound : Nat)
    (s : Bytes) : Settles (valueWith bound none) (b :: s) none := by
  intro gap rest hgap _
  rcases hb with rfl | rfl
  · rw [List.cons_append, valueWith_gap hgap (by decide), valueWith, skipBlank_of_not (by decide)]
    rfl
  · rw [List.cons_append, valueWith_gap hgap (by decide), valueWith, skipBlank_of_not (by decide)]
    rfl

/-! ## Levels of nesting -/

/-- A meaning that is withheld from what nests deeper than allowed. -/
def within {α : Type} (levels depth : Nat) (v? : Option α) : Option α :=
  if depth ≤ levels then v? else none

theorem within_max {α : Type} (levels m n : Nat) (v? : Option α) :
    within levels (max m n) v? = within levels m (within levels n v?) := by
  rw [within, within, within, ← ite_and]
  exact if_congr Nat.max_le rfl rfl

theorem mapM_within {α β : Type} (levels : Nat) (depth : α → Nat) (meaning : α → Option β)
    (as : List α) :
    as.mapM (fun a => within levels (depth a) (meaning a)) =
      within levels (deepest (as.map depth)) (as.mapM meaning) := by
  induction as with
  | nil => simp [within, deepest]
  | cons a as ih =>
      rw [List.mapM_cons, List.mapM_cons, ih, List.map_cons, deepest_cons, within_max]
      by_cases ha : depth a ≤ levels
      · by_cases has : deepest (as.map depth) ≤ levels <;> simp [within, ha, has]
      · simp [within, ha]

theorem foldlM_within {α β κ σ : Type} (levels : Nat) (depth : α → Nat) (meaning : α → Option β)
    (name : α → Option κ) (put : κ → β → σ → σ) (as : List α) (state : σ) :
    as.foldlM (fun state a => (name a).bind fun key =>
        (within levels (depth a) (meaning a)).map fun v => put key v state) state =
      within levels (deepest (as.map depth))
        (as.foldlM (fun state a => (name a).bind fun key =>
          (meaning a).map fun v => put key v state) state) := by
  induction as generalizing state with
  | nil => simp [within, deepest]
  | cons a as ih =>
      rw [List.foldlM_cons, List.foldlM_cons, List.map_cons, deepest_cons, within_max]
      simp only [ih]
      by_cases ha : depth a ≤ levels
      · by_cases has : deepest (as.map depth) ≤ levels <;> simp [within, ha, has]
      · simp [within, ha]

theorem map_within {α β : Type} (levels depth : Nat) (v? : Option α) (f : α → β) :
    (within levels depth v?).map f = within (levels + 1) (depth + 1) (v?.map f) := by
  by_cases h : depth ≤ levels <;> simp [within, h]

/-- The items of a container are settled below it, at any bound on nesting. -/
theorem exists_meaning (texts : List Bytes) {depth : Bytes → Nat}
    (h : ∀ t ∈ texts, ∃ v? : Option Json, ∀ levels bound, t.length < bound →
      Settles (value bound levels) t (within levels (depth t) v?)) :
    ∃ meaning : Bytes → Option Json, ∀ t ∈ texts, ∀ levels bound, t.length < bound →
      Settles (value bound levels) t (within levels (depth t) (meaning t)) := by
  have hall : ∀ t, ∃ v? : Option Json, t ∈ texts → ∀ levels bound, t.length < bound →
      Settles (value bound levels) t (within levels (depth t) v?) := by
    intro t
    by_cases ht : t ∈ texts
    · obtain ⟨v?, hv⟩ := h t ht
      exact ⟨v?, fun _ => hv⟩
    · exact ⟨none, fun hmem => absurd hmem ht⟩
  exact Classical.skolem.mp hall

/-- The decoder makes the same of a value at every bound on nesting that it keeps, and
refuses it at every other. -/
theorem settles_value {d : Nat} {t : Bytes} (h : Nests d t) :
    ∃ v? : Option Json, ∀ levels bound, t.length < bound →
      Settles (value bound levels) t (within levels d v?) := by
  obtain ⟨name, hname⟩ := Classical.skolem.mp string_append
  induction h with
  | scalar h =>
      obtain ⟨v?, hv⟩ := settles_scalar h
      refine ⟨v?, fun levels bound _ => ?_⟩
      rw [within, if_pos (Nat.zero_le _)]
      cases levels <;> exact hv _ _
  | @array texts body depth hr h ih =>
      obtain ⟨meaning, hmeaning⟩ := exists_meaning texts ih
      refine ⟨(texts.mapM meaning).map .array, fun levels bound hbound => ?_⟩
      simp only [List.length_cons, List.length_append] at hbound
      cases levels with
      | zero => exact settles_tooDeep (.inl rfl) bound _
      | succ n =>
          have hitems : ∀ t ∈ texts, Settles (value bound n) t (within n (depth t) (meaning t)) :=
            fun t ht => hmeaning t ht n bound
              (Nat.lt_of_le_of_lt (hr.length_le_of_mem ht) (by omega))
          have hlist := settles_array bound hr (by omega) (fun t ht => (h t ht).begins) hitems
          rwa [mapM_within, map_within] at hlist
  | @object members body depth hr h ih =>
      obtain ⟨meaning, hmeaning⟩ := exists_meaning (members.map Member.value)
        (List.forall_mem_map.mpr ih)
      refine ⟨(members.foldlM (fun entries m => (name m.key).bind fun key =>
        (meaning m.value).map fun v => Keyed.set key v entries) []).map .object,
        fun levels bound hbound => ?_⟩
      simp only [List.length_cons, List.length_append] at hbound
      cases levels with
      | zero => exact settles_tooDeep (.inr rfl) bound _
      | succ n =>
          have hitems : ∀ m ∈ members, Settles (value bound n) m.value
              (within n (depth m.value) (meaning m.value)) := by
            intro m hm
            have hlength := hr.length_le_of_mem (List.mem_map_of_mem hm)
            simp only [Member.text, List.length_cons, List.length_append] at hlength
            exact hmeaning m.value (List.mem_map_of_mem hm) n bound (by omega)
          have hobject := settles_object bound hr (by omega) hname hitems
          have hfold := foldlM_within n (fun m : Member => depth m.value)
            (fun m => meaning m.value) (fun m => name m.key) Keyed.set members []
          rwa [hfold, map_within] at hobject

/-- A well-formed text means the same at every bound on nesting that it keeps. -/
theorem decode_nests {d : Nat} {t : Bytes} (h : Nests d t) :
    ∃ v? : Option Json, ∀ levels, (Json.decode levels t).toOption = within levels d v? := by
  obtain ⟨v?, hv⟩ := settles_value h
  refine ⟨v?, fun levels => ?_⟩
  have hbound : t.length < ([] ++ (t ++ [])).length + 1 := by simp
  have hwhole := whole_settles (fun bound => value bound levels) blank_nil blank_nil
    (hv levels _ hbound)
  rwa [List.nil_append, List.append_nil] at hwhole

end Grammar

end JsonRecords
