import JsonRecords.Proofs.Json.Row
import JsonRecords.Proofs.Json.Strings

/-!
# The grammar of JSON

Which texts are JSON values, and how deep their containers nest: `Nests d t` says
that `t` is a value, without blanks around it, with exactly `d` containers nested in
each other. Nothing is said about what a value means; a well-formed text may still
hold half a surrogate pair or a number out of range.
-/

namespace JsonRecords

namespace Grammar

open Ascii Decode

/-! ## Scalars -/

/-- A piece of the content of a string: a byte that stands for itself, an escape of
one letter, or an escape by number. -/
inductive Piece where
  | plain (b : UInt8) (h : Lexeme.IsPlain b)
  | letter (e : UInt8)
      (h : e ∈ [quote, backslash, slash, letterB, letterF, letterN, letterR, letterT])
  | number (a b c d : UInt8) (h : ∀ x ∈ [a, b, c, d], (hexValue? x).isSome)

def Piece.bytes : Piece → Bytes
  | plain b _ => [b]
  | letter e _ => [backslash, e]
  | number a b c d _ => [backslash, letterU, a, b, c, d]

/-- The content of a string, as it stands between the quotes. -/
def content (pieces : List Piece) : Bytes :=
  pieces.flatMap Piece.bytes

def IsDigits (t : Bytes) : Prop :=
  t ≠ [] ∧ ∀ b ∈ t, isDigit b = true

/-- The digits before the point: a zero alone, or digits that do not begin with
one. -/
def IsWhole (t : Bytes) : Prop :=
  t = [zero] ∨ IsDigits t ∧ t.head? ≠ some zero

def IsFraction (t : Bytes) : Prop :=
  t = [] ∨ ∃ digits, IsDigits digits ∧ t = point :: digits

def IsExponent (t : Bytes) : Prop :=
  t = [] ∨ ∃ mark sign digits, isExponentMark mark = true ∧ sign ∈ [[], [plus], [minus]] ∧
    IsDigits digits ∧ t = mark :: (sign ++ digits)

def IsNumeral (t : Bytes) : Prop :=
  ∃ sign whole fraction exponent, sign ∈ [[], [minus]] ∧ IsWhole whole ∧ IsFraction fraction ∧
    IsExponent exponent ∧ t = sign ++ (whole ++ (fraction ++ exponent))

/-- A value that is no container. -/
inductive Scalar : Bytes → Prop where
  | null : Scalar (letterN :: Lexeme.nullTail)
  | yes : Scalar (letterT :: Lexeme.trueTail)
  | no : Scalar (letterF :: Lexeme.falseTail)
  | string (pieces : List Piece) : Scalar (quote :: (content pieces ++ [quote]))
  | number {t : Bytes} (h : IsNumeral t) : Scalar t

/-! ## Containers -/

/-- A member of an object: a key, a colon between blanks, and a value. -/
structure Member where
  key : List Piece
  before : Bytes
  after : Bytes
  value : Bytes
  blank_before : Blank before
  blank_after : Blank after

def Member.text (m : Member) : Bytes :=
  quote :: (content m.key ++ quote :: (m.before ++ Ascii.colon :: (m.after ++ m.value)))

/-- The greatest of some depths, zero if there are none. -/
def deepest (depths : List Nat) : Nat :=
  depths.foldr max 0

/-- A text is a value with exactly so many containers nested in each other. The
depths of its items are given by a function of their texts. -/
inductive Nests : Nat → Bytes → Prop where
  | scalar {t : Bytes} (h : Scalar t) : Nests 0 t
  | array {texts : List Bytes} {body : Bytes} (depth : Bytes → Nat) (hr : Row true texts body)
      (h : ∀ t ∈ texts, Nests (depth t) t) :
      Nests (deepest (texts.map depth) + 1) (openBracket :: (body ++ [closeBracket]))
  | object {members : List Member} {body : Bytes} (depth : Bytes → Nat)
      (hr : Row true (members.map Member.text) body)
      (h : ∀ m ∈ members, Nests (depth m.value) m.value) :
      Nests (deepest (members.map fun m => depth m.value) + 1)
        (openBrace :: (body ++ [closeBrace]))

theorem deepest_le_iff {depths : List Nat} {n : Nat} :
    deepest depths ≤ n ↔ ∀ d ∈ depths, d ≤ n := by
  induction depths with
  | nil => simp [deepest]
  | cons d depths ih =>
      rw [List.forall_mem_cons, ← ih]
      exact Nat.max_le

theorem lt_deepest_iff {depths : List Nat} {n : Nat} :
    n < deepest depths ↔ ∃ d ∈ depths, n < d := by
  rw [← Nat.not_le, deepest_le_iff]
  simp only [not_forall, Nat.not_le, exists_prop]

theorem deepest_cons (d : Nat) (depths : List Nat) :
    deepest (d :: depths) = max d (deepest depths) := rfl

theorem deepest_append (as bs : List Nat) :
    deepest (as ++ bs) = max (deepest as) (deepest bs) := by
  induction as with
  | nil => simp [deepest]
  | cons a as ih => rw [List.cons_append, deepest_cons, deepest_cons, ih, Nat.max_assoc]

/-! ## Where a value begins and ends -/

/-- A statement about single bytes holds if it holds of each of them. -/
theorem forall_byte {P : UInt8 → Prop} [DecidablePred P] (h : ∀ n : Fin 0x100, P (.ofFin n))
    (b : UInt8) : P b :=
  h b.toFin

/-- A visible ASCII character. -/
def IsMark (b : UInt8) : Prop :=
  0x20 < b ∧ b < 0x7F

instance (b : UInt8) : Decidable (IsMark b) :=
  inferInstanceAs (Decidable (_ ∧ _))

/-- A byte that occurs in numerals. -/
def InNumeral (b : UInt8) : Prop :=
  isDigit b = true ∨ isExponentMark b = true ∨ b ∈ [plus, minus, point]

instance (b : UInt8) : Decidable (InNumeral b) :=
  inferInstanceAs (Decidable (_ ∨ _))

theorem IsMark.not_blank {b : UInt8} : IsMark b → isBlank b = false :=
  forall_byte (P := fun b => IsMark b → isBlank b = false) (by decide +kernel) b

theorem InNumeral.mark {b : UInt8} : InNumeral b → IsMark b ∧ b ≠ closeBracket :=
  forall_byte (P := fun b => InNumeral b → IsMark b ∧ b ≠ closeBracket) (by decide +kernel) b

theorem IsDigits.inNumeral {t : Bytes} (h : IsDigits t) : ∀ b ∈ t, InNumeral b :=
  fun b hb => .inl (h.2 b hb)

theorem IsWhole.digits {t : Bytes} (h : IsWhole t) : IsDigits t := by
  rcases h with rfl | ⟨h, _⟩
  · exact ⟨List.cons_ne_nil _ _, List.forall_mem_singleton.mpr rfl⟩
  · exact h

theorem IsNumeral.ne_nil {t : Bytes} (h : IsNumeral t) : t ≠ [] := by
  obtain ⟨sign, whole, fraction, exponent, _, hw, _, _, rfl⟩ := h
  simp [hw.digits.1]

theorem IsNumeral.inNumeral {t : Bytes} (h : IsNumeral t) : ∀ b ∈ t, InNumeral b := by
  obtain ⟨sign, whole, fraction, exponent, hs, hw, hf, he, rfl⟩ := h
  have hsign : ∀ b ∈ sign, InNumeral b := by
    simp only [List.mem_cons, List.not_mem_nil, or_false] at hs
    rcases hs with rfl | rfl <;> simp [InNumeral]
  have hfraction : ∀ b ∈ fraction, InNumeral b := by
    rcases hf with rfl | ⟨digits, hd, rfl⟩
    · simp
    · exact List.forall_mem_cons.mpr ⟨by decide, hd.inNumeral⟩
  have hexponent : ∀ b ∈ exponent, InNumeral b := by
    rcases he with rfl | ⟨mark, sign, digits, hm, hs, hd, rfl⟩
    · simp
    · have hsign : ∀ b ∈ sign, InNumeral b := by
        simp only [List.mem_cons, List.not_mem_nil, or_false] at hs
        rcases hs with rfl | rfl | rfl <;> simp [InNumeral]
      refine List.forall_mem_cons.mpr ⟨.inr (.inl hm), fun b hb => ?_⟩
      rcases List.mem_append.mp hb with hb | hb
      · exact hsign b hb
      · exact hd.inNumeral b hb
  intro b hb
  simp only [List.mem_append] at hb
  rcases hb with hb | hb | hb | hb
  · exact hsign b hb
  · exact hw.digits.inNumeral b hb
  · exact hfraction b hb
  · exact hexponent b hb

theorem IsNumeral.start {b : UInt8} {s : Bytes} (h : IsNumeral (b :: s)) :
    b = minus ∨ isDigit b = true := by
  obtain ⟨sign, whole, fraction, exponent, hs, hw, _, _, ht⟩ := h
  simp only [List.mem_cons, List.not_mem_nil, or_false] at hs
  rcases hs with rfl | rfl
  · obtain ⟨c, w, rfl⟩ := List.exists_cons_of_ne_nil hw.digits.1
    obtain ⟨rfl, _⟩ := List.cons.inj ht
    exact .inr (hw.digits.2 b List.mem_cons_self)
  · exact .inl (List.cons.inj ht).1

theorem Nests.first {d : Nat} {t : Bytes} (h : Nests d t) :
    ∃ b s, t = b :: s ∧ IsMark b ∧ b ≠ closeBracket := by
  cases h with
  | array _ _ _ => exact ⟨_, _, rfl, by decide, by decide⟩
  | object _ _ _ => exact ⟨_, _, rfl, by decide, by decide⟩
  | scalar h =>
      cases h with
      | null => exact ⟨_, _, rfl, by decide, by decide⟩
      | yes => exact ⟨_, _, rfl, by decide, by decide⟩
      | no => exact ⟨_, _, rfl, by decide, by decide⟩
      | string pieces => exact ⟨_, _, rfl, by decide, by decide⟩
      | number h =>
          obtain ⟨b, s, rfl⟩ := List.exists_cons_of_ne_nil h.ne_nil
          exact ⟨b, s, rfl, (h.inNumeral b List.mem_cons_self).mark⟩

theorem Nests.begins {d : Nat} {t : Bytes} (h : Nests d t) : Begins t := by
  obtain ⟨b, s, rfl, hmark, hclose⟩ := h.first
  exact ⟨b, s, rfl, hmark.not_blank, hclose⟩

theorem Nests.last {d : Nat} {t : Bytes} (h : Nests d t) : ∃ s b, t = s ++ [b] ∧ IsMark b := by
  cases h with
  | array _ _ _ => exact ⟨_ :: _, _, rfl, by decide⟩
  | object _ _ _ => exact ⟨_ :: _, _, rfl, by decide⟩
  | scalar h =>
      cases h with
      | null => exact ⟨[letterN, 0x75, 0x6C], 0x6C, rfl, by decide⟩
      | yes => exact ⟨[letterT, 0x72, 0x75], 0x65, rfl, by decide⟩
      | no => exact ⟨[letterF, 0x61, 0x6C, 0x73], 0x65, rfl, by decide⟩
      | string pieces => exact ⟨_ :: _, _, rfl, by decide⟩
      | number h =>
          obtain ⟨s, b, rfl⟩ := (List.eq_nil_or_concat' _).resolve_left h.ne_nil
          exact ⟨s, b, rfl, (h.inNumeral b (by simp)).mark.1⟩

/-- A value has at least as many bytes as containers nested in each other. -/
theorem Nests.le_length {d : Nat} {t : Bytes} (h : Nests d t) : d ≤ t.length := by
  induction h with
  | scalar _ => exact Nat.zero_le _
  | @array texts body depth hr _ ih =>
      have hdeepest : deepest (texts.map depth) ≤ body.length := by
        refine deepest_le_iff.mpr (List.forall_mem_map.mpr fun t ht => ?_)
        exact Nat.le_trans (ih t ht) (hr.length_le_of_mem ht)
      simp only [List.length_cons, List.length_append]
      omega
  | @object members body depth hr _ ih =>
      have hdeepest : deepest (members.map fun m => depth m.value) ≤ body.length := by
        refine deepest_le_iff.mpr (List.forall_mem_map.mpr fun m hm => ?_)
        have hlength := hr.length_le_of_mem (List.mem_map_of_mem hm)
        have hvalue := ih m hm
        simp only [Member.text, List.length_cons, List.length_append] at hlength
        omega
      simp only [List.length_cons, List.length_append]
      omega

end Grammar

end JsonRecords
