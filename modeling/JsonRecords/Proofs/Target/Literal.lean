import JsonRecords.Proofs.Target.Rename

/-!
# Which attributes are valid string literals

The name of a field is quoted as JSON quotes it, but stands in Rust source, where it is
read as a string literal (`Literal.Denotes`). Both languages leave most characters as
they are and share the escapes of the quote, the backslash, the tabulator, the line feed
and the carriage return. All other characters below the space have an escape in JSON that
Rust does not know. So what is quoted denotes the name if there are none of them in it,
and otherwise it is no literal at all (`denotes_quoted_iff`).
-/

namespace JsonRecords

namespace Rust

namespace Literal

open Encode

/-! ## The grammar -/

/-- The value of a hexadecimal digit of either case. -/
def hexValue? (c : Char) : Option Nat :=
  if c.toNat < 0x80 then Ascii.hexValue? (UInt8.ofNat c.toNat) else none

/-- The number that hexadecimal digits denote. -/
def hexNumber? (digits : List Char) : Option Nat :=
  digits.foldlM (fun n d => (hexValue? d).map (16 * n + ·)) 0

/-- The escapes of one letter and what they stand for. -/
def letters : List (Char × Char) :=
  [('n', '\n'), ('r', '\r'), ('t', '\t'), ('\\', '\\'), ('0', '\x00'), ('"', '"'),
    ('\x27', '\x27')]

/-- An escape after its backslash, and the character it stands for. -/
inductive Escape : List Char → Char → Prop where
  | letter {e c : Char} (h : (e, c) ∈ letters) : Escape [e] c
  /-- An ASCII character by two hexadecimal digits. -/
  | ascii {a b c : Char} (h : hexNumber? [a, b] = some c.toNat) (hc : c.toNat < 0x80) :
      Escape ['x', a, b] c
  /-- Any character by one to six hexadecimal digits in braces. Underscores may stand
  after each. -/
  | unicode {d c : Char} {ds : List Char} (hd : d ≠ '_')
      (hlength : (ds.filter (· ≠ '_')).length < 6)
      (h : hexNumber? (d :: ds.filter (· ≠ '_')) = some c.toNat) :
      Escape ('u' :: '\x7b' :: (d :: ds ++ ['\x7d'])) c

def blanks : List Char :=
  [' ', '\t', '\n', '\r']

/-- What stands between the quotes of a literal, and what it stands for. -/
inductive Content : List Char → List Char → Prop where
  | nil : Content [] []
  /-- A character that stands for itself. -/
  | plain {c : Char} {t v : List Char} (h : c ∉ ['"', '\\', '\r']) (ht : Content t v) :
      Content (c :: t) (c :: v)
  | escape {e : List Char} {c : Char} {t v : List Char} (h : Escape e c) (ht : Content t v) :
      Content ('\\' :: (e ++ t)) (c :: v)
  /-- A backslash at the end of a line stands for nothing, nor do the blanks after it. -/
  | skip {gap t v : List Char} (hgap : ∀ b ∈ gap, b ∈ blanks) (hend : ∀ b ∈ t.head?, b ∉ blanks)
      (ht : Content t v) : Content ('\\' :: '\n' :: (gap ++ t)) v

/-- A text is a string literal that stands for a string. -/
def Denotes (literal value : String) : Prop :=
  ∃ content, literal = String.ofList ('"' :: content ++ ['"']) ∧ Content content value.toList

/-! ## What a literal begins with -/

theorem content_nil_iff {v : List Char} : Content [] v ↔ v = [] := by
  constructor
  · intro h
    cases h
    rfl
  · rintro rfl
    exact .nil

theorem content_plain_iff {c : Char} (hback : c ≠ '\\') {t v : List Char} :
    Content (c :: t) v ↔ c ∉ ['"', '\\', '\r'] ∧ ∃ w, v = c :: w ∧ Content t w := by
  constructor
  · intro h
    cases h with
    | plain h ht => exact ⟨h, _, rfl, ht⟩
    | escape => exact absurd rfl hback
    | skip => exact absurd rfl hback
  · rintro ⟨h, w, rfl, ht⟩
    exact .plain h ht

/-- After a backslash, a letter that begins nothing else is an escape of one letter. -/
theorem content_letter_iff {e : Char} (he : e ∉ ['x', 'u', '\n']) {t v : List Char} :
    Content ('\\' :: e :: t) v ↔ ∃ c w, (e, c) ∈ letters ∧ v = c :: w ∧ Content t w := by
  constructor
  · intro h
    generalize htext : '\\' :: e :: t = text at h
    cases h with
    | nil => simp at htext
    | plain h _ =>
        obtain ⟨rfl, _⟩ := List.cons.inj htext
        simp at h
    | escape h ht =>
        obtain ⟨_, htext⟩ := List.cons.inj htext
        cases h with
        | letter h =>
            obtain ⟨rfl, rfl⟩ := List.cons.inj htext
            exact ⟨_, _, h, rfl, ht⟩
        | ascii => simp [(List.cons.inj htext).1] at he
        | unicode => simp [(List.cons.inj htext).1] at he
    | skip => simp_all
  · rintro ⟨c, w, h, rfl, ht⟩
    exact .escape (.letter h) ht

/-- No escape by number goes without braces. -/
theorem not_content_number {d : Char} (hd : d ≠ '\x7b') {t v : List Char} :
    ¬ Content ('\\' :: 'u' :: d :: t) v := by
  intro h
  generalize htext : '\\' :: 'u' :: d :: t = text at h
  cases h with
  | nil => simp at htext
  | plain h _ =>
      obtain ⟨rfl, _⟩ := List.cons.inj htext
      simp at h
  | escape h _ =>
      obtain ⟨_, htext⟩ := List.cons.inj htext
      cases h with
      | letter h =>
          obtain ⟨rfl, _⟩ := List.cons.inj htext
          simp [letters] at h
      | ascii => simp at htext
      | unicode => simp_all
  | skip => simp at htext

/-! ## What is quoted, read as a literal -/

/-- A character that both languages write alike. -/
def IsShared (c : Char) : Prop :=
  0x20 ≤ c.toNat ∨ c ∈ ['\t', '\n', '\r']

instance (c : Char) : Decidable (IsShared c) :=
  inferInstanceAs (Decidable (_ ∨ _))

/-- What is written for a character denotes it if it is shared, and begins no literal
otherwise. -/
theorem content_quotedChar_iff (c : Char) {t v : List Char} :
    Content (quotedChar c ++ t) v ↔ IsShared c ∧ ∃ w, v = c :: w ∧ Content t w := by
  rw [quotedChar]
  -- an escape of one letter is shared if the letter stands for the same character
  iterate 7
    split
    · next h =>
      subst h
      rw [List.cons_append, List.cons_append, List.nil_append, content_letter_iff (by decide)]
      simp [letters, IsShared]
  split
  · next hlow =>
    have hshared : ¬ IsShared c := by
      rintro (h | h)
      · exact absurd hlow (Nat.not_lt.mpr h)
      · simp_all
    simp only [hshared, false_and, iff_false]
    exact not_content_number (by decide)
  · next hquote hback _ _ _ hreturn _ hlow =>
    have hshared : IsShared c := .inl (Nat.not_lt.mp hlow)
    rw [List.singleton_append, content_plain_iff hback]
    simp [hquote, hback, hreturn, hshared]

theorem content_flatMap_quotedChar_iff {cs v : List Char} :
    Content (cs.flatMap quotedChar) v ↔ v = cs ∧ ∀ c ∈ cs, IsShared c := by
  induction cs generalizing v with
  | nil => simp [content_nil_iff]
  | cons c cs ih =>
      rw [List.flatMap_cons, content_quotedChar_iff, List.forall_mem_cons]
      constructor
      · rintro ⟨hc, w, rfl, hw⟩
        obtain ⟨rfl, hcs⟩ := ih.mp hw
        exact ⟨rfl, hc, hcs⟩
      · rintro ⟨rfl, hc, hcs⟩
        exact ⟨hc, cs, rfl, ih.mpr ⟨rfl, hcs⟩⟩

/-- A quoted string denotes itself if all its characters are shared, and nothing
otherwise. -/
theorem denotes_quoted_iff {s value : String} :
    Denotes (quoted s) value ↔ value = s ∧ ∀ c ∈ s.toList, IsShared c := by
  have hcontent :
      Denotes (quoted s) value ↔ Content (s.toList.flatMap quotedChar) value.toList := by
    constructor
    · rintro ⟨content, htext, h⟩
      rw [quoted, String.ofList_inj, List.cons_append, List.cons_append] at htext
      have htext := List.append_cancel_right (List.cons.inj htext).2
      rwa [htext]
    · exact fun h => ⟨_, rfl, h⟩
  rw [hcontent, content_flatMap_quotedChar_iff, String.toList_inj]

end Literal

open Source Literal

/-- The name that an attribute gives to a field is quoted as in JSON. As a string literal
of Rust it denotes that name if all characters of the name are shared, and nothing
otherwise. -/
theorem denotes_rename_iff (rs : List RecordDecl) :
    render rs = unlines (headerLines ++ (rs.map declared).flatMap printRecord) ∧
    ∀ r ∈ rs, List.Forall₂ (fun f t => ∀ name ∈ t.rename,
        name = f.name ∧
        (∀ levels, Json.decode levels (Utf8.ofString (Encode.quoted name)) = .ok (.string f.name)) ∧
        ∀ value, Denotes (Encode.quoted name) value ↔
          value = f.name ∧ ∀ c ∈ f.name.toList, IsShared c)
      r.fields (declared r).fields := by
  refine ⟨render_eq_unlines rs, fun r _ => ?_⟩
  refine Scope.forall₂_zipWith_claimAll (fun f label hlabel => ?_) .empty r.fields
  intro name hname
  obtain rfl : f.name = name := by
    rw [rename_declaredField hlabel] at hname
    split at hname <;> simp_all
  exact ⟨rfl, (Json.decode_quoted · f.name), fun _ => denotes_quoted_iff⟩

/-- A name with a backspace, for which there is a literal, but not the one it is given. -/
theorem not_denotes_backspace :
    let r : RecordDecl := ⟨"root", [⟨"a\x08", "f64"⟩]⟩
    read (render [r]) = some [⟨"root", [⟨"a_", some "a\x08", "f64"⟩]⟩] ∧
      Denotes "\"a\\x08\"" "a\x08" ∧
      ¬ ∃ value, Denotes (Encode.quoted "a\x08") value := by
  intro r
  refine ⟨?_, ?_, ?_⟩
  · rw [read_render (by decide)]
    decide
  · have hcontent : Content ['a', '\\', 'x', '0', '8'] ['a', '\x08'] :=
      .plain (by decide) (.escape (.ascii (by decide) (by decide)) .nil)
    exact ⟨_, rfl, hcontent⟩
  · rintro ⟨value, h⟩
    obtain ⟨_, hshared⟩ := denotes_quoted_iff.mp h
    exact absurd (hshared '\x08' (by decide)) (by decide)

end Rust

end JsonRecords
