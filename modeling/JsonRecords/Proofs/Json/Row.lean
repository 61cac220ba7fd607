import JsonRecords.Json.Decode
import Mathlib.Data.List.Forall2

/-!
# Texts in a row

Between the brackets of a list, or the braces of an object, texts stand in a row:
commas between them, blanks anywhere around them (`Row`). A reader that settles
what each text means, whatever comes after it (`Settles`), lets the loops of the
decoder go along the row (`items_row`, `members_row`).
-/

namespace JsonRecords

theorem toOption_bind {ε α β : Type} (x : Except ε α) (f : α → Except ε β) :
    (x >>= f).toOption = x.toOption.bind fun a => (f a).toOption := by
  cases x <;> rfl

theorem toOption_eq_some_iff {ε α : Type} {x : Except ε α} {a : α} :
    x.toOption = some a ↔ x = .ok a := by
  cases x <;> simp [Except.toOption]

theorem toOption_eq_none_iff {ε α : Type} {x : Except ε α} :
    x.toOption = none ↔ ∀ a, x ≠ .ok a := by
  cases x <;> simp [Except.toOption]

/-- What is made of the value of a reader leaves the rest of the text as it is. -/
theorem toOption_bind_ok {α β : Type} {x : Except Fault (α × Bytes)} {a? : Option α}
    {rest : Bytes} (h : x.toOption = a?.map fun a => (a, rest)) (f : α → β) :
    (x >>= fun r => Except.ok (f r.1, r.2)).toOption = (a?.map f).map fun b => (b, rest) := by
  rw [toOption_bind, h]
  cases a? <;> rfl

theorem forall₂_of_mem {α β : Type} {R S : α → β → Prop} {as : List α} {bs : List β}
    (h : List.Forall₂ R as bs) (himp : ∀ a ∈ as, ∀ b ∈ bs, R a b → S a b) :
    List.Forall₂ S as bs := by
  induction h with
  | nil => exact .nil
  | cons hr _ ih =>
      refine .cons (himp _ List.mem_cons_self _ List.mem_cons_self hr) (ih ?_)
      exact fun a ha b hb => himp a (List.mem_cons_of_mem _ ha) b (List.mem_cons_of_mem _ hb)

theorem forall_mem_of_forall₂ {α β : Type} {R : α → β → Prop} {P : β → Prop} {as : List α}
    {bs : List β} (h : List.Forall₂ R as bs) (himp : ∀ a b, R a b → P b) : ∀ b ∈ bs, P b := by
  induction h with
  | nil => exact List.forall_mem_nil _
  | cons hr _ ih => exact List.forall_mem_cons.mpr ⟨himp _ _ hr, ih⟩

namespace Ascii

/-- A stretch of blanks, possibly none. -/
def Blank (gap : Bytes) : Prop :=
  ∀ b ∈ gap, isBlank b = true

@[simp] theorem blank_nil : Blank [] :=
  List.forall_mem_nil _

@[simp] theorem blank_cons {b : UInt8} {gap : Bytes} :
    Blank (b :: gap) ↔ isBlank b = true ∧ Blank gap :=
  List.forall_mem_cons

theorem skipBlank_append {gap : Bytes} (h : Blank gap) (s : Bytes) :
    skipBlank (gap ++ s) = skipBlank s := by
  induction gap with
  | nil => rfl
  | cons b gap ih =>
      obtain ⟨hb, hgap⟩ := blank_cons.mp h
      rw [List.cons_append, skipBlank_cons, if_pos hb, ih hgap]

theorem skipBlank_of_not {b : UInt8} (h : isBlank b = false) (s : Bytes) :
    skipBlank (b :: s) = b :: s := by
  rw [skipBlank_cons, h]
  rfl

end Ascii

namespace Decode

open Ascii

/-- What may follow an item: nothing, a blank, a comma or the end of a container. -/
def Ends (s : Bytes) : Prop :=
  ∀ b ∈ s.head?, isBlank b ∨ b = comma ∨ b = closeBracket ∨ b = closeBrace

/-- A text that begins an item of a list. -/
def Begins (t : Bytes) : Prop :=
  ∃ b s, t = b :: s ∧ isBlank b = false ∧ b ≠ closeBracket

/-- The comma that stands before every item but the first. -/
def between (first : Bool) : Bytes :=
  if first then [] else [comma]

/-- Texts in a row, with blanks around each and a comma before each but the
first. -/
inductive Row : (first : Bool) → List Bytes → Bytes → Prop where
  | nil {first : Bool} {gap : Bytes} (hgap : Blank gap) : Row first [] gap
  | cons {first : Bool} {gap gap' text more : Bytes} {texts : List Bytes} (hgap : Blank gap)
      (hgap' : Blank gap') (h : Row false texts more) :
      Row first (text :: texts) (gap ++ between first ++ (gap' ++ (text ++ more)))

/-- A reader reads a text as a value and stops right after it, or it refuses the
text, whatever blanks stand before it and whatever follows it. -/
def Settles {α : Type} (read : Bytes → Except Fault (α × Bytes)) (text : Bytes)
    (value? : Option α) : Prop :=
  ∀ gap rest, Blank gap → Ends rest →
    (read (gap ++ (text ++ rest))).toOption = value?.map fun v => (v, rest)

/-- A member, from the quote of its key on, changes the state of a loop over
members, or is refused, whatever follows it. -/
def Updates {σ : Type} (member : σ → String → Bytes → Except Fault (σ × Bytes)) (text : Bytes)
    (change : σ → Option σ) : Prop :=
  ∃ tail, text = quote :: tail ∧ ∀ state rest, Ends rest →
    (Lexeme.string (tail ++ rest) >>= fun r => member state r.1 r.2).toOption =
      (change state).map fun state => (state, rest)

theorem ends_nil : Ends [] := by
  intro b hb
  simp at hb

theorem ends_cons {b : UInt8} {s : Bytes} :
    Ends (b :: s) ↔ isBlank b ∨ b = comma ∨ b = closeBracket ∨ b = closeBrace := by
  simp [Ends]

theorem ends_append {gap s : Bytes} (hgap : Blank gap) (hs : Ends s) : Ends (gap ++ s) := by
  cases gap with
  | nil => exact hs
  | cons b gap => exact ends_cons.mpr (.inl (blank_cons.mp hgap).1)

/-- What a reader makes of its value does not change what it settles. -/
theorem Settles.map {α β : Type} {read : Bytes → Except Fault (α × Bytes)} {text : Bytes}
    {value? : Option α} (h : Settles read text value?) (f : α → β) :
    Settles (fun s => do let r ← read s; return (f r.1, r.2)) text (value?.map f) := by
  intro gap rest hgap hrest
  exact toOption_bind_ok (h gap rest hgap hrest) f

/-- What follows an item in its row ends it. -/
theorem Row.ends {texts : List Bytes} {body s : Bytes} (h : Row false texts body)
    (hs : Ends s) : Ends (body ++ s) := by
  cases h with
  | nil hgap => exact ends_append hgap hs
  | cons hgap _ _ =>
      rw [List.append_assoc, List.append_assoc]
      exact ends_append hgap (ends_cons.mpr (.inr (.inl rfl)))

theorem Row.length_le_of_mem {first : Bool} {texts : List Bytes} {body : Bytes}
    (h : Row first texts body) {t : Bytes} (ht : t ∈ texts) : t.length ≤ body.length := by
  induction h with
  | nil => simp at ht
  | cons _ _ _ ih =>
      simp only [List.length_append]
      rcases List.mem_cons.mp ht with rfl | ht
      · omega
      · have hlength := ih ht
        omega

theorem nextItem_gap {first : Bool} {gap : Bytes} (hgap : Blank gap) (s : Bytes) :
    nextItem first (gap ++ closeBracket :: s) = .ok (.close s) := by
  have hb : isBlank closeBracket = false := by decide
  simp only [nextItem, skipBlank_append hgap, skipBlank_of_not hb, if_true]

theorem nextItem_between (first : Bool) {gap gap' text : Bytes} (hgap : Blank gap)
    (hgap' : Blank gap') (ht : Begins text) (s : Bytes) :
    nextItem first (gap ++ between first ++ (gap' ++ (text ++ s))) = .ok (.item (text ++ s)) := by
  obtain ⟨b, t, rfl, hb, hclose⟩ := ht
  rw [nextItem, List.append_assoc, skipBlank_append hgap]
  cases first with
  | true =>
      simp only [between, if_true, List.nil_append, List.cons_append, skipBlank_append hgap',
        skipBlank_of_not hb, hclose, if_false]
  | false =>
      have hcomma : isBlank comma = false := by decide
      have hne : comma ≠ closeBracket := by decide
      simp [between, skipBlank_append hgap', skipBlank_of_not hb, skipBlank_of_not hcomma, hclose,
        hne]

theorem nextKey_gap {first : Bool} {gap : Bytes} (hgap : Blank gap) (s : Bytes) :
    nextKey first (gap ++ closeBrace :: s) = .ok (.close s) := by
  have hb : isBlank closeBrace = false := by decide
  simp only [nextKey, skipBlank_append hgap, skipBlank_of_not hb, if_true]

theorem nextKey_between (first : Bool) {gap gap' : Bytes} (hgap : Blank gap)
    (hgap' : Blank gap') (s : Bytes) :
    nextKey first (gap ++ between first ++ (gap' ++ quote :: s)) = .ok (.item s) := by
  have hquote : isBlank quote = false := by decide
  have hclose : quote ≠ closeBrace := by decide
  rw [nextKey, List.append_assoc, skipBlank_append hgap]
  cases first with
  | true =>
      simp [between, skipBlank_append hgap', skipBlank_of_not hquote, hclose]
  | false =>
      have hcomma : isBlank comma = false := by decide
      have hne : comma ≠ closeBrace := by decide
      simp [between, skipBlank_append hgap', skipBlank_of_not hquote, skipBlank_of_not hcomma, hne]

theorem colon_gap {gap : Bytes} (hgap : Blank gap) (s : Bytes) :
    colon (gap ++ Ascii.colon :: s) = .ok s := by
  have hb : isBlank Ascii.colon = false := by decide
  simp only [colon, skipBlank_append hgap, skipBlank_of_not hb, if_true]

/-- One step of the loop over items reads the next one. -/
theorem items_between {α : Type} (item : Bytes → Except Fault (α × Bytes)) (first : Bool)
    {gap gap' text : Bytes} (hgap : Blank gap) (hgap' : Blank gap') (ht : Begins text) (n : Nat)
    (done : List α) (s : Bytes) :
    items item (n + 1) first done (gap ++ between first ++ (gap' ++ (text ++ s))) =
      item (text ++ s) >>= fun r => items item n false (r.1 :: done) r.2 := by
  rw [items, nextItem_between first hgap hgap' ht]
  rfl

/-- One step of the loop over members reads the next one from its key on. -/
theorem members_between {σ : Type} (member : σ → String → Bytes → Except Fault (σ × Bytes))
    (first : Bool) {gap gap' : Bytes} (hgap : Blank gap) (hgap' : Blank gap') (n : Nat) (state : σ)
    (s : Bytes) :
    members member (n + 1) first state (gap ++ between first ++ (gap' ++ quote :: s)) =
      (Lexeme.string s >>= fun r => member state r.1 r.2) >>= fun r =>
        members member n false r.1 r.2 := by
  rw [members, nextKey_between first hgap hgap', bind_assoc]
  rfl

/-- The loop over items goes along a row and stops right after it. It refuses the
row where it refuses an item. -/
theorem items_row {α : Type} {item : Bytes → Except Fault (α × Bytes)} {first : Bool}
    {texts : List Bytes} {body : Bytes} (hr : Row first texts body) {values : List (Option α)}
    (h : List.Forall₂ (Settles item) texts values) (hbegin : ∀ t ∈ texts, Begins t) {bound : Nat}
    (hbound : body.length < bound) (done : List α) (rest : Bytes) :
    (items item bound first done (body ++ closeBracket :: rest)).toOption =
      (values.mapM id).map fun vs => (done.reverse ++ vs, rest) := by
  induction hr generalizing values bound done with
  | nil hgap =>
      obtain ⟨n, rfl⟩ := Nat.exists_eq_succ_of_ne_zero (Nat.ne_of_gt (Nat.zero_lt_of_lt hbound))
      cases h with
      | nil =>
          rw [items, nextItem_gap hgap]
          simp [bind, Except.bind, pure, Except.pure, Except.toOption]
  | @cons first gap gap' text more texts hgap hgap' hmore ih =>
      obtain ⟨n, rfl⟩ := Nat.exists_eq_succ_of_ne_zero (Nat.ne_of_gt (Nat.zero_lt_of_lt hbound))
      obtain ⟨hfirst, hbegin⟩ := List.forall_mem_cons.mp hbegin
      cases h with
      | @cons _ value _ values hv h =>
          have hends : Ends (more ++ closeBracket :: rest) :=
            hmore.ends (ends_cons.mpr (.inr (.inr (.inl rfl))))
          have hread := hv [] _ blank_nil hends
          have hpos : 0 < text.length := by
            obtain ⟨b, t, rfl, _⟩ := hfirst
            exact Nat.succ_pos _
          have hlength : more.length < n := by
            simp only [List.length_append] at hbound
            omega
          rw [List.nil_append] at hread
          rw [List.append_assoc, List.append_assoc gap', List.append_assoc text,
            items_between item first hgap hgap' hfirst, toOption_bind, hread]
          cases value with
          | none => rfl
          | some v =>
              rw [Option.map_some, Option.bind_some, ih h hbegin hlength]
              simp only [List.mapM_cons, id_eq, bind, Option.bind_some, pure]
              cases values.mapM id <;> simp

/-- The loop over members goes along a row and stops right after it, with the
changes made one after another. -/
theorem members_row {σ : Type} {member : σ → String → Bytes → Except Fault (σ × Bytes)}
    {first : Bool} {texts : List Bytes} {body : Bytes} (hr : Row first texts body)
    {changes : List (σ → Option σ)} (h : List.Forall₂ (Updates member) texts changes) {bound : Nat}
    (hbound : body.length < bound) (state : σ) (rest : Bytes) :
    (members member bound first state (body ++ closeBrace :: rest)).toOption =
      (changes.foldlM (fun (state : σ) (change : σ → Option σ) => change state) state).map
        fun state => (state, rest) := by
  induction hr generalizing changes bound state with
  | nil hgap =>
      obtain ⟨n, rfl⟩ := Nat.exists_eq_succ_of_ne_zero (Nat.ne_of_gt (Nat.zero_lt_of_lt hbound))
      cases h with
      | nil =>
          rw [members, nextKey_gap hgap]
          rfl
  | @cons first gap gap' text more texts hgap hgap' hmore ih =>
      obtain ⟨n, rfl⟩ := Nat.exists_eq_succ_of_ne_zero (Nat.ne_of_gt (Nat.zero_lt_of_lt hbound))
      cases h with
      | @cons _ change _ changes hu h =>
          obtain ⟨tail, rfl, hu⟩ := hu
          have hends : Ends (more ++ closeBrace :: rest) :=
            hmore.ends (ends_cons.mpr (.inr (.inr (.inr rfl))))
          have hlength : more.length < n := by
            simp only [List.length_append, List.length_cons] at hbound
            omega
          rw [List.append_assoc, List.append_assoc gap', List.append_assoc (quote :: tail),
            List.cons_append, members_between member first hgap hgap', toOption_bind,
            hu state _ hends, List.foldlM_cons]
          cases change state with
          | none => rfl
          | some state' => exact ih h hlength state'

theorem finish_blank {gap : Bytes} (hgap : Blank gap) : finish gap = .ok () := by
  have h := skipBlank_append hgap []
  rw [List.append_nil] at h
  rw [finish, h, skipBlank_nil]

/-- A whole text is read as the value that stands in it between blanks. -/
theorem whole_settles {α : Type} (read : (bound : Nat) → Bytes → Except Fault (α × Bytes))
    {text gap gap' : Bytes} {value? : Option α} (hgap : Blank gap) (hgap' : Blank gap')
    (h : Settles (read ((gap ++ (text ++ gap')).length + 1)) text value?) :
    (whole read (gap ++ (text ++ gap'))).toOption = value? := by
  have hends : Ends gap' := by
    have hends := ends_append hgap' ends_nil
    rwa [List.append_nil] at hends
  rw [whole, toOption_bind, h gap gap' hgap hends]
  cases value? with
  | none => rfl
  | some v => simp [finish_blank hgap', bind, Except.bind, pure, Except.pure, Except.toOption]

end Decode

end JsonRecords
