import JsonRecords.Document
import JsonRecords.Proofs.Except
import Mathlib.Data.List.Forall2

/-!
# Documents line by line

Lines are decoded one after another, so the lines of one text followed by those of
another are decoded as the two texts are, the second one with its numbers moved on
(`decodeLinesFrom_append`, `decodeLinesFrom_add`). Since every line is trimmed, it does
not matter whether a carriage return before a line feed belongs to its line, nor whether
nothing after the last line feed is a line: the lines are what stands between line feeds
(`decodeLines_eq_splitOn`). All this holds for any decoder of one line.
-/

namespace JsonRecords

namespace Lines

theorem trim_append_blank {c : Char} (h : isBlank c = true) (cs : List Char) :
    trim (cs ++ [c]) = trim cs := by
  obtain ⟨before, after, hcs, hbefore, hafter, hends⟩ := trim_eq_iff.mp (Eq.refl (trim cs))
  refine trim_eq_iff.mpr ⟨before, after ++ [c], ?_, hbefore, ?_, hends⟩
  · rw [← List.append_assoc, ← hcs]
  · exact List.forall_mem_append.mpr ⟨hafter, by simpa using h⟩

/-- A carriage return at the end of a line is trimmed like any blank. -/
theorem trim_dropReturn (line : List Char) :
    trim (dropReturn line).reverse = trim line.reverse := by
  rw [dropReturn.eq_def]
  split
  · rw [List.reverse_cons, trim_append_blank (by decide)]
  · rfl

theorem length_splitOn (cs : List Char) : (cs.splitOn '\n').length = cs.count '\n' + 1 := by
  induction cs with
  | nil => rfl
  | cons c cs ih =>
      by_cases h : c = '\n'
      · subst h
        have hsplit := List.splitOn_append_cons_self (a := '\n') [] cs
        rw [List.nil_append] at hsplit
        rw [hsplit, List.length_append, ih, List.count_cons_self, Nat.add_comm]
        rfl
      · have hc : ¬ (c == '\n') = true := by simpa using h
        rw [List.count_cons_of_ne h, ← ih, List.splitOn, List.splitOnP_cons_eq_if_modifyHead,
          if_neg hc, List.length_modifyHead]
        rfl

/-- Trimmed, the lines of a text are what stands between its line feeds, but for what
stands after the last one if that is nothing. -/
theorem map_trim_splitFrom {line : List Char} (hline : '\n' ∉ line) (cs : List Char) :
    ∃ tail, (tail = [] ∨ tail = [[]]) ∧
      ((line.reverse ++ cs).splitOn '\n').map trim = (splitFrom line cs).map trim ++ tail := by
  induction cs generalizing line with
  | nil =>
      rw [List.append_nil, List.splitOn_eq_singleton (by simpa using hline), splitFrom]
      cases line with
      | nil => exact ⟨[[]], .inr rfl, rfl⟩
      | cons c line => exact ⟨[], .inl rfl, by simp⟩
  | cons c cs ih =>
      rw [splitFrom]
      split
      · next h =>
        subst h
        obtain ⟨tail, htail, hsplit⟩ := ih List.not_mem_nil
        refine ⟨tail, htail, ?_⟩
        rw [List.splitOn_append_cons_self_of_not_mem (by simpa using hline), List.map_cons,
          List.map_cons, List.cons_append, trim_dropReturn, ← hsplit]
        rfl
      · next h =>
        have hbegun : '\n' ∉ c :: line := by simp [hline, Ne.symm h]
        obtain ⟨tail, htail, hsplit⟩ := ih hbegun
        refine ⟨tail, htail, ?_⟩
        rw [← hsplit, List.reverse_cons, List.append_assoc]
        rfl

end Lines

namespace Document

open Lines

variable {ε α : Type} {decodeLine : List Char → Except ε α}

theorem decodeLinesFrom_blank {line : List Char} (h : trim line = []) (n : Nat)
    (lines : List (List Char)) : decodeLinesFrom decodeLine n (line :: lines) =
      decodeLinesFrom decodeLine (n + 1) lines := by
  simp [decodeLinesFrom, h]

theorem decodeLinesFrom_error {line : List Char} (h : trim line ≠ []) {cause : ε}
    (hcause : decodeLine (trim line) = .error cause) (n : Nat) (lines : List (List Char)) :
    decodeLinesFrom decodeLine n (line :: lines) = .error ⟨n, trim line, cause⟩ := by
  simp [decodeLinesFrom, h, hcause]

theorem decodeLinesFrom_ok {line : List Char} (h : trim line ≠ []) {v : α}
    (hv : decodeLine (trim line) = .ok v) (n : Nat) (lines : List (List Char)) :
    decodeLinesFrom decodeLine n (line :: lines) =
      decodeLinesFrom decodeLine (n + 1) lines >>= fun vs => pure (v :: vs) := by
  simp [decodeLinesFrom, h, hv]

/-- The lines of two texts are decoded one text after the other, the numbers of the
second going on from the first. -/
theorem decodeLinesFrom_append (xs ys : List (List Char)) (n : Nat) :
    decodeLinesFrom decodeLine n (xs ++ ys) = do
      let vs ← decodeLinesFrom decodeLine n xs
      let ws ← decodeLinesFrom decodeLine (n + xs.length) ys
      return vs ++ ws := by
  induction xs generalizing n with
  | nil => exact (bind_pure _).symm
  | cons line xs ih =>
      have hnumber : n + (line :: xs).length = n + 1 + xs.length := by
        rw [List.length_cons]
        omega
      rw [List.cons_append, hnumber]
      by_cases h : trim line = []
      · rw [decodeLinesFrom_blank h, decodeLinesFrom_blank h, ih]
      · cases hline : decodeLine (trim line) with
        | error cause =>
            rw [decodeLinesFrom_error h hline, decodeLinesFrom_error h hline]
            rfl
        | ok v =>
            rw [decodeLinesFrom_ok h hline, decodeLinesFrom_ok h hline, ih]
            simp only [bind_assoc, pure_bind, List.cons_append]

/-- The same refusal, so many lines further down. -/
def LineFault.moved (k : Nat) (fault : LineFault ε) : LineFault ε :=
  { fault with line := fault.line + k }

theorem decodeLinesFrom_add (lines : List (List Char)) (n k : Nat) :
    decodeLinesFrom decodeLine (n + k) lines =
      (decodeLinesFrom decodeLine n lines).mapError (LineFault.moved k) := by
  induction lines generalizing n with
  | nil => rfl
  | cons line lines ih =>
      have hnext := ih (n + 1)
      rw [Nat.add_right_comm] at hnext
      by_cases h : trim line = []
      · rw [decodeLinesFrom_blank h, decodeLinesFrom_blank h, hnext]
      · cases hline : decodeLine (trim line) with
        | error cause =>
            rw [decodeLinesFrom_error h hline, decodeLinesFrom_error h hline]
            rfl
        | ok v =>
            rw [decodeLinesFrom_ok h hline, decodeLinesFrom_ok h hline, hnext, mapError_bind]
            rfl

/-- Lines that are equal when trimmed are decoded alike. -/
theorem decodeLinesFrom_congr {xs ys : List (List Char)} (h : xs.map trim = ys.map trim)
    (n : Nat) : decodeLinesFrom decodeLine n xs = decodeLinesFrom decodeLine n ys := by
  induction xs generalizing ys n with
  | nil => rw [List.map_eq_nil_iff.mp h.symm]
  | cons x xs ih =>
      cases ys with
      | nil => simp at h
      | cons y ys =>
          rw [List.map_cons, List.map_cons] at h
          obtain ⟨htrim, hrest⟩ := List.cons.inj h
          simp only [decodeLinesFrom, htrim, ih hrest]

/-- The lines that are decoded are those between line feeds. -/
theorem decodeLines_eq_splitOn (text : List Char) :
    decodeLines decodeLine text = decodeLinesFrom decodeLine 1 (text.splitOn '\n') := by
  obtain ⟨tail, htail, hsplit⟩ := map_trim_splitFrom List.not_mem_nil text
  have htrim : (text.splitOn '\n').map trim = (split text ++ tail).map trim := by
    rw [List.map_append]
    rcases htail with rfl | rfl <;> exact hsplit
  have hblank (n : Nat) : decodeLinesFrom decodeLine n tail = pure [] := by
    rcases htail with rfl | rfl <;> rfl
  rw [decodeLinesFrom_congr htrim, decodeLinesFrom_append, decodeLines]
  simp only [hblank, pure_bind, List.append_nil, bind_pure]

/-! ## What is decoded and what is refused -/

theorem decodeLinesFrom_eq_ok_iff {lines : List (List Char)} {n : Nat} {vs : List α} :
    decodeLinesFrom decodeLine n lines = .ok vs ↔
      List.Forall₂ (fun line v => decodeLine line = .ok v)
        ((lines.map trim).filter (· ≠ [])) vs := by
  induction lines generalizing n vs with
  | nil => simp [decodeLinesFrom, eq_comm]
  | cons line lines ih =>
      rw [List.map_cons]
      by_cases h : trim line = []
      · rw [decodeLinesFrom_blank h, List.filter_cons_of_neg (by simpa using h), ih]
      · rw [List.filter_cons_of_pos (by simpa using h), List.forall₂_cons_left_iff]
        cases hline : decodeLine (trim line) with
        | error cause =>
            rw [decodeLinesFrom_error h hline]
            simp
        | ok v =>
            rw [decodeLinesFrom_ok h hline, bind_eq_ok]
            simp only [ih, pure_eq_ok]
            constructor
            · rintro ⟨ws, hws, rfl⟩
              exact ⟨v, ws, rfl, hws, rfl⟩
            · rintro ⟨_, ws, hv, hws, rfl⟩
              cases hv
              exact ⟨ws, hws, rfl⟩

/-- A line that keeps no text from being decoded: it is blank, or it decodes. -/
def Passes (decodeLine : List Char → Except ε α) (line : List Char) : Prop :=
  trim line = [] ∨ ∃ v, decodeLine (trim line) = .ok v

theorem exists_of_decodeLinesFrom_eq_error {lines : List (List Char)} {n : Nat}
    {fault : LineFault ε} (h : decodeLinesFrom decodeLine n lines = .error fault) :
    ∃ before line after cause, lines = before ++ line :: after ∧
      (∀ l ∈ before, Passes decodeLine l) ∧ trim line ≠ [] ∧
      decodeLine (trim line) = .error cause ∧
      fault = ⟨n + before.length, trim line, cause⟩ := by
  induction lines generalizing n with
  | nil => simp [decodeLinesFrom] at h
  | cons first lines ih =>
      -- a fault further down stays where it is when a line that passes comes before it
      have hdown (hfirst : Passes decodeLine first)
          (h : decodeLinesFrom decodeLine (n + 1) lines = .error fault) :
          ∃ before line after cause, first :: lines = before ++ line :: after ∧
            (∀ l ∈ before, Passes decodeLine l) ∧ trim line ≠ [] ∧
            decodeLine (trim line) = .error cause ∧
            fault = ⟨n + before.length, trim line, cause⟩ := by
        obtain ⟨before, line, after, cause, rfl, hbefore, hline, hcause, rfl⟩ := ih h
        refine ⟨first :: before, line, after, cause, rfl, ?_, hline, hcause, ?_⟩
        · exact List.forall_mem_cons.mpr ⟨hfirst, hbefore⟩
        · rw [List.length_cons, Nat.add_assoc, Nat.add_comm 1]
      by_cases hblank : trim first = []
      · exact hdown (.inl hblank) (decodeLinesFrom_blank hblank n lines ▸ h)
      · cases hfirst : decodeLine (trim first) with
        | error cause =>
            rw [decodeLinesFrom_error hblank hfirst] at h
            refine ⟨[], first, lines, cause, rfl, List.forall_mem_nil _, hblank, hfirst, ?_⟩
            exact (Except.error.inj h).symm
        | ok v =>
            rw [decodeLinesFrom_ok hblank hfirst, bind_pure_eq_error] at h
            exact hdown (.inr ⟨v, hfirst⟩) h

theorem decodeLinesFrom_eq_error_iff {lines : List (List Char)} {n : Nat}
    {fault : LineFault ε} : decodeLinesFrom decodeLine n lines = .error fault ↔
    ∃ before line after cause, lines = before ++ line :: after ∧
      (∀ l ∈ before, Passes decodeLine l) ∧ trim line ≠ [] ∧
      decodeLine (trim line) = .error cause ∧
      fault = ⟨n + before.length, trim line, cause⟩ := by
  refine ⟨exists_of_decodeLinesFrom_eq_error, ?_⟩
  rintro ⟨before, line, after, cause, rfl, hbefore, hline, hcause, rfl⟩
  rw [decodeLinesFrom_append, decodeLinesFrom_error hline hcause]
  cases hdecode : decodeLinesFrom decodeLine n before with
  | ok vs => rfl
  | error fault =>
      obtain ⟨_, first, _, cause', rfl, _, hfirst, hcause', _⟩ :=
        exists_of_decodeLinesFrom_eq_error hdecode
      rcases hbefore first (by simp) with hblank | ⟨v, hv⟩
      · exact absurd hblank hfirst
      · rw [hcause'] at hv
        cases hv

/-- With any decoder of one line, a text is decoded if each of its lines that is not blank
is, to their values in their order. Otherwise it is refused for the first line that is not
decoded, under its number among all lines. So a text of two parts is decoded part by part,
and a refusal of the second part counts the lines of the first. -/
theorem decodeLines_homomorphism (decodeLine : List Char → Except ε α) :
    (∀ text vs, decodeLines decodeLine text = .ok vs ↔
      List.Forall₂ (fun line v => decodeLine line = .ok v)
        (((text.splitOn '\n').map trim).filter (· ≠ [])) vs) ∧
    (∀ text fault, decodeLines decodeLine text = .error fault ↔
      ∃ before line after cause, text.splitOn '\n' = before ++ line :: after ∧
        (∀ l ∈ before, Passes decodeLine l) ∧ trim line ≠ [] ∧
        decodeLine (trim line) = .error cause ∧
        fault = ⟨before.length + 1, trim line, cause⟩) ∧
    ∀ a b, decodeLines decodeLine (a ++ '\n' :: b) = do
      let vs ← decodeLines decodeLine a
      let ws ← (decodeLines decodeLine b).mapError (LineFault.moved (a.count '\n' + 1))
      return vs ++ ws := by
  refine ⟨fun text vs => ?_, fun text fault => ?_, fun a b => ?_⟩
  · rw [decodeLines_eq_splitOn, decodeLinesFrom_eq_ok_iff]
  · rw [decodeLines_eq_splitOn, decodeLinesFrom_eq_error_iff]
    simp only [Nat.add_comm 1]
  · simp only [decodeLines_eq_splitOn]
    rw [List.splitOn_append_cons_self, decodeLinesFrom_append, length_splitOn, decodeLinesFrom_add]

end Document

end JsonRecords
