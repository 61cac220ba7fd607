import JsonRecords.Proofs.Json.Strings
import JsonRecords.Proofs.Target.Identifier

/-!
# Reading source text line by line

A reader of source text knows nothing but the fixed layout of a target. It takes
lines apart at what stands in each at the same place (`after?`, `before?`), reads
identifiers and quoted strings in between, and reads blocks of lines for as long as
there are any (`readMany`). Every record begins with the same lines but for its
identifier (`Head`), and a text is a header and nothing but records after it
(`readText`). What a reader makes of it is a list of `RecordText`.
-/

namespace JsonRecords

namespace Source

/-- A field as it stands in source text: its identifier or property key, the name it
is given in JSON if that is written down, and its type expression. -/
structure FieldText where
  label : String
  rename : Option String
  typeExpr : String
deriving DecidableEq, Repr

/-- A record as it stands in source text. -/
structure RecordText where
  identifier : String
  fields : List FieldText
deriving DecidableEq, Repr

/-! ## Lines -/

/-- The lines of a text. What stands after the last line feed is a line too. -/
def lines (text : String) : List String :=
  (text.toList.splitOn '\n').map String.ofList

/-- Lines that all end in a line feed. -/
def unlines (ls : List String) : String :=
  String.join (ls.map (· ++ "\n"))

@[simp] theorem unlines_nil : unlines [] = "" := rfl

@[simp] theorem unlines_cons (l : String) (ls : List String) :
    unlines (l :: ls) = l ++ "\n" ++ unlines ls :=
  String.join_cons

@[simp] theorem unlines_append (ls ms : List String) :
    unlines (ls ++ ms) = unlines ls ++ unlines ms := by
  rw [unlines, List.map_append, String.join_append]
  rfl

theorem unlines_flatMap {α : Type} (f : α → List String) (as : List α) :
    unlines (as.flatMap f) = String.join (as.map fun a => unlines (f a)) := by
  induction as with
  | nil => rfl
  | cons a as ih => rw [List.flatMap_cons, unlines_append, ih, List.map_cons, String.join_cons]

theorem toList_unlines (ls : List String) :
    (unlines ls).toList = ['\n'].intercalate (ls.map String.toList ++ [[]]) := by
  induction ls with
  | nil => rfl
  | cons l ls ih =>
      rw [unlines_cons, List.map_cons, List.cons_append,
        List.intercalate_cons_of_ne_nil (by simp), String.toList_append, String.toList_append, ih]
      rfl

theorem lines_unlines {ls : List String} (h : ∀ l ∈ ls, '\n' ∉ l.toList) :
    lines (unlines ls) = ls ++ [""] := by
  rw [lines, toList_unlines, List.splitOn_intercalate]
  · simp [Function.comp_def]
  · intro l hl
    rcases List.mem_append.mp hl with hl | hl
    · obtain ⟨line, hline, rfl⟩ := List.mem_map.mp hl
      exact h line hline
    · simp [List.mem_singleton.mp hl]
  · simp

/-! ## Parts of a line -/

/-- What comes after an opening, if that is what comes first. -/
def stripPrefix? {α : Type} [DecidableEq α] : (opening : List α) → List α → Option (List α)
  | [], l => some l
  | _ :: _, [] => none
  | a :: opening, b :: l => if a = b then stripPrefix? opening l else none

def after? (opening l : String) : Option String :=
  (stripPrefix? opening.toList l.toList).map String.ofList

def before? (closing l : String) : Option String :=
  (stripPrefix? closing.toList.reverse l.toList.reverse).map fun l => String.ofList l.reverse

/-- An identifier at the start of a line, as far as it goes, and what follows it. -/
def readIdentifier (l : String) : Option (String × String) :=
  let ident := String.ofList (l.toList.takeWhile Identifier.isPart)
  if isIdentifier ident then some (ident, .ofList (l.toList.dropWhile Identifier.isPart)) else none

/-- A quoted string at the start of a line, and what follows it. -/
def readQuoted (l : String) : Option (String × String) := do
  let l ← after? "\"" l
  let (text, bytes) ← (Lexeme.string (Utf8.ofString l)).toOption
  let rest ← (Utf8.decode bytes).toOption
  return (text, .ofList rest)

theorem stripPrefix?_append {α : Type} [DecidableEq α] (opening l : List α) :
    stripPrefix? opening (opening ++ l) = some l := by
  induction opening with
  | nil => cases l <;> rfl
  | cons a opening ih => rw [List.cons_append, stripPrefix?, if_pos rfl, ih]

@[simp] theorem after?_append (opening l : String) : after? opening (opening ++ l) = some l := by
  rw [after?, String.toList_append, stripPrefix?_append, Option.map_some, String.ofList_toList]

@[simp] theorem before?_append (l closing : String) : before? closing (l ++ closing) = some l := by
  rw [before?, String.toList_append, List.reverse_append, stripPrefix?_append, Option.map_some,
    List.reverse_reverse, String.ofList_toList]

/-- An identifier in front of such a text ends there. -/
def breaksOff (s : String) : Bool :=
  s.toList.head?.any fun c => !Identifier.isPart c

theorem breaksOff_append {s : String} (h : breaksOff s = true) (l : String) :
    breaksOff (s ++ l) = true := by
  rw [breaksOff] at h ⊢
  rw [String.toList_append]
  cases hs : s.toList with
  | nil => simp [hs] at h
  | cons c cs => simpa [hs] using h

theorem breaksOff_brace : breaksOff " \x7b" = true := by
  decide

theorem readIdentifier_append {ident : String} (h : isIdentifier ident = true) {l : String}
    (hl : breaksOff l = true) : readIdentifier (ident ++ l) = some (ident, l) := by
  have hpart := isPart_of_isIdentifier h
  have hstop : l.toList.takeWhile Identifier.isPart = [] ∧
      l.toList.dropWhile Identifier.isPart = l.toList := by
    rw [breaksOff] at hl
    cases hc : l.toList with
    | nil => simp
    | cons c cs => simp_all
  rw [readIdentifier, String.toList_append, List.takeWhile_append_of_pos hpart,
    List.dropWhile_append_of_pos hpart, hstop.1, hstop.2, List.append_nil, String.ofList_toList,
    String.ofList_toList]
  exact if_pos h

theorem readQuoted_quoted (s l : String) : readQuoted (Encode.quoted s ++ l) = some (s, l) := by
  have htext : Encode.quoted s ++ l =
      "\"" ++ (String.ofList (s.toList.flatMap Encode.quotedChar) ++ ("\"" ++ l)) := by
    rw [← String.toList_inj]
    simp [Encode.quoted]
  have hbytes : Utf8.ofString (String.ofList (s.toList.flatMap Encode.quotedChar) ++ ("\"" ++ l)) =
      Utf8.encode (s.toList.flatMap Encode.quotedChar) ++ Ascii.quote :: Utf8.encode l.toList := by
    rw [Utf8.ofString, String.toList_append, String.toList_append, String.toList_ofList,
      Utf8.encode_append, Utf8.encode_append]
    rfl
  rw [htext, readQuoted, after?_append]
  simp [hbytes, Lexeme.string_quoted, Except.toOption, Utf8.decode_encode]

/-- A quoted string does not break the line it stands in. -/
theorem newline_not_mem_quoted (s : String) : '\n' ∉ (Encode.quoted s).toList := by
  have hinside := Lexeme.not_mem_flatMap_quotedChar (d := '\n') (by decide) s.toList
  simpa [Encode.quoted] using hinside

/-! ## Blocks of lines -/

section ReadMany

variable {α : Type} {read : List String → Option (α × List String)} {print : α → List String}

/-- Reads blocks of lines for as long as there are any, up to a bound. -/
def readUpTo (read : List String → Option (α × List String)) :
    (bound : Nat) → List String → List α × List String
  | 0, ls => ([], ls)
  | n + 1, ls =>
    match read ls with
    | none => ([], ls)
    | some (a, ls) =>
      let (as, ls) := readUpTo read n ls
      (a :: as, ls)

/-- Reads blocks of lines for as long as there are any. There are no more of them than
lines. -/
def readMany (read : List String → Option (α × List String)) (ls : List String) :
    List α × List String :=
  readUpTo read ls.length ls

theorem readUpTo_flatMap (Follows : List String → Prop) {as : List α} {rest : List String}
    (h : ∀ a ∈ as, ∀ ls, Follows ls → read (print a ++ ls) = some (a, ls))
    (hprint : ∀ a ls, Follows (print a ++ ls)) (hrest : Follows rest) (hnone : read rest = none)
    {bound : Nat} (hbound : as.length ≤ bound) :
    readUpTo read bound (as.flatMap print ++ rest) = (as, rest) := by
  induction as generalizing bound with
  | nil => cases bound <;> simp [readUpTo, hnone]
  | cons a as ih =>
      obtain ⟨n, rfl⟩ := Nat.exists_eq_succ_of_ne_zero (Nat.ne_of_gt (Nat.zero_lt_of_lt hbound))
      obtain ⟨ha, h⟩ := List.forall_mem_cons.mp h
      have hfollows : Follows (as.flatMap print ++ rest) := by
        cases as with
        | nil => exact hrest
        | cons b as =>
            rw [List.flatMap_cons, List.append_assoc]
            exact hprint b _
      rw [List.flatMap_cons, List.append_assoc, readUpTo, ha _ hfollows]
      simp [ih h (Nat.le_of_succ_le_succ hbound)]

theorem length_le_flatMap {as : List α} (h : ∀ a ∈ as, print a ≠ []) (rest : List String) :
    as.length ≤ (as.flatMap print ++ rest).length := by
  induction as with
  | nil => simp
  | cons a as ih =>
      obtain ⟨ha, h⟩ := List.forall_mem_cons.mp h
      have hpos := List.length_pos_iff.mpr ha
      have hle := ih h
      simp only [List.flatMap_cons, List.length_append, List.length_cons] at hle ⊢
      omega

/-- Blocks that are printed one after another are read one after another, if each is
read in front of every rest that can follow it. -/
theorem readMany_flatMap (Follows : List String → Prop) {as : List α} {rest : List String}
    (h : ∀ a ∈ as, ∀ ls, Follows ls → read (print a ++ ls) = some (a, ls))
    (hprint : ∀ a ls, Follows (print a ++ ls)) (hrest : Follows rest) (hnone : read rest = none) :
    readMany read (as.flatMap print ++ rest) = (as, rest) := by
  -- A block of no lines would be read in front of the rest, where nothing is read.
  have hpos : ∀ a ∈ as, print a ≠ [] := by
    intro a ha hempty
    have hread := h a ha rest hrest
    rw [hempty, List.nil_append, hnone] at hread
    exact absurd hread (by simp)
  exact readUpTo_flatMap Follows h hprint hrest hnone (length_le_flatMap hpos rest)

end ReadMany

/-! ## Records -/

/-- The lines a record begins with: the same ones above its identifier, a line with the
identifier, and more lines that may repeat it. -/
structure Head where
  above : List String
  opening : String
  closing : String
  below : String → List String
  breaks : breaksOff closing = true

namespace Head

def print (head : Head) (ident : String) : List String :=
  head.above ++ (head.opening ++ (ident ++ head.closing)) :: head.below ident

def read (head : Head) (ls : List String) : Option (String × List String) := do
  match ← stripPrefix? head.above ls with
  | [] => none
  | l :: ls =>
    let l ← after? head.opening l
    let (ident, l) ← readIdentifier l
    let ls ← stripPrefix? (head.below ident) ls
    if l = head.closing then some (ident, ls) else none

theorem read_print (head : Head) {ident : String} (h : isIdentifier ident = true)
    (ls : List String) : head.read (head.print ident ++ ls) = some (ident, ls) := by
  rw [read, print, List.append_assoc, stripPrefix?_append]
  simp [readIdentifier_append h head.breaks, stripPrefix?_append]

end Head

/-- The records after a header, if nothing else is there. -/
def readText (header : List String) (read : List String → Option (RecordText × List String))
    (text : String) : Option (List RecordText) := do
  match readMany read (← stripPrefix? header (lines text)) with
  | (ts, [""]) => return ts
  | _ => none

theorem readText_unlines {header : List String}
    {read : List String → Option (RecordText × List String)} {print : RecordText → List String}
    (Follows : List String → Prop) {ts : List RecordText}
    (h : ∀ t ∈ ts, ∀ ls, Follows ls → read (print t ++ ls) = some (t, ls))
    (hprint : ∀ t ls, Follows (print t ++ ls)) (hend : Follows [""]) (hnone : read [""] = none)
    (hheader : ∀ l ∈ header, '\n' ∉ l.toList) (hline : ∀ t ∈ ts, ∀ l ∈ print t, '\n' ∉ l.toList) :
    readText header read (unlines (header ++ ts.flatMap print)) = some ts := by
  have hlines : ∀ l ∈ header ++ ts.flatMap print, '\n' ∉ l.toList := by
    simpa only [List.forall_mem_append, List.forall_mem_flatMap] using ⟨hheader, hline⟩
  have hmany := readMany_flatMap Follows h hprint hend hnone
  rw [readText, lines_unlines hlines, List.append_assoc, stripPrefix?_append]
  simp only [Option.bind_eq_bind, Option.bind_some, hmany]
  rfl

end Source

end JsonRecords
