/-!
# Lines and blanks

A line ends at a line feed, and one carriage return before the feed belongs to
the ending. Text after the last feed is a line of its own if there is any.
Blanks are the characters with the Unicode property `White_Space`. Trimming takes
them away from both ends of a text (`trim_eq_iff`).
-/

namespace JsonRecords

namespace Lines

/-- Whether a character has the property `White_Space`. -/
def isBlank (c : Char) : Bool :=
  let n := c.toNat
  (0x09 ≤ n && n ≤ 0x0D) || n == 0x20 || n == 0x85 || n == 0xA0 || n == 0x1680
    || (0x2000 ≤ n && n ≤ 0x200A) || n == 0x2028 || n == 0x2029 || n == 0x202F
    || n == 0x205F || n == 0x3000

/-- Drops one carriage return from the end of a line given last character
first. -/
def dropReturn : List Char → List Char
  | '\r' :: cs => cs
  | cs => cs

/-- The lines of a text whose first line has begun with `line`, last character
first. -/
def splitFrom (line : List Char) : List Char → List (List Char)
  | [] => if line.isEmpty then [] else [line.reverse]
  | c :: cs =>
    if c = '\n' then (dropReturn line).reverse :: splitFrom [] cs
    else splitFrom (c :: line) cs

/-- The lines of a text, without their endings. -/
def split (cs : List Char) : List (List Char) :=
  splitFrom [] cs

/-- A text without the blanks at its ends. -/
def trim (cs : List Char) : List Char :=
  ((cs.dropWhile isBlank).reverse.dropWhile isBlank).reverse

@[simp] theorem split_nil : split [] = [] := rfl

@[simp] theorem trim_nil : trim [] = [] := rfl

theorem splitFrom_newline (line cs : List Char) :
    splitFrom line ('\n' :: cs) = (dropReturn line).reverse :: splitFrom [] cs := by
  simp [splitFrom]

/-! ## What trimming takes away -/

theorem dropWhile_isBlank_append {before cs : List Char} (hbefore : ∀ c ∈ before, isBlank c = true)
    (hhead : ∀ c ∈ cs.head?, isBlank c = false) : (before ++ cs).dropWhile isBlank = cs := by
  rw [List.dropWhile_append_of_pos hbefore]
  cases cs with
  | nil => rfl
  | cons c cs => simp [hhead c rfl]

theorem isBlank_of_head?_dropWhile {cs : List Char} :
    ∀ c ∈ (cs.dropWhile isBlank).head?, isBlank c = false := by
  intro c hc
  have hhead := List.head?_dropWhile_not isBlank cs
  rwa [hc] at hhead

/-- Blanks around what begins and ends with no blank are trimmed. -/
theorem trim_around {before cs after : List Char} (hbefore : ∀ c ∈ before, isBlank c = true)
    (hafter : ∀ c ∈ after, isBlank c = true) (hhead : ∀ c ∈ cs.head?, isBlank c = false)
    (hlast : ∀ c ∈ cs.getLast?, isBlank c = false) : trim (before ++ cs ++ after) = cs := by
  cases cs with
  | nil =>
      have hall : (before ++ after ++ []).dropWhile isBlank = [] :=
        dropWhile_isBlank_append (List.forall_mem_append.mpr ⟨hbefore, hafter⟩) hhead
      rw [List.append_nil] at hall
      rw [trim, List.append_nil, hall]
      rfl
  | cons c cs =>
      have hfront : (before ++ (c :: cs ++ after)).dropWhile isBlank = c :: cs ++ after :=
        dropWhile_isBlank_append hbefore hhead
      have hback : (after.reverse ++ (c :: cs).reverse).dropWhile isBlank = (c :: cs).reverse :=
        dropWhile_isBlank_append (by simpa using hafter) (by rwa [List.head?_reverse])
      rw [trim, List.append_assoc, hfront, List.reverse_append, hback, List.reverse_reverse]

/-- Trimming takes away all blanks at both ends of a text, and nothing else. -/
theorem trim_eq_iff {cs ds : List Char} :
    trim cs = ds ↔ ∃ before after, cs = before ++ ds ++ after ∧
      (∀ c ∈ before, isBlank c = true) ∧ (∀ c ∈ after, isBlank c = true) ∧
      (∀ c ∈ ds.head?, isBlank c = false) ∧ ∀ c ∈ ds.getLast?, isBlank c = false := by
  constructor
  · rintro rfl
    let rest := cs.dropWhile isBlank
    have htaken (ds : List Char) : ∀ c ∈ ds.takeWhile isBlank, isBlank c = true :=
      List.all_eq_true.mp List.all_takeWhile
    have hrest : rest = trim cs ++ (rest.reverse.takeWhile isBlank).reverse := by
      rw [trim, ← List.reverse_append, List.takeWhile_append_dropWhile, List.reverse_reverse]
    refine ⟨cs.takeWhile isBlank, (rest.reverse.takeWhile isBlank).reverse, ?_, htaken cs,
      by simpa using htaken rest.reverse, fun c hc => ?_, fun c hc => ?_⟩
    · rw [List.append_assoc, ← hrest, List.takeWhile_append_dropWhile]
    · -- what trimming leaves begins what is left without the blanks in front
      have hhead : rest.head? = some c := by
        rw [hrest, List.head?_append, hc]
        rfl
      exact isBlank_of_head?_dropWhile c hhead
    · rw [trim, List.getLast?_reverse] at hc
      exact isBlank_of_head?_dropWhile c hc
  · rintro ⟨before, after, rfl, hbefore, hafter, hhead, hlast⟩
    exact trim_around hbefore hafter hhead hlast

end Lines

end JsonRecords
