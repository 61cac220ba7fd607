import JsonRecords.Proofs.Json.Grammar

/-!
# Levels of a text

The levels of a value tell of each of its bytes how many of its containers are open after
it (`Levels`). There is none after a byte of a scalar. After the opening byte of a
container there is one, after every byte of what stands in it one more than there would
be without it, and after its closing byte none. Every value has levels, and the highest of
them is the depth to which its containers nest (`exists_levels`).
-/

namespace JsonRecords

namespace Grammar

open Ascii Decode

/-! ## Values -/

/-- The levels of a text that opens no container. -/
def flat (t : Bytes) : List Nat :=
  t.map fun _ => 0

theorem flat_append (t u : Bytes) : flat (t ++ u) = flat t ++ flat u :=
  List.map_append

/-- The levels of a container, by the levels of what stands between its first and its last
byte. -/
def around (ls : List Nat) : List Nat :=
  1 :: (ls.map (· + 1) ++ [0])

/-- The levels of a row, by the levels of its items. -/
inductive RowLevels : (first : Bool) → List (Bytes × List Nat) → Bytes → List Nat → Prop where
  | nil {first : Bool} {gap : Bytes} (hgap : Blank gap) : RowLevels first [] gap (flat gap)
  | cons {first : Bool} {gap gap' text more : Bytes} {textLevels ls : List Nat}
      {items : List (Bytes × List Nat)} (hgap : Blank gap) (hgap' : Blank gap')
      (h : RowLevels false items more ls) :
      RowLevels first ((text, textLevels) :: items)
        (gap ++ between first ++ (gap' ++ (text ++ more)))
        (flat (gap ++ between first) ++ (flat gap' ++ (textLevels ++ ls)))

/-- A member up to its value. -/
def Member.head (m : Member) : Bytes :=
  quote :: (content m.key ++ quote :: (m.before ++ Ascii.colon :: m.after))

theorem Member.text_eq (m : Member) : m.text = m.head ++ m.value := by
  simp [Member.text, Member.head]

/-- How many containers of a value are open after each of its bytes. -/
inductive Levels : Bytes → List Nat → Prop where
  | scalar {t : Bytes} (h : Scalar t) : Levels t (flat t)
  | array {items : List (Bytes × List Nat)} {body : Bytes} {ls : List Nat}
      (hr : RowLevels true items body ls) (h : ∀ i ∈ items, Levels i.1 i.2) :
      Levels (openBracket :: (body ++ [closeBracket])) (around ls)
  | object {members : List (Member × List Nat)} {body : Bytes} {ls : List Nat}
      (hr : RowLevels true (members.map fun m => (m.1.text, flat m.1.head ++ m.2)) body ls)
      (h : ∀ m ∈ members, Levels m.1.value m.2) :
      Levels (openBrace :: (body ++ [closeBrace])) (around ls)

theorem deepest_flat (t : Bytes) : deepest (flat t) = 0 :=
  Nat.le_zero.mp (deepest_le_iff.mpr (List.forall_mem_map.mpr fun _ _ => Nat.le_refl 0))

theorem deepest_around (ls : List Nat) : deepest (around ls) = deepest ls + 1 := by
  have hsucc : deepest (1 :: ls.map (· + 1)) = deepest ls + 1 := by
    induction ls with
    | nil => rfl
    | cons l ls ih =>
        rw [deepest_cons] at ih
        rw [List.map_cons, deepest_cons, deepest_cons, deepest_cons]
        omega
  rw [around, ← List.cons_append, deepest_append, hsucc]
  exact Nat.max_eq_left (Nat.zero_le _)

/-- A row has levels if its items do, and reaches as high as they do. -/
theorem exists_rowLevels {first : Bool} {items : List (Bytes × List Nat)} {body : Bytes}
    (h : Row first (items.map Prod.fst) body) :
    ∃ ls, RowLevels first items body ls ∧ deepest ls = deepest (items.map (deepest ·.2)) := by
  induction items generalizing first body with
  | nil =>
      cases h with
      | nil hgap => exact ⟨_, .nil hgap, deepest_flat _⟩
  | cons item items ih =>
      cases h with
      | cons hgap hgap' h =>
          obtain ⟨ls, hls, hdeepest⟩ := ih h
          refine ⟨_, .cons hgap hgap' hls, ?_⟩
          rw [List.map_cons, deepest_cons, deepest_append, deepest_append, deepest_append,
            deepest_flat, deepest_flat, hdeepest, Nat.zero_max, Nat.zero_max]

/-- Every value has levels, the highest of which is its depth. -/
theorem exists_levels {d : Nat} {t : Bytes} (h : Nests d t) :
    ∃ ls, Levels t ls ∧ deepest ls = d := by
  induction h with
  | scalar h => exact ⟨_, .scalar h, deepest_flat _⟩
  | @array texts body depth hr _ ih =>
      choose! levels hlevels using ih
      have hr' : Row true ((texts.map fun t => (t, levels t)).map Prod.fst) body := by
        simpa [Function.comp_def] using hr
      obtain ⟨ls, hls, hdeepest⟩ := exists_rowLevels hr'
      refine ⟨_, .array hls (List.forall_mem_map.mpr fun t ht => (hlevels t ht).1), ?_⟩
      rw [deepest_around, hdeepest, List.map_map]
      exact congrArg (deepest · + 1) (List.map_congr_left fun t ht => (hlevels t ht).2)
  | @object members body depth hr _ ih =>
      choose! levels hlevels using ih
      have hr' : Row true (((members.map fun m => (m, levels m)).map
          fun m => (m.1.text, flat m.1.head ++ m.2)).map Prod.fst) body := by
        simpa [Function.comp_def] using hr
      obtain ⟨ls, hls, hdeepest⟩ := exists_rowLevels hr'
      refine ⟨_, .object hls (List.forall_mem_map.mpr fun m hm => (hlevels m hm).1), ?_⟩
      rw [deepest_around, hdeepest, List.map_map, List.map_map]
      refine congrArg (deepest · + 1) (List.map_congr_left fun m hm => ?_)
      change deepest (flat m.head ++ levels m) = _
      rw [deepest_append, deepest_flat, Nat.zero_max, (hlevels m hm).2]

/-! ## Texts -/

/-- A well-formed text is a value between blanks, with so many containers nested in each
other. -/
inductive WellFormed (d : Nat) : Bytes → Prop where
  | mk {gap t gap' : Bytes} (hgap : Blank gap) (ht : Nests d t) (hgap' : Blank gap') :
      WellFormed d (gap ++ (t ++ gap'))

/-- How many containers of a well-formed text are open after each of its bytes. -/
inductive TextLevels : Bytes → List Nat → Prop where
  | mk {gap t gap' : Bytes} {ls : List Nat} (hgap : Blank gap) (ht : Levels t ls)
      (hgap' : Blank gap') : TextLevels (gap ++ (t ++ gap')) (flat gap ++ (ls ++ flat gap'))

/-- So many containers of a well-formed text are open after its first `k` bytes. -/
def OpenAfter (w : Bytes) (k n : Nat) : Prop :=
  ∃ ls, TextLevels w ls ∧ (0 :: ls)[k]? = some n

theorem WellFormed.exists_levels {d : Nat} {w : Bytes} (h : WellFormed d w) :
    ∃ ls, TextLevels w ls ∧ deepest ls = d := by
  cases h with
  | mk hgap ht hgap' =>
      obtain ⟨ls, hls, hdeepest⟩ := Grammar.exists_levels ht
      refine ⟨_, .mk hgap hls hgap', ?_⟩
      rw [deepest_append, deepest_append, deepest_flat, deepest_flat, hdeepest, Nat.zero_max,
        Nat.max_zero]

end Grammar

end JsonRecords
