import JsonRecords.Json.Nesting
import JsonRecords.Proofs.Json.Levels

/-!
# The scan of brackets is exact

The scan counts at every byte of a well-formed text exactly the containers that are open
there (`depths_eq`): strings are passed over whatever they hold, so it rises and falls
with the containers alone. Hence it finds out whether they nest deeper than a limit
(`exceeds_nests`), and a text it lets pass opens no more of them than the limit allows, as
far as it is well formed at all (`exceeds_exact`).
-/

namespace JsonRecords

namespace Grammar

open Ascii Decode Nesting

/-- A byte that the scan passes over outside of strings. -/
def IsNeutral (b : UInt8) : Prop :=
  b ≠ quote ∧ opens b = false ∧ closes b = false

instance (b : UInt8) : Decidable (IsNeutral b) :=
  inferInstanceAs (Decidable (_ ∧ _))

/-- The scan, where so many containers are open before a text, finds it to reach `d`
levels deeper and goes on after it with as many open containers as before. -/
def Scans (limit depth : Nat) (t : Bytes) (d : Nat) : Prop :=
  ∀ s, exceedsFrom limit .outside depth (t ++ s) =
    (decide (limit < depth + d) || exceedsFrom limit .outside depth s)

variable {limit depth : Nat}

theorem isNeutral_of_isBlank {b : UInt8} : isBlank b = true → IsNeutral b :=
  forall_byte (P := fun b => isBlank b = true → IsNeutral b) (by decide +kernel) b

theorem isNeutral_of_inNumeral {b : UInt8} : InNumeral b → IsNeutral b :=
  forall_byte (P := fun b => InNumeral b → IsNeutral b) (by decide +kernel) b

/-! ## The count after each byte -/

/-- How many containers the scan takes to be open after each byte of a text. -/
def depths (mode : Mode) (depth : Nat) : Bytes → List Nat
  | [] => []
  | b :: s => depthAfter mode depth b :: depths (mode.next b) (depthAfter mode depth b) s

theorem depths_take (mode : Mode) (depth k : Nat) (s : Bytes) :
    depths mode depth (s.take k) = (depths mode depth s).take k := by
  induction s generalizing mode depth k with
  | nil => simp [depths]
  | cons b s ih =>
      cases k with
      | zero => rfl
      | succ k => rw [List.take_succ_cons, depths, depths, ih, List.take_succ_cons]

theorem length_depths (mode : Mode) (depth : Nat) (s : Bytes) :
    (depths mode depth s).length = s.length := by
  induction s generalizing mode depth with
  | nil => rfl
  | cons b s ih => rw [depths, List.length_cons, ih, List.length_cons]

theorem exceedsFrom_eq_any (limit : Nat) (mode : Mode) (depth : Nat) (s : Bytes) :
    exceedsFrom limit mode depth s = (depths mode depth s).any (limit < ·) := by
  induction s generalizing mode depth with
  | nil => rfl
  | cons b s ih => rw [exceedsFrom_cons, ih, depths, List.any_cons]

/-! ## Stretches of bytes -/

/-- The scan follows a stretch of bytes: however many containers are open before it, after
each of its bytes it counts so many more, and goes on with as many as before. -/
def Follows (mode mode' : Mode) (t : Bytes) (ls : List Nat) : Prop :=
  ∀ depth s, depths mode depth (t ++ s) = ls.map (depth + ·) ++ depths mode' depth s

theorem Follows.append {mode mode' mode'' : Mode} {t u : Bytes} {ls ls' : List Nat}
    (ht : Follows mode mode' t ls) (hu : Follows mode' mode'' u ls') :
    Follows mode mode'' (t ++ u) (ls ++ ls') := by
  intro depth s
  rw [List.append_assoc, ht, hu, List.map_append, List.append_assoc]

theorem Follows.flat_append {mode mode' mode'' : Mode} {t u : Bytes}
    (ht : Follows mode mode' t (flat t)) (hu : Follows mode' mode'' u (flat u)) :
    Follows mode mode'' (t ++ u) (flat (t ++ u)) := by
  rw [Grammar.flat_append]
  exact ht.append hu

/-- A byte that leaves the count as it is. -/
theorem follows_byte {mode : Mode} {b : UInt8}
    (h : ∀ depth, depthAfter mode depth b = depth) :
    Follows mode (mode.next b) [b] (flat [b]) := by
  intro depth s
  rw [List.singleton_append, depths, h]
  rfl

theorem follows_flat {mode : Mode} {t : Bytes}
    (h : ∀ b ∈ t, mode.next b = mode ∧ ∀ depth, depthAfter mode depth b = depth) :
    Follows mode mode t (flat t) := by
  induction t with
  | nil => exact fun _ _ => rfl
  | cons b t ih =>
      obtain ⟨⟨hmode, hdepth⟩, h⟩ := List.forall_mem_cons.mp h
      have hb := follows_byte hdepth
      rw [hmode] at hb
      exact hb.flat_append (ih h)

theorem follows_neutral {t : Bytes} (h : ∀ b ∈ t, IsNeutral b) :
    Follows .outside .outside t (flat t) := by
  refine follows_flat fun b hb => ?_
  obtain ⟨hquote, hopen, hclose⟩ := h b hb
  exact ⟨if_neg hquote, fun depth => by simp [depthAfter, hopen, hclose]⟩

theorem follows_blank {gap : Bytes} (hgap : Blank gap) :
    Follows .outside .outside gap (flat gap) :=
  follows_neutral fun b hb => isNeutral_of_isBlank (hgap b hb)

/-! ## Strings -/

theorem follows_plain {t : Bytes} (h : ∀ b ∈ t, b ≠ quote ∧ b ≠ backslash) :
    Follows .quoted .quoted t (flat t) := by
  refine follows_flat fun b hb => ?_
  obtain ⟨hquote, hback⟩ := h b hb
  exact ⟨by simp [Mode.next, hquote, hback], fun _ => rfl⟩

/-- The byte after a backslash is passed over, whatever it is. -/
theorem follows_escaped (e : UInt8) :
    Follows .quoted .quoted [backslash, e] (flat [backslash, e]) :=
  have hback : Follows .quoted .escaped [backslash] (flat [backslash]) :=
    follows_byte fun _ => rfl
  hback.flat_append (follows_byte (b := e) fun _ => rfl)

theorem follows_piece (p : Piece) : Follows .quoted .quoted p.bytes (flat p.bytes) := by
  cases p with
  | plain b h => exact follows_plain (List.forall_mem_singleton.mpr ⟨h.1, h.2.1⟩)
  | letter e h => exact follows_escaped e
  | number a b c d h =>
      have hplain : ∀ x ∈ [a, b, c, d], x ≠ quote ∧ x ≠ backslash := fun x hx =>
        forall_byte (P := fun x => (hexValue? x).isSome → x ≠ quote ∧ x ≠ backslash)
          (by decide +kernel) x (h x hx)
      exact (follows_escaped letterU).flat_append (follows_plain hplain)

theorem follows_content (pieces : List Piece) :
    Follows .quoted .quoted (content pieces) (flat (content pieces)) := by
  induction pieces with
  | nil => exact fun _ _ => rfl
  | cons p pieces ih => exact (follows_piece p).flat_append ih

/-- Within a string nothing is passed that counts as a bracket or ends the string,
up to its closing quote. -/
theorem follows_string (pieces : List Piece) :
    Follows .outside .outside (quote :: (content pieces ++ [quote]))
      (flat (quote :: (content pieces ++ [quote]))) := by
  have hopening : Follows .outside .quoted [quote] (flat [quote]) := follows_byte fun _ => rfl
  have hclosing : Follows .quoted .outside [quote] (flat [quote]) := follows_byte fun _ => rfl
  exact hopening.flat_append ((follows_content pieces).flat_append hclosing)

/-! ## Values -/

theorem follows_word {t : Bytes} (h : (t.all fun b => decide (IsNeutral b)) = true) :
    Follows .outside .outside t (flat t) :=
  follows_neutral (by simpa using h)

theorem follows_scalar {t : Bytes} (h : Scalar t) : Follows .outside .outside t (flat t) := by
  cases h with
  | null => exact follows_word (by decide)
  | yes => exact follows_word (by decide)
  | no => exact follows_word (by decide)
  | string pieces => exact follows_string pieces
  | number h => exact follows_neutral fun b hb => isNeutral_of_inNumeral (h.inNumeral b hb)

theorem follows_row {first : Bool} {items : List (Bytes × List Nat)} {body : Bytes}
    {ls : List Nat} (hr : RowLevels first items body ls)
    (h : ∀ i ∈ items, Follows .outside .outside i.1 i.2) : Follows .outside .outside body ls := by
  induction hr with
  | nil hgap => exact follows_blank hgap
  | @cons first _ _ _ _ _ _ _ hgap hgap' _ ih =>
      have hbetween : ∀ b ∈ between first, IsNeutral b := by
        cases first with
        | true => exact List.forall_mem_nil _
        | false => exact List.forall_mem_singleton.mpr (by decide)
      obtain ⟨ht, h⟩ := List.forall_mem_cons.mp h
      exact ((follows_blank hgap).flat_append (follows_neutral hbetween)).append
        ((follows_blank hgap').append (ht.append (ih h)))

theorem follows_head (m : Member) : Follows .outside .outside m.head (flat m.head) := by
  have hcolon : ∀ b ∈ [Ascii.colon], IsNeutral b := List.forall_mem_singleton.mpr (by decide)
  have hhead := (follows_string m.key).flat_append ((follows_blank m.blank_before).flat_append
    ((follows_neutral hcolon).flat_append (follows_blank m.blank_after)))
  simpa [Member.head] using hhead

/-- What stands in a container is followed with one container more open. -/
theorem follows_around {opening closing : UInt8} {body : Bytes} {ls : List Nat}
    (hopening : opening ≠ quote ∧ opens opening = true)
    (hclosing : closing ≠ quote ∧ opens closing = false ∧ closes closing = true)
    (hbody : Follows .outside .outside body ls) :
    Follows .outside .outside (opening :: (body ++ [closing])) (around ls) := by
  intro depth s
  have hopen : depthAfter .outside depth opening = depth + 1 := if_pos hopening.2
  have hclose : depthAfter .outside (depth + 1) closing = depth := by
    simp [depthAfter, hclosing]
  have hstart : Mode.next opening .outside = .outside := if_neg hopening.1
  have hstop : Mode.next closing .outside = .outside := if_neg hclosing.1
  have hraised : ls.map (depth + 1 + ·) = (ls.map (· + 1)).map (depth + ·) := by
    rw [List.map_map]
    exact List.map_congr_left fun l _ => by simp only [Function.comp_apply]; omega
  rw [List.cons_append, List.append_assoc, List.singleton_append, depths, hopen, hstart, hbody,
    depths, hclose, hstop, hraised]
  simp [around]

/-- The scan counts the open containers of a value. -/
theorem follows_levels {t : Bytes} {ls : List Nat} (h : Levels t ls) :
    Follows .outside .outside t ls := by
  induction h with
  | scalar h => exact follows_scalar h
  | array hr _ ih => exact follows_around (by decide) (by decide) (follows_row hr ih)
  | object hr _ ih =>
      refine follows_around (by decide) (by decide) (follows_row hr ?_)
      refine List.forall_mem_map.mpr fun m hm => ?_
      rw [Member.text_eq]
      exact (follows_head m.1).append (ih m hm)

/-! ## The greatest depth -/

theorem any_map_add (ls : List Nat) (hd : depth ≤ limit) :
    (ls.map (depth + ·)).any (limit < ·) = decide (limit < depth + deepest ls) := by
  have hlimit : ∀ l, limit < depth + l ↔ limit - depth < l := fun l => by omega
  rw [Bool.eq_iff_iff, decide_eq_true_iff, List.any_map, List.any_eq_true, hlimit, lt_deepest_iff]
  simp only [Function.comp_apply, decide_eq_true_iff, hlimit]

/-- The scan reaches as deep into a value as its containers nest. -/
theorem scans_nests {d : Nat} {t : Bytes} (h : Nests d t) {limit depth : Nat}
    (hd : depth ≤ limit) : Scans limit depth t d := by
  obtain ⟨ls, hls, rfl⟩ := exists_levels h
  intro s
  rw [exceedsFrom_eq_any, follows_levels hls, List.any_append, any_map_add ls hd,
    exceedsFrom_eq_any]

/-- The scan tells exactly whether the containers of a value nest deeper than a
limit. -/
theorem exceeds_nests {d : Nat} {t : Bytes} (h : Nests d t) (limit : Nat) :
    exceeds limit t = decide (limit < d) := by
  have hscan := scans_nests h (Nat.zero_le limit) []
  rw [List.append_nil, exceedsFrom_nil, Bool.or_false, Nat.zero_add] at hscan
  exact hscan

/-! ## Texts and what they begin with -/

/-- The scan counts at each byte of a well-formed text the containers open there. -/
theorem depths_eq {w : Bytes} {ls : List Nat} (h : TextLevels w ls) : depths .outside 0 w = ls := by
  cases h with
  | mk hgap ht hgap' =>
      have hfollows := (follows_blank hgap).append
        ((follows_levels ht).append (follows_blank hgap')) 0 []
      simpa [depths] using hfollows

theorem exceeds_wellFormed {d : Nat} {w : Bytes} (h : WellFormed d w) (limit : Nat) :
    exceeds limit w = decide (limit < d) := by
  obtain ⟨ls, hls, rfl⟩ := h.exists_levels
  have hany := any_map_add ls (Nat.zero_le limit)
  simp only [Nat.zero_add, List.map_id'] at hany
  rw [exceeds, exceedsFrom_eq_any, depths_eq hls, hany]

/-- How many containers are open at the end of what a well-formed text begins with is told
by the scan, and so does not depend on how the text goes on. -/
theorem openAfter_iff {d : Nat} {w p : Bytes} (h : WellFormed d w) (hp : p <+: w) {n : Nat} :
    OpenAfter w p.length n ↔ (0 :: depths .outside 0 p)[p.length]? = some n := by
  have hdepths : depths .outside 0 p = (depths .outside 0 w).take p.length := by
    rw [← depths_take, ← List.prefix_iff_eq_take.mp hp]
  have hread : ∀ {ls}, TextLevels w ls →
      (0 :: depths .outside 0 p)[p.length]? = (0 :: ls)[p.length]? := fun {ls} hls => by
    rw [hdepths, depths_eq hls, ← List.take_succ_cons,
      List.getElem?_take_of_lt (Nat.lt_succ_self _)]
  obtain ⟨ls, hls, _⟩ := h.exists_levels
  constructor
  · rintro ⟨ls, hls, hn⟩
    rw [hread hls, hn]
  · intro hn
    exact ⟨ls, hls, (hread hls).symm.trans hn⟩

/-- The scan exceeds its limit on a well-formed text exactly if the containers of the text
nest deeper than that. Where it does not exceed it on some bytes, well formed or not, then
at the end of any bytes they begin with, at most so many containers are open in any
well-formed text that begins with the same. -/
theorem exceeds_exact (limit : Nat) :
    (∀ d w, WellFormed d w → (exceeds limit w = true ↔ limit < d)) ∧
    ∀ bytes, exceeds limit bytes = false → ∀ p, p <+: bytes →
      ∃ n ≤ limit, ∀ d w, WellFormed d w → p <+: w → ∀ m, OpenAfter w p.length m ↔ m = n := by
  refine ⟨fun d w h => by rw [exceeds_wellFormed h, decide_eq_true_iff], ?_⟩
  intro bytes hscan p hp
  -- the scan of `bytes` begins with that of `p`, so it stays within the limit there, too
  have hbounded : ∀ n ∈ (0 :: depths .outside 0 p), n ≤ limit := by
    refine List.forall_mem_cons.mpr ⟨Nat.zero_le _, fun n hn => Nat.not_lt.mp fun hlt => ?_⟩
    rw [List.prefix_iff_eq_take.mp hp, depths_take] at hn
    rw [exceeds, exceedsFrom_eq_any, List.any_eq_false] at hscan
    exact hscan n (List.mem_of_mem_take hn) (by simpa using hlt)
  have hlast : p.length < (0 :: depths .outside 0 p).length := by
    rw [List.length_cons, length_depths]
    exact Nat.lt_succ_self _
  refine ⟨_, hbounded _ (List.getElem_mem hlast), fun d w h hw m => ?_⟩
  rw [openAfter_iff h hw, List.getElem?_eq_getElem hlast, Option.some_inj, eq_comm]

/-- Brackets in a string do not count, nor does an escaped quote end it. -/
example : exceeds 1 [openBracket, quote, openBracket, backslash, quote, openBracket, quote,
    closeBracket] = false := by decide

end Grammar

end JsonRecords
