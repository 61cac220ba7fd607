import JsonRecords.Output.Sink
import JsonRecords.Proofs.Text.Utf8
import Mathlib.Data.List.Basic

/-!
# What a sink holds

A sink is told by its room at the start and by all the bytes it has been given since,
stored or not: it holds as many of them as it has room for (`Given`). Every write adds
to those bytes, whether it fails or not, and succeeds exactly if all of them fit
(`Given.write`). So after a run the sink holds what fits of all sources together
(`writeAll_exact`). It does not matter in which portions a sink takes the bytes of a
write (`Portions.eq_put`).
-/

namespace JsonRecords

/-! ## Line feeds at the end -/

/-- A text with a line feed at the end, added if need be. -/
def closed (text : String) : String :=
  if text.toList.getLast? = some '\n' then text else text ++ "\n"

theorem Utf8.lineFeed_mem_encodeChar_iff {c : Char} :
    Ascii.lineFeed ∈ encodeChar c ↔ c = '\n' := by
  constructor
  · intro h
    have hascii : c.toNat < 0x80 := by
      by_contra hge
      exact absurd (toNat_ge_of_mem_encodeChar (Nat.not_lt.mp hge) h) (by decide)
    rw [encodeChar_of_lt hascii, List.mem_singleton] at h
    have hnat := congrArg UInt8.toNat h
    rw [toNat_ofNat (by omega)] at hnat
    exact Char.toNat_inj.mp hnat.symm
  · rintro rfl
    decide

/-- The bytes of a text end in a line feed exactly if the text does. -/
theorem endsInNewline_ofString (text : String) :
    endsInNewline (Utf8.ofString text) = true ↔ text.toList.getLast? = some '\n' := by
  rw [endsInNewline, decide_eq_true_iff, Utf8.ofString]
  rcases List.eq_nil_or_concat' text.toList with h | ⟨before, last, h⟩
  · simp [h]
  · have hbytes : Utf8.encode text.toList = Utf8.encode before ++ Utf8.encodeChar last := by
      simp [h]
    rw [hbytes, h, List.getLast?_append_of_ne_nil _ (Utf8.encodeChar_ne_nil last),
      List.getLast?_concat, Option.some_inj]
    constructor
    · intro hlast
      exact Utf8.lineFeed_mem_encodeChar_iff.mp (List.mem_of_getLast? hlast)
    · rintro rfl
      rfl

theorem terminated_ofString (text : String) :
    terminated (Utf8.ofString text) = Utf8.ofString (closed text) := by
  rw [terminated, closed]
  by_cases h : text.toList.getLast? = some '\n'
  · rw [if_pos h, if_pos ((endsInNewline_ofString text).mpr h)]
  · rw [if_neg h, if_neg (mt (endsInNewline_ofString text).mp h), Utf8.ofString, Utf8.ofString,
      String.toList_append, Utf8.encode_append]
    rfl

namespace Sink

/-! ## What a sink has been given -/

/-- Whether so many bytes fit into a room. -/
def fits (room : Option Nat) (n : Nat) : Bool :=
  room.all (n ≤ ·)

/-- The bytes that a room has space for. -/
def kept (room : Option Nat) (s : Bytes) : Bytes :=
  match room with
  | none => s
  | some n => s.take n

theorem fits_of_le {room : Option Nat} {m n : Nat} (h : m ≤ n) (hn : fits room n = true) :
    fits room m = true := by
  cases room with
  | none => rfl
  | some limit => exact decide_eq_true (Nat.le_trans h (of_decide_eq_true hn))

/-- A sink that began with a room and was given bytes since, of which it stored those that
fit. -/
structure Given (room : Option Nat) (s : Bytes) (k : Sink) : Prop where
  room_eq : k.room = room.map (· - s.length)
  stored_eq : k.stored = kept room s

variable {room : Option Nat} {s t : Bytes} {k : Sink}

theorem given_empty (room : Option Nat) : Given room [] (empty room) where
  room_eq := by cases room <;> rfl
  stored_eq := by cases room <;> simp [kept]

/-- What is given to a sink without room for it changes nothing. -/
theorem Given.append_of_not_fits (h : Given room s k) (hfull : fits room s.length = false) :
    Given room (s ++ t) k := by
  cases room with
  | none => cases hfull
  | some n =>
      have hlt : n < s.length := by simpa [fits] using hfull
      constructor
      · rw [h.room_eq, List.length_append]
        simp
        omega
      · rw [h.stored_eq, kept, kept, List.take_append_of_le_length (by omega)]

theorem Given.put (h : Given room s k) (t : Bytes) : Given room (s ++ t) (k.put t).1 := by
  obtain ⟨left, pieces⟩ := k
  cases room with
  | none =>
      obtain rfl : left = none := h.room_eq
      refine ⟨rfl, ?_⟩
      rw [stored_put_none, h.stored_eq]
      rfl
  | some n =>
      obtain rfl : left = some (n - s.length) := h.room_eq
      constructor
      · rw [List.length_append]
        exact congrArg some (Nat.sub_sub n s.length t.length)
      · rw [stored_put_some, h.stored_eq, kept, kept, List.take_append]

/-- Bytes that are all stored leave no byte before them out. -/
theorem Given.put_snd (h : Given room s k) (ht : t ≠ []) :
    (k.put t).2 = fits room (s ++ t).length := by
  obtain ⟨left, pieces⟩ := k
  have hpos := List.length_pos_iff.mpr ht
  cases room with
  | none =>
      obtain rfl : left = none := h.room_eq
      rfl
  | some n =>
      obtain rfl : left = some (n - s.length) := h.room_eq
      rw [List.length_append]
      exact decide_eq_decide.mpr (by omega)

theorem put_nil_snd (k : Sink) : (k.put []).2 = true := by
  rw [Sink.put]
  split <;> simp

/-- A write gives a sink the source with a line feed at its end, and succeeds if all bytes
given so far fit. -/
theorem Given.write (h : Given room s k) (source : Bytes) :
    Given room (s ++ terminated source) (k.write source).1 ∧
      (k.write source).2 = fits room (s ++ terminated source).length := by
  have hput := h.put source
  by_cases hend : endsInNewline source = true
  · -- The source is all that is written.
    have hne : source ≠ [] := by
      rintro rfl
      cases hend
    have hwrite : k.write source = k.put source := by simp [Sink.write, hend]
    rw [hwrite, terminated, if_pos hend]
    exact ⟨hput, h.put_snd hne⟩
  · rw [terminated, if_neg hend, ← List.append_assoc]
    cases hok : (k.put source).2 with
    | true =>
        -- The source fits, and the line feed is written in addition.
        have hwrite : k.write source = (k.put source).1.put [Ascii.lineFeed] := by
          simp [Sink.write, hok, hend]
        rw [hwrite]
        exact ⟨hput.put _, hput.put_snd (List.cons_ne_nil _ _)⟩
    | false =>
        -- The source does not fit, and neither does anything after it.
        have hne : source ≠ [] := by
          rintro rfl
          simp [put_nil_snd] at hok
        have hfull : fits room (s ++ source).length = false := h.put_snd hne ▸ hok
        have hwrite : k.write source = ((k.put source).1, false) := by
          simp [Sink.write, hok]
        rw [hwrite]
        refine ⟨hput.append_of_not_fits hfull, (Bool.eq_false_iff.mpr fun hfits => ?_).symm⟩
        rw [fits_of_le (by simp) hfits] at hfull
        cases hfull

/-! ## Runs -/

theorem writeAll_cons (k : Sink) (source : Bytes) (sources : List Bytes) :
    k.writeAll (source :: sources) =
      (((k.write source).1.writeAll sources).1,
        (k.write source).2 :: ((k.write source).1.writeAll sources).2) :=
  rfl

theorem length_writeAll_snd (k : Sink) (sources : List Bytes) :
    (k.writeAll sources).2.length = sources.length := by
  induction sources generalizing k with
  | nil => rfl
  | cons source sources ih => rw [writeAll_cons, List.length_cons, ih, List.length_cons]

theorem Given.writeAll (h : Given room s k) (sources : List Bytes) :
    Given room (s ++ sources.flatMap terminated) (k.writeAll sources).1 := by
  induction sources generalizing s k with
  | nil => simpa using h
  | cons source sources ih =>
      have hrest := ih (h.write source).1
      rwa [List.append_assoc, ← List.flatMap_cons] at hrest

/-- A write of a run succeeds if all bytes given up to its end fit. -/
theorem Given.getElem?_writeAll_snd (h : Given room s k) (sources : List Bytes) {i : Nat}
    (hi : i < sources.length) :
    (k.writeAll sources).2[i]? =
      some (fits room (s ++ (sources.take (i + 1)).flatMap terminated).length) := by
  induction sources generalizing s k i with
  | nil => cases hi
  | cons source sources ih =>
      obtain ⟨hgiven, hok⟩ := h.write source
      rw [writeAll_cons]
      cases i with
      | zero => simp [hok]
      | succ i =>
          have hrest := ih hgiven (Nat.lt_of_succ_lt_succ hi)
          rw [List.append_assoc, ← List.flatMap_cons] at hrest
          rw [List.getElem?_cons_succ, hrest]
          rfl

/-- The writes of a shorter run are the first ones of a longer run. -/
theorem writeAll_take_snd (k : Sink) (sources : List Bytes) (n : Nat) :
    (k.writeAll (sources.take n)).2 = (k.writeAll sources).2.take n := by
  induction sources generalizing k n with
  | nil => simp
  | cons source sources ih =>
      cases n with
      | zero => rfl
      | succ n => rw [List.take_succ_cons, writeAll_cons, writeAll_cons, ih, List.take_succ_cons]

/-- Texts are written one after another, also after failures, to a sink that takes a
limited number of bytes. After each write the sink holds what fits of all texts so far,
each with a line feed at its end, and a write succeeds exactly if all of that fits. So
once a write has failed, all others fail and nothing more is stored. -/
theorem writeAll_exact (limit : Nat) (texts : List String) :
    let run (n : Nat) := (empty (some limit)).writeAll ((texts.take n).map Utf8.ofString)
    let given (n : Nat) := (texts.take n).flatMap fun text => Utf8.ofString (closed text)
    let oks := (run texts.length).2
    oks.length = texts.length ∧
    (∀ n, (run n).2 = oks.take n ∧ (run n).1.stored = (given n).take limit) ∧
    (∀ i < texts.length, oks[i]? = some (decide ((given (i + 1)).length ≤ limit))) ∧
    ∀ i, oks[i]? = some false → ∀ n, i < n →
      (run n).1.stored = (run (i + 1)).1.stored ∧ (n < texts.length → oks[n]? = some false) := by
  intro run given oks
  have hsources (n : Nat) :
      (texts.take n).map Utf8.ofString = (texts.map Utf8.ofString).take n := List.map_take
  have hall (n : Nat) : ((texts.take n).map Utf8.ofString).flatMap terminated = given n := by
    simp only [List.flatMap_map, terminated_ofString, given]
  have hwhole : oks = ((empty (some limit)).writeAll (texts.map Utf8.ofString)).2 := by
    simp only [oks, run, List.take_length]
  have hlength : oks.length = texts.length := by
    rw [hwhole, length_writeAll_snd, List.length_map]
  have hstored (n : Nat) : (run n).1.stored = (given n).take limit := by
    rw [((given_empty (some limit)).writeAll _).stored_eq, List.nil_append, hall]
    rfl
  have hok (i : Nat) (hi : i < texts.length) :
      oks[i]? = some (decide ((given (i + 1)).length ≤ limit)) := by
    rw [hwhole, (given_empty (some limit)).getElem?_writeAll_snd _ (by simpa using hi),
      ← hsources, List.nil_append, hall]
    rfl
  refine ⟨hlength, fun n => ⟨?_, hstored n⟩, hok, fun i hfailed n hn => ?_⟩
  · rw [hwhole, ← writeAll_take_snd, ← hsources]
  · have hi : i < texts.length := by
      rw [← hlength]
      exact (List.getElem?_eq_some_iff.mp hfailed).1
    have hfull : limit < (given (i + 1)).length := by simpa [hok i hi] using hfailed
    -- What was given up to the failure begins all that is given later.
    have hbegin (m : Nat) (hm : i < m) : given (i + 1) <+: given m := by
      obtain ⟨rest, hrest⟩ : texts.take (i + 1) <+: texts.take m := List.take_prefix_take_left hm
      refine ⟨rest.flatMap fun text => Utf8.ofString (closed text), ?_⟩
      simp only [given, ← List.flatMap_append, hrest]
    constructor
    · obtain ⟨rest, hrest⟩ := hbegin n hn
      rw [hstored, hstored, ← hrest, List.take_append_of_le_length (by omega)]
    · intro hlast
      have hle := (hbegin (n + 1) (by omega)).length_le
      rw [hok n hlast, decide_eq_false (by omega)]

/-! ## Portions -/

/-- A sink is offered bytes until none are left, and takes them in portions, each as large
as it likes but no larger than its room. A sink without room takes nothing, and bytes that
are left then are not stored. -/
inductive Portions : Sink → Bytes → Sink × Bool → Prop where
  | done (k : Sink) : Portions k [] (k, true)
  | full {k : Sink} {s : Bytes} (hs : s ≠ []) (hk : k.room = some 0) : Portions k s (k, false)
  | portion {k : Sink} {s rest : Bytes} {r : Sink × Bool} (hs : s ≠ [])
      (hk : fits k.room s.length = true)
      (h : Portions ⟨k.room.map (· - s.length), s :: k.pieces⟩ rest r) : Portions k (s ++ rest) r

/-- However a sink takes bytes, it stores those that fit, and those are all exactly if the
last of them fits. -/
theorem Portions.eq_put {r : Sink × Bool} (h : Portions k s r) :
    r.1.room = (k.put s).1.room ∧ r.1.stored = (k.put s).1.stored ∧ r.2 = (k.put s).2 := by
  induction h with
  | done k =>
      obtain ⟨left, pieces⟩ := k
      cases left <;> simp [Sink.put, stored]
  | @full k s hs hk =>
      obtain ⟨left, pieces⟩ := k
      obtain rfl : left = some 0 := hk
      simp [Sink.put, stored, hs]
  | @portion k s rest r hs hk _ ih =>
      obtain ⟨left, pieces⟩ := k
      obtain ⟨hroom, hstored, hok⟩ := ih
      cases left with
      | none =>
          rw [hroom, hstored, hok]
          simp [Sink.put, stored]
      | some n =>
          have hle : s.length ≤ n := of_decide_eq_true hk
          rw [hroom, hstored, hok]
          simp [Sink.put, stored, List.take_append, List.take_of_length_le hle]
          omega

end Sink

end JsonRecords
