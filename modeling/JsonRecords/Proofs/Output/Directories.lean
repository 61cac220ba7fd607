import JsonRecords.Proofs.Output.Parents
import JsonRecords.Proofs.Output.Places

/-!
# Paths that lead to directories

Whether a path leads to a directory follows from its trail, the names that lead
somewhere on its way from the top (`isDirectory_iff`). A directory is made exactly where
none was, so making directories succeeds exactly if the path leads to one afterwards
(`makeDirectories_eq_ok_iff`), however many steps beyond the names of the path it is
allowed (`makeDirectories_add`).
-/

namespace JsonRecords

open FilePath

theorem Place.step_of_not_isStep {name : String} (h : isStep name = false) (p : Place) :
    p.step name = p := by
  have hidle : name = "" ∨ name = "." := by
    by_contra hne
    simp [isStep, not_or.mp hne] at h
  rw [Place.step, if_pos hidle]

/-- Segments that lead nowhere can be left out of a walk. -/
theorem Place.walk_filter (p : Place) (names : List String) :
    p.walk (names.filter isStep) = p.walk names := by
  induction names generalizing p with
  | nil => rfl
  | cons name rest ih =>
      by_cases h : isStep name = true
      · rw [List.filter_cons_of_pos h, walk_cons, walk_cons, ih]
      · rw [List.filter_cons_of_neg h, walk_cons, ih, step_of_not_isStep (by simpa using h)]

namespace FileTree

namespace Spot

variable {top : Folder} {p : Place} {names : List String}

theorem passable_append (more : List String) :
    Passable top p (names ++ more) ↔ Passable top p names ∧ Passable top (p.walk names) more := by
  induction names generalizing p with
  | nil => simp [Passable]
  | cons name rest ih =>
      rw [List.cons_append, Passable, ih, Passable, Place.walk_cons, and_assoc, and_assoc]

/-- From a directory, segments that lead nowhere can be passed. -/
theorem passable_filter (hp : Folder.entryAt top p = some .directory) :
    Passable top p (names.filter isStep) ↔ Passable top p names := by
  induction names generalizing p with
  | nil => rfl
  | cons name rest ih =>
      by_cases h : isStep name = true
      · rw [List.filter_cons_of_pos h, Passable, Passable]
        exact and_congr_right fun _ => and_congr_right ih
      · have hidle := Place.step_of_not_isStep (Bool.not_eq_true _ ▸ h) p
        have hsize : name.utf8ByteSize ≤ nameLimit := by
          have hname : name = "" ∨ name = "." := by simpa [isStep, or_iff_not_imp_left] using h
          rcases hname with rfl | rfl <;> decide
        rw [List.filter_cons_of_neg h, Passable, hidle, ih hp]
        exact ⟨fun hrest => ⟨hsize, hp, hrest⟩, fun hall => hall.2.2⟩

theorem Passable.entryAt_walk (h : Passable top p names)
    (hp : Folder.entryAt top p = some .directory) :
    Folder.entryAt top (p.walk names) = some .directory := by
  induction names generalizing p with
  | nil => exact hp
  | cons name rest ih => exact ih h.2.2 h.2.1

end Spot

/-! ## Trails -/

/-- The names that lead somewhere on the way of a path from the top. -/
def trail (t : FileTree) (path : String) : List String :=
  (t.names path).filter isStep

theorem trail_eq (t : FileTree) (path : String) :
    t.trail path = (if isAbsolute path then [] else t.home).filter isStep ++ steps path := by
  rw [trail, names, List.filter_append]
  rfl

theorem placeOf_eq_walk_trail (t : FileTree) (path : String) :
    t.placeOf path = Place.walk [] (t.trail path) :=
  (Place.walk_filter [] _).symm

theorem trail_stem (t : FileTree) (path : String) : t.trail (stem path) = t.trail path := by
  obtain ⟨slashes, hnames⟩ := t.exists_names_eq_stem_append path
  rw [trail, trail, hnames, List.filter_append]
  simp [isStep]

theorem trail_prefix_of_parent? (t : FileTree) {path above : String}
    (h : parent? path = some above) : t.trail above <+: t.trail path := by
  rw [trail_eq, trail_eq, isAbsolute_of_parent? h]
  exact (List.prefix_append_right_inj _).mpr (steps_prefix_of_parent? h)

theorem checkPath_eq_ok_iff {path : String} :
    checkPath path = .ok () ↔
      '\x00' ∉ path.toList ∧ path.utf8ByteSize ≤ pathLimit ∧ path ≠ "" := by
  rw [checkPath, List.contains_eq_mem]
  by_cases hnul : '\x00' ∈ path.toList
  · simp [hnul]
  by_cases hsize : pathLimit < path.utf8ByteSize
  · simp [hnul, hsize, Nat.not_le.mpr hsize]
  by_cases hempty : path = ""
  · simp [hempty]
  · simp [hnul, hsize, Nat.not_lt.mp hsize, hempty]

/-- A path leads to a directory if it is one that a file system takes, and all names on its
trail lead to directories. -/
theorem isDirectory_iff {t : FileTree} {path : String} :
    t.isDirectory path = true ↔
      checkPath path = .ok () ∧ Spot.Passable t.entries [] (t.trail path) := by
  have hwalk : (∃ spot, t.top.walk (t.names path) = .ok spot) ↔
      Spot.Passable t.entries [] (t.names path) := Spot.exists_walk_iff .top _
  rw [trail, Spot.passable_filter t.get?_top, ← hwalk, isDirectory]
  cases checkPath path with
  | error fault => simp
  | ok =>
      cases t.top.walk (t.names path) with
      | error fault => simp
      | ok spot => simp

/-- What a path to a directory lies in is a directory. -/
theorem isDirectory_of_parent? {t : FileTree} {path above : String}
    (h : parent? path = some above) (hne : above ≠ "") (hpath : t.isDirectory path = true) :
    t.isDirectory above = true := by
  obtain ⟨hcheck, hpass⟩ := isDirectory_iff.mp hpath
  obtain ⟨last, htrail⟩ := t.trail_prefix_of_parent? h
  rw [← htrail, Spot.passable_append] at hpass
  refine isDirectory_iff.mpr ⟨?_, hpass.1⟩
  obtain ⟨rest, rfl⟩ := exists_append_of_parent? h
  obtain ⟨hnul, hsize, -⟩ := checkPath_eq_ok_iff.mp hcheck
  rw [String.utf8ByteSize_append] at hsize
  refine checkPath_eq_ok_iff.mpr ⟨fun hmem => hnul ?_, by omega, hne⟩
  rw [String.toList_append]
  exact List.mem_append_left _ hmem

/-! ## Directories made -/

/-- A trail of directories leads to the last name of the path. -/
theorem exists_locate {t : FileTree} {path : String}
    (h : Spot.Passable t.entries [] (t.trail path)) :
    ∃ spot name, t.locate path = .ok (spot, name) ∧ spot.Below t.entries ∧
      Spot.Passable t.entries spot.place [name] := by
  rw [trail, Spot.passable_filter t.get?_top, t.names_eq_append, Spot.passable_append] at h
  obtain ⟨hbefore, hlast⟩ := h
  have htop : t.top.Below t.entries := .top
  obtain ⟨spot, hwalk⟩ := (Spot.exists_walk_iff htop _).mpr hbefore
  have hplace : spot.place = Place.walk [] (t.names path).dropLast := Spot.place_walk hwalk
  exact ⟨spot, _, locate_eq_ok.mpr ⟨hwalk, rfl⟩, htop.walk hwalk, hplace ▸ hlast⟩

/-- No directory is made where there is one. -/
theorem makeDirectory_of_isDirectory {t : FileTree} {path : String}
    (h : t.isDirectory path = true) : t.makeDirectory path = .error .taken := by
  obtain ⟨hcheck, hpass⟩ := isDirectory_iff.mp h
  obtain ⟨spot, name, hlocate, hs, hsize, hd, -⟩ := exists_locate (t.trail_stem path ▸ hpass)
  by_cases hname : isDirectoryName name = true
  · simp [makeDirectory, hcheck, hlocate, hname, bind, Except.bind]
    rfl
  · rw [Place.step_of_not_isDirectoryName _ (Bool.not_eq_true _ ▸ hname),
      hs.entryAt_eq_directory_iff] at hd
    obtain ⟨entries, hg⟩ := hd
    have hlookup : spot.lookup name = .ok (some (.directory entries)) :=
      Spot.lookup_eq_ok.mpr ⟨hsize, hg⟩
    simp [makeDirectory, hcheck, hlocate, hname, hlookup, bind, Except.bind]
    rfl

/-- A path leads to the directory that was made for it. -/
theorem isDirectory_of_makeDirectory {t t' : FileTree} {path : String}
    (h : t.makeDirectory path = .ok t') : t'.isDirectory path = true := by
  obtain ⟨-, hputs⟩ := puts_of_makeDirectory h
  obtain ⟨hcheck, spot, name, hlocate, hname, hsize, -, -⟩ := makeDirectory_cases h
  obtain ⟨hwalk, hlast⟩ := locate_eq_ok.mp hlocate
  have hplace :
      t.placeOf path = Place.step (Place.walk [] (t.names (stem path)).dropLast) name := by
    rw [← t.placeOf_stem, (placeOf_of_locate hlocate).2, Spot.place_walk hwalk]
    rfl
  have hbefore : Spot.Passable t'.entries [] (t.names (stem path)).dropLast := by
    refine ((Spot.exists_walk_iff .top _).mp ⟨spot, hwalk⟩).mono fun q hq => ?_
    by_cases he : q = t.placeOf path
    · exact he ▸ hputs.get?_self
    · exact (hputs.get?_of_ne he).trans hq
  have hnames : t'.names (stem path) = t.names (stem path) := by rw [names, names, hputs.home]
  refine isDirectory_iff.mpr ⟨hcheck, ?_⟩
  rw [← t'.trail_stem, trail, Spot.passable_filter t'.get?_top, hnames, names_eq_append,
    Spot.passable_append, ← hlast]
  exact ⟨hbefore, hsize, hplace ▸ hputs.get?_self, trivial⟩

theorem makeDirectories_empty (n : Nat) (t : FileTree) : makeDirectories n t "" = (t, .ok ()) := by
  unfold makeDirectories
  rfl

/-- Making directories succeeds exactly if the path leads to a directory afterwards. -/
theorem makeDirectories_eq_ok_iff (n : Nat) (t : FileTree) (path : String) :
    (makeDirectories n t path).2 = .ok () ↔
      path = "" ∨ (makeDirectories n t path).1.isDirectory path = true := by
  fun_induction makeDirectories n t path with
  | case1 => simp
  | case2 n t path _ t' hmake => simp [isDirectory_of_makeDirectory hmake]
  | case3 t path hne _ n above hparent t' fault hmade ih =>
      -- Where the parent is no directory, neither is the path.
      obtain ⟨habove, hnone⟩ : above ≠ "" ∧ ¬ t'.isDirectory above = true := by
        simpa [hmade] using ih
      refine iff_of_false (fun h => nomatch h) ?_
      rintro (hempty | hpath)
      · exact hne hempty
      · exact hnone (isDirectory_of_parent? hparent habove hpath)
  | case4 t path _ _ n above _ t' _ t'' hmake _ => simp [isDirectory_of_makeDirectory hmake]
  | case5 t path hne _ n above _ t' _ fault _ _ =>
      by_cases hpath : t'.isDirectory path = true <;> simp [hne, hpath]
  | case6 n t path hne hmake _ =>
      refine iff_of_false (fun h => nomatch h) ?_
      rintro (hempty | hpath)
      · exact hne hempty
      · rw [makeDirectory_of_isDirectory hpath] at hmake
        cases hmake
  | case7 n t path hne fault _ _ =>
      by_cases hpath : t.isDirectory path = true <;> simp [hne, hpath]

/-- One step for each name of a path is enough. -/
theorem makeDirectories_add {n : Nat} {path : String} (h : (steps path).length < n) (t : FileTree)
    (more : Nat) : makeDirectories (n + more) t path = makeDirectories n t path := by
  induction n generalizing path t with
  | zero => exact absurd h (Nat.not_lt_zero _)
  | succ n ih =>
      rw [Nat.add_right_comm]
      unfold makeDirectories
      cases hparent : parent? path with
      | none => rfl
      | some above =>
          have habove : makeDirectories (n + more) t above = makeDirectories n t above := by
            rcases steps_of_parent? hparent with ⟨name, hsteps⟩ | ⟨-, rfl⟩
            · rw [hsteps, List.length_append, List.length_singleton] at h
              exact ih (Nat.lt_of_succ_lt_succ h) t
            · rw [makeDirectories_empty, makeDirectories_empty]
          simp only [habove]

end FileTree

end JsonRecords
