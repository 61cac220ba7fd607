import JsonRecords.Output.Write
import JsonRecords.Proofs.Output.Directories
import JsonRecords.Proofs.Output.Sink
import Mathlib.Data.Set.Insert
import Mathlib.Logic.Relation

/-!
# What writing to a path changes

Source text that is written to a path changes the place of that path alone.
Besides, directories that the path lies in may be new, also where writing has
failed (`keeps_of_writeSource_error`, `open?_writeSource`). Whether it is written
at all depends on what the parent of the path is in the tree as it was
(`writeSource_changes_target`).
-/

namespace JsonRecords

namespace FilePath

/-- A path lies in its parent, and in all that its parent lies in. -/
def LiesIn (path above : String) : Prop :=
  Relation.TransGen (fun p q => parent? p = some q) path above

/-- A path leads through all the names that a path it lies in leads through, and at least one
more, if it leads through any. -/
theorem steps_prefix_of_liesIn {path above : String} (h : LiesIn path above)
    (hne : steps path ≠ []) :
    isAbsolute above = isAbsolute path ∧ steps above <+: (steps path).dropLast := by
  induction h with
  | @single above h =>
      refine ⟨isAbsolute_of_parent? h, ?_⟩
      rcases steps_of_parent? h with ⟨name, hsteps⟩ | ⟨hsteps, -⟩
      · have hbefore : (steps path).dropLast = steps above := by
          rw [hsteps, List.dropLast_concat]
        exact hbefore ▸ List.prefix_rfl
      · exact absurd hsteps hne
  | tail _ h ih =>
      exact ⟨(isAbsolute_of_parent? h).trans ih.1, (steps_prefix_of_parent? h).trans ih.2⟩

end FilePath

open FilePath

namespace FileTree

/-- The places of the directories that a path lies in. -/
def placesAbove (t : FileTree) (path : String) : Set Place :=
  {place | ∃ above, FilePath.LiesIn path above ∧ t.placeOf above = place}

/-- The place of a path, and those of the directories it lies in. -/
def placesTo (t : FileTree) (path : String) : Set Place :=
  insert (t.placeOf path) (t.placesAbove path)

theorem placeOf_mem_placesTo (t : FileTree) (path : String) : t.placeOf path ∈ t.placesTo path :=
  Set.mem_insert _ _

theorem placesTo_subset_placesAbove (t : FileTree) {path above : String}
    (h : FilePath.parent? path = some above) : t.placesTo above ⊆ t.placesAbove path := by
  rintro place (rfl | ⟨further, hfurther, rfl⟩)
  · exact ⟨above, .single h, rfl⟩
  · exact ⟨further, .head h hfurther, rfl⟩

theorem placesTo_subset_placesTo (t : FileTree) {path above : String}
    (h : FilePath.parent? path = some above) : t.placesTo above ⊆ t.placesTo path :=
  (t.placesTo_subset_placesAbove h).trans (Set.subset_insert _ _)

/-- A place holds in `t'` what it held in `t`, or it is among those where a
directory may be made, and a new directory. -/
def KeepsAt (t : FileTree) (made : Set Place) (t' : FileTree) (place : Place) : Prop :=
  t'.get? place = t.get? place ∨
    place ∈ made ∧ t.get? place = none ∧ t'.get? place = some .directory

/-- Nothing changed, but for directories that were made. -/
structure Keeps (t : FileTree) (made : Set Place) (t' : FileTree) : Prop where
  home : t'.home = t.home
  keepsAt : ∀ place, t.KeepsAt made t' place

namespace Keeps

theorem refl (t : FileTree) (made : Set Place) : t.Keeps made t :=
  ⟨rfl, fun _ => .inl rfl⟩

theorem mono {t t' : FileTree} {made made' : Set Place} (h : t.Keeps made t')
    (hm : made ⊆ made') : t.Keeps made' t' :=
  ⟨h.home, fun place => (h.keepsAt place).imp_right fun ⟨hp, hmade⟩ => ⟨hm hp, hmade⟩⟩

theorem trans {t t' t'' : FileTree} {made : Set Place} (h : t.Keeps made t')
    (h' : t'.Keeps made t'') : t.Keeps made t'' := by
  refine ⟨h'.home.trans h.home, fun place => ?_⟩
  rcases h'.keepsAt place with he' | ⟨hp, hnone, hdir⟩
  · rcases h.keepsAt place with he | ⟨hp, hnone, hdir⟩
    · exact .inl (he'.trans he)
    · exact .inr ⟨hp, hnone, he'.trans hdir⟩
  · rcases h.keepsAt place with he | ⟨-, -, hdir'⟩
    · exact .inr ⟨hp, he.symm.trans hnone, hdir⟩
    · rw [hnone] at hdir'
      cases hdir'

theorem of_makeDirectory {t t' : FileTree} {path : String} {made : Set Place}
    (h : t.makeDirectory path = .ok t') (hp : t.placeOf path ∈ made) : t.Keeps made t' := by
  obtain ⟨hnone, hputs⟩ := puts_of_makeDirectory h
  refine ⟨hputs.home, fun place => ?_⟩
  by_cases he : place = t.placeOf path
  · exact .inr ⟨he ▸ hp, he ▸ hnone, he ▸ hputs.get?_self⟩
  · exact .inl (hputs.get?_of_ne he)

end Keeps

/-- Making directories makes the one asked for, or those it lies in, and changes
nothing else, also where it fails. -/
theorem keeps_makeDirectories (steps : Nat) (t : FileTree) (path : String) :
    t.Keeps (t.placesTo path) (makeDirectories steps t path).1 := by
  fun_induction makeDirectories steps t path with
  | case1 | case6 | case7 => exact .refl _ _
  | case2 _ t path _ t' hmake => exact .of_makeDirectory hmake (t.placeOf_mem_placesTo path)
  | case3 t path _ _ n above hparent t' fault hmade ih =>
      rw [hmade] at ih
      exact ih.mono (t.placesTo_subset_placesTo hparent)
  | case4 t path _ _ n above hparent t' hmade t'' hmake ih =>
      rw [hmade] at ih
      have hkeeps := ih.mono (t.placesTo_subset_placesTo hparent)
      refine hkeeps.trans (.of_makeDirectory hmake ?_)
      rw [placeOf_congr hkeeps.home]
      exact t.placeOf_mem_placesTo path
  | case5 t path _ _ n above hparent t' hmade fault _ ih =>
      rw [hmade] at ih
      exact ih.mono (t.placesTo_subset_placesTo hparent)

/-- Making the directories that a path lies in. -/
theorem keeps_makeDirectories_parent (steps : Nat) (t : FileTree) (path : String) :
    t.Keeps (t.placesAbove path)
      (makeDirectories steps t ((FilePath.parent? path).getD "")).1 := by
  cases hparent : FilePath.parent? path with
  | none =>
      have h : makeDirectories steps t "" = (t, .ok ()) := by
        unfold makeDirectories
        rfl
      rw [Option.getD_none, h]
      exact .refl _ _
  | some above =>
      exact (keeps_makeDirectories steps t above).mono (t.placesTo_subset_placesAbove hparent)

/-- How writing ends: the directories cannot be made, the file cannot be
written, or both were done. -/
theorem writeSource_cases {t t' : FileTree} {path : String} {source : Bytes}
    {r : Except Error Unit} (h : t.writeSource path source = (t', r)) :
    let above := (FilePath.parent? path).getD ""
    let steps := (FilePath.segments path).length
    (∃ fault, makeDirectories steps t above = (t', .error fault) ∧
        r = .error (.write above fault)) ∨
      (∃ fault, makeDirectories steps t above = (t', .ok ()) ∧
        t'.writeFile path (terminated source) = .error fault ∧ r = .error (.write path fault)) ∨
      (∃ made, makeDirectories steps t above = (made, .ok ()) ∧
        made.writeFile path (terminated source) = .ok t' ∧ r = .ok ()) := by
  simp only [writeSource] at h
  split at h
  · rename_i made fault hmade
    obtain ⟨rfl, rfl⟩ := Prod.mk.inj h
    exact .inl ⟨fault, hmade, rfl⟩
  · rename_i made hmade
    split at h
    · rename_i fault hwrite
      obtain ⟨rfl, rfl⟩ := Prod.mk.inj h
      exact .inr (.inl ⟨fault, hmade, hwrite, rfl⟩)
    · rename_i hwrite
      obtain ⟨rfl, rfl⟩ := Prod.mk.inj h
      exact .inr (.inr ⟨made, hmade, hwrite, rfl⟩)

/-- Where writing fails, directories may have been made, but nothing else has
changed. -/
theorem keeps_of_writeSource_error {t t' : FileTree} {path : String} {source : Bytes} {e : Error}
    (h : t.writeSource path source = (t', .error e)) : t.Keeps (t.placesAbove path) t' := by
  have hkeeps := keeps_makeDirectories_parent (FilePath.segments path).length t path
  obtain ⟨_, hmade, -⟩ | ⟨_, hmade, -, -⟩ | ⟨_, -, -, he⟩ := writeSource_cases h
  · rwa [hmade] at hkeeps
  · rwa [hmade] at hkeeps
  · cases he

/-- Where writing succeeds, directories may have been made, and then the file
was written. -/
theorem writeFile_of_writeSource {t t' : FileTree} {path : String} {source : Bytes}
    (h : t.writeSource path source = (t', .ok ())) :
    ∃ made, t.Keeps (t.placesAbove path) made ∧
      made.writeFile path (terminated source) = .ok t' := by
  have hkeeps := keeps_makeDirectories_parent (FilePath.segments path).length t path
  obtain ⟨_, -, he⟩ | ⟨_, -, -, he⟩ | ⟨made, hmade, hwrite, -⟩ := writeSource_cases h
  · cases he
  · cases he
  · rw [hmade] at hkeeps
    exact ⟨made, hkeeps, hwrite⟩

/-- Text that has been written to a path can be read from there, and everything
else is as it was, but for directories that the path lies in. -/
theorem open?_writeSource {t t' : FileTree} {path : String} {source : Bytes}
    (h : t.writeSource path source = (t', .ok ())) :
    t'.open? path = .ok (.file (terminated source)) ∧
      t'.get? (t.placeOf path) = some (.file (terminated source)) ∧
      ∀ place, place ≠ t.placeOf path → t.KeepsAt (t.placesAbove path) t' place := by
  obtain ⟨made, hkeeps, hwrite⟩ := writeFile_of_writeSource h
  obtain ⟨-, hputs⟩ := puts_of_writeFile hwrite
  rw [placeOf_congr hkeeps.home] at hputs
  refine ⟨open?_writeFile hwrite, hputs.get?_self, fun place hne => ?_⟩
  rw [KeepsAt, hputs.get?_of_ne hne]
  exact hkeeps.keepsAt place

/-- A file is written only to a path that lies in directories. -/
theorem get?_placeOf_of_liesIn {t t' : FileTree} {path above : String} {content : Bytes}
    (hwrite : t.writeFile path content = .ok t') (h : LiesIn path above) :
    t.get? (t.placeOf above) = some .directory := by
  obtain ⟨-, spot, name, hlocate, hname, -, -, -⟩ := writeFile_cases hwrite
  obtain ⟨hwalk, hlast⟩ := locate_eq_ok.mp hlocate
  have hstep : isStep name = true := by
    simp only [isDirectoryName, Bool.or_eq_false_iff, decide_eq_false_iff_not] at hname
    simp [isStep, hname]
  have hsteps : steps path ≠ [] := by
    have hne := segments_ne_nil path
    rw [names, List.getLast?_append_of_ne_nil _ hne, List.getLast?_eq_some_getLast hne] at hlast
    exact List.ne_nil_of_mem (List.mem_filter.mpr ⟨hlast ▸ List.getLast_mem hne, hstep⟩)
  -- The names before the last one lead to directories, and what the path lies in leads
  -- through some of them.
  have htrail : (t.trail path).dropLast = (t.names path).dropLast.filter isStep := by
    rw [trail, names_eq_append, List.filter_append, ← hlast, List.filter_cons_of_pos hstep]
    simp
  have hpass : Spot.Passable t.entries [] (t.trail path).dropLast := by
    rw [htrail, Spot.passable_filter t.get?_top]
    exact (Spot.exists_walk_iff .top _).mp ⟨spot, hwalk⟩
  obtain ⟨habsolute, hbegin⟩ := steps_prefix_of_liesIn h hsteps
  have habove : t.trail above <+: (t.trail path).dropLast := by
    rw [trail_eq, trail_eq, habsolute, List.dropLast_append_of_ne_nil hsteps]
    exact (List.prefix_append_right_inj _).mpr hbegin
  obtain ⟨rest, hrest⟩ := habove
  rw [← hrest, Spot.passable_append] at hpass
  rw [placeOf_eq_walk_trail]
  exact hpass.1.entryAt_walk t.get?_top

/-- Where the directories that a path lies in cannot be made, however many steps are allowed,
the path has a parent, and that leads to no directory. -/
theorem parent?_of_makeDirectories_error {t t' : FileTree} {path : String} {fault : FileFault}
    (h : makeDirectories (segments path).length t ((parent? path).getD "") = (t', .error fault)) :
    ∃ above, parent? path = some above ∧ above ≠ "" ∧ t'.isDirectory above = false ∧
      ∀ n, (segments path).length ≤ n → makeDirectories n t above = (t', .error fault) := by
  have hiff := makeDirectories_eq_ok_iff (segments path).length t ((parent? path).getD "")
  obtain ⟨hne, hnone⟩ : (parent? path).getD "" ≠ "" ∧
      ¬ t'.isDirectory ((parent? path).getD "") = true := by
    simpa [h] using hiff
  cases hparent : parent? path with
  | none => simp [hparent] at hne
  | some above =>
      rw [hparent, Option.getD_some] at h hne hnone
      refine ⟨above, rfl, hne, by simpa using hnone, fun n hn => ?_⟩
      have hlength : (steps above).length < (segments path).length := by
        rcases steps_of_parent? hparent with ⟨name, hsteps⟩ | ⟨-, hempty⟩
        · have hle : (steps path).length ≤ (segments path).length := List.length_filter_le _ _
          rw [hsteps, List.length_append, List.length_singleton] at hle
          exact hle
        · exact absurd hempty hne
      rw [← Nat.add_sub_cancel' hn, makeDirectories_add hlength, h]

/-- Writing a text to a path changes its file and nothing else. Where it succeeds, the path
lies in directories and the file holds the text with a line feed at its end. Where it fails,
all files are as they were, and the error names the parent of the path if that could not be
made, and the path if no file can be written to it. In either case, what is new besides
are directories that the path lies in. -/
theorem writeSource_changes_target (t : FileTree) (path text : String) :
    match t.writeSource path (Utf8.ofString text) with
    | (t', .ok ()) =>
      (∀ above, LiesIn path above → t'.get? (t.placeOf above) = some .directory) ∧
      t'.open? path = .ok (.file (Utf8.ofString (closed text))) ∧
      t'.get? (t.placeOf path) = some (.file (Utf8.ofString (closed text))) ∧
      ∀ place, place ≠ t.placeOf path → t.KeepsAt (t.placesAbove path) t' place
    | (t', .error e) =>
      (∀ place, t.KeepsAt (t.placesAbove path) t' place) ∧
      ((∃ above fault, parent? path = some above ∧ above ≠ "" ∧ e = .write above fault ∧
          t'.isDirectory above = false ∧
          ∀ n, (segments path).length ≤ n → makeDirectories n t above = (t', .error fault)) ∨
        ∃ fault, e = .write path fault ∧
          (∀ above, parent? path = some above → above ≠ "" → t'.isDirectory above = true) ∧
          t'.writeFile path (Utf8.ofString (closed text)) = .error fault) := by
  rcases hrun : t.writeSource path (Utf8.ofString text) with ⟨t', e | ⟨⟨⟩⟩⟩
  · refine ⟨(keeps_of_writeSource_error hrun).keepsAt, ?_⟩
    obtain ⟨fault, hmade, he⟩ | ⟨fault, hmade, hwrite, he⟩ | ⟨_, -, -, he⟩ :=
      writeSource_cases hrun
    · obtain ⟨above, hparent, hne, hnone, hsteps⟩ := parent?_of_makeDirectories_error hmade
      rw [hparent] at he
      exact .inl ⟨above, fault, hparent, hne, Except.error.inj he, hnone, hsteps⟩
    · rw [terminated_ofString] at hwrite
      refine .inr ⟨fault, Except.error.inj he, fun above hparent hne => ?_, hwrite⟩
      rw [hparent, Option.getD_some] at hmade
      have hiff := makeDirectories_eq_ok_iff (segments path).length t above
      simpa [hmade, hne] using hiff
    · cases he
  · obtain ⟨hopen, hget, hkeeps⟩ := open?_writeSource hrun
    rw [terminated_ofString] at hopen hget
    refine ⟨fun above habove => ?_, hopen, hget, hkeeps⟩
    obtain ⟨made, hmade, hwrite⟩ := writeFile_of_writeSource hrun
    obtain ⟨hfree, hputs⟩ := puts_of_writeFile hwrite
    have hdir := get?_placeOf_of_liesIn hwrite habove
    rw [placeOf_congr hmade.home] at hdir hfree hputs
    rw [hputs.get?_of_ne fun heq => hfree (heq ▸ hdir), hdir]

end FileTree

end JsonRecords
