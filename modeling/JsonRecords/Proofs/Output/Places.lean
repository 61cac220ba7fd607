import JsonRecords.Output.FileTree
import JsonRecords.Proofs.Except
import Mathlib.Data.List.TakeWhile

/-!
# Where walks lead

A walk goes from directory to directory, but the place it reaches follows from
the names alone (`Spot.place_walk`), and whether it gets there depends on
nothing but the directories on its way (`Spot.exists_walk_iff`). So a path
stands for one place, `placeOf`, in every tree with the same home. An operation
that succeeds puts its entry there and leaves all other places as they were
(`puts_of_makeDirectory`, `puts_of_writeFile`), and what a file was given is
what it reads as (`open?_writeFile`).
-/

namespace JsonRecords

/-- A name is read in the folder it stands in. -/
theorem Folder.entryAt_singleton (entries : Folder) (name : String) :
    entryAt entries [name] = (Keyed.get? name entries).map Node.entry := by
  unfold entryAt
  split
  · simp [*]
  · simp [*, Node.entry]
  · simp [*, Node.entry, entryAt]

theorem Node.entry_eq_directory {node : Node} :
    node.entry = .directory ↔ ∃ entries, node = .directory entries := by
  cases node <;> simp [Node.entry]

/-! ## Places -/

/-- The place one name further, as far as the name tells. -/
def Place.step (p : Place) (name : String) : Place :=
  if name = "" ∨ name = "." then p
  else if name = ".." then p.dropLast
  else p ++ [name]

def Place.walk (p : Place) (names : List String) : Place :=
  names.foldl Place.step p

namespace Place

@[simp] theorem walk_nil (p : Place) : walk p [] = p := rfl

@[simp] theorem walk_cons (p : Place) (name : String) (rest : List String) :
    walk p (name :: rest) = walk (step p name) rest := rfl

theorem walk_append (p : Place) (names more : List String) :
    walk p (names ++ more) = walk (walk p names) more := by
  simp [walk]

theorem step_of_not_isDirectoryName {name : String} (p : Place)
    (h : FilePath.isDirectoryName name = false) : step p name = p ++ [name] := by
  simp only [FilePath.isDirectoryName, Bool.or_eq_false_iff, decide_eq_false_iff_not] at h
  simp [step, h]

/-- Empty names lead nowhere. -/
theorem walk_map_empty (p : Place) (cs : List Char) : walk p (cs.map fun _ => "") = p := by
  induction cs with
  | nil => rfl
  | cons c cs ih => simpa [step] using ih

end Place

namespace FilePath

theorem segmentsFrom_slashes (done : List Char) {slashes : List Char}
    (h : ∀ c ∈ slashes, c = '/') :
    segmentsFrom done slashes = String.ofList done.reverse :: slashes.map fun _ => "" := by
  induction slashes generalizing done with
  | nil => rfl
  | cons c cs ih =>
      obtain ⟨rfl, hcs⟩ := List.forall_mem_cons.mp h
      simp [segmentsFrom, ih [] hcs]

/-- Slashes at the end of a text add empty segments. -/
theorem segmentsFrom_append_slashes (done cs : List Char) {slashes : List Char}
    (h : ∀ c ∈ slashes, c = '/') :
    segmentsFrom done (cs ++ slashes) = segmentsFrom done cs ++ slashes.map fun _ => "" := by
  induction cs generalizing done with
  | nil => simp [segmentsFrom_slashes done h, segmentsFrom]
  | cons c cs ih =>
      rw [List.cons_append, segmentsFrom, segmentsFrom]
      split <;> simp [ih]

theorem segments_ne_nil (path : String) : segments path ≠ [] := by
  have h (done cs : List Char) : segmentsFrom done cs ≠ [] := by
    induction cs generalizing done with
    | nil => simp [segmentsFrom]
    | cons c cs ih =>
        rw [segmentsFrom]
        split
        · simp
        · exact ih _
  exact h [] path.toList

/-- What `stem` leaves out of a path is slashes at its end, and it leaves
something of the path. -/
theorem toList_eq_stem_append (path : String) :
    ∃ slashes, path.toList = (stem path).toList ++ slashes ∧ (∀ c ∈ slashes, c = '/') ∧
      ((stem path).toList = [] → slashes = []) := by
  have hsplit := List.takeWhile_append_dropWhile (p := (· = '/')) (l := path.toList.reverse)
  unfold stem
  split
  · exact ⟨[], by simp⟩
  · rename_i hne
    refine ⟨(path.toList.reverse.takeWhile (· = '/')).reverse, ?_, ?_, ?_⟩
    · rw [String.toList_ofList, ← List.reverse_append, hsplit, List.reverse_reverse]
    · intro c hc
      simpa using List.mem_takeWhile_imp (List.mem_reverse.mp hc)
    · intro h
      rw [String.toList_ofList] at h
      exact absurd (List.reverse_eq_nil_iff.mp h) hne

end FilePath

namespace FileTree

/-- The place that a path stands for. -/
def placeOf (t : FileTree) (path : String) : Place :=
  Place.walk [] (t.names path)

/-- Slashes at the end of a path add empty names. -/
theorem exists_names_eq_stem_append (t : FileTree) (path : String) :
    ∃ slashes : List Char,
      t.names path = t.names (FilePath.stem path) ++ slashes.map fun _ => "" := by
  obtain ⟨slashes, hpath, hs, hstem⟩ := FilePath.toList_eq_stem_append path
  have habsolute : FilePath.isAbsolute (FilePath.stem path) = FilePath.isAbsolute path := by
    cases h : (FilePath.stem path).toList with
    | nil => simp [FilePath.isAbsolute, hpath, h, hstem h]
    | cons c cs => simp [FilePath.isAbsolute, hpath, h]
  refine ⟨slashes, ?_⟩
  rw [names, names, habsolute, List.append_assoc, FilePath.segments, FilePath.segments, hpath,
    FilePath.segmentsFrom_append_slashes _ _ hs]

/-- Slashes at the end of a path do not change what it stands for. -/
theorem placeOf_stem (t : FileTree) (path : String) :
    t.placeOf (FilePath.stem path) = t.placeOf path := by
  obtain ⟨slashes, hnames⟩ := t.exists_names_eq_stem_append path
  rw [placeOf, placeOf, hnames, Place.walk_append, Place.walk_map_empty]

/-! ## Walks -/

namespace Spot

/-- A spot reached from a top directory: each name leads to a directory from the
one it was looked up in. -/
inductive Below (top : Folder) : Spot → Prop where
  | top : Below top ⟨top, []⟩
  | down {s : Spot} {name : String} {entries : Folder} (h : Below top s)
      (hg : Keyed.get? name s.entries = some (.directory entries)) :
      Below top ⟨entries, (name, s.entries) :: s.above⟩

theorem place_down (s : Spot) (name : String) (entries : Folder) :
    place ⟨entries, (name, s.entries) :: s.above⟩ = s.place ++ [name] := by
  simp [place]

theorem place_up (s : Spot) : s.up.place = s.place.dropLast := by
  unfold up
  split
  · rename_i h
    simp [place, h]
  · rename_i h
    simp [place, h]

theorem Below.up {top : Folder} {s : Spot} (h : s.Below top) : s.up.Below top := by
  cases h with
  | top => exact .top
  | down h _ => exact h

/-- What stands below a spot is what stands below its place. -/
theorem Below.entryAt {top : Folder} {s : Spot} (h : s.Below top) (rest : Place) :
    Folder.entryAt top (s.place ++ rest) = Folder.entryAt s.entries rest := by
  induction h generalizing rest with
  | top => rfl
  | @down s name entries _ hg ih =>
      rw [place_down, List.append_assoc, ih]
      simp [Folder.entryAt, hg]

theorem Below.entryAt_place {top : Folder} {s : Spot} (h : s.Below top) :
    Folder.entryAt top s.place = some .directory := by
  have := h.entryAt []
  simpa [Folder.entryAt] using this

theorem Below.entryAt_append_singleton {top : Folder} {s : Spot} (h : s.Below top)
    (name : String) :
    Folder.entryAt top (s.place ++ [name]) = (Keyed.get? name s.entries).map Node.entry := by
  rw [h.entryAt, Folder.entryAt_singleton]

theorem Below.entryAt_eq_directory_iff {top : Folder} {s : Spot} (h : s.Below top)
    (name : String) :
    Folder.entryAt top (s.place ++ [name]) = some .directory ↔
      ∃ entries, Keyed.get? name s.entries = some (.directory entries) := by
  rw [h.entryAt_append_singleton, Option.map_eq_some_iff]
  constructor
  · rintro ⟨node, hg, hnode⟩
    obtain ⟨entries, rfl⟩ := Node.entry_eq_directory.mp hnode
    exact ⟨entries, hg⟩
  · rintro ⟨entries, hg⟩
    exact ⟨_, hg, rfl⟩

theorem lookup_eq_ok {s : Spot} {name : String} {found : Option Node} :
    s.lookup name = .ok found ↔
      name.utf8ByteSize ≤ nameLimit ∧ Keyed.get? name s.entries = found := by
  unfold lookup
  split
  · simp; omega
  · simp; omega

/-- What a step can do: stay, go up, or go down into a directory. -/
theorem step_cases {s s' : Spot} {name : String} (h : s.step name = .ok s') :
    ((name = "" ∨ name = ".") ∧ s' = s) ∨ (name = ".." ∧ s' = s.up) ∨
      (FilePath.isDirectoryName name = false ∧ name.utf8ByteSize ≤ nameLimit ∧
        ∃ entries, Keyed.get? name s.entries = some (.directory entries) ∧
          s' = ⟨entries, (name, s.entries) :: s.above⟩) := by
  unfold step at h
  split at h
  · exact .inl ⟨‹_›, (pure_eq_ok.mp h).symm⟩
  · split at h
    · exact .inr (.inl ⟨‹_›, (pure_eq_ok.mp h).symm⟩)
    · rename_i hidle hup
      obtain ⟨found, hfound, h⟩ := bind_eq_ok.mp h
      obtain ⟨hsize, rfl⟩ := lookup_eq_ok.mp hfound
      split at h
      · cases h
      · cases h
      · rename_i entries hg
        refine .inr (.inr ⟨?_, hsize, entries, hg, (pure_eq_ok.mp h).symm⟩)
        simpa [FilePath.isDirectoryName, hup] using hidle

theorem Below.step {top : Folder} {s s' : Spot} {name : String} (hs : s.Below top)
    (h : s.step name = .ok s') : s'.Below top := by
  obtain ⟨-, rfl⟩ | ⟨-, rfl⟩ | ⟨-, -, entries, hg, rfl⟩ := step_cases h
  · exact hs
  · exact hs.up
  · exact hs.down hg

theorem place_step {s s' : Spot} {name : String} (h : s.step name = .ok s') :
    s'.place = s.place.step name := by
  obtain ⟨hidle, rfl⟩ | ⟨rfl, rfl⟩ | ⟨hname, -, entries, -, rfl⟩ := step_cases h
  · simp [Place.step, hidle]
  · simp [Place.step, place_up]
  · rw [place_down, Place.step_of_not_isDirectoryName _ hname]

theorem Below.walk {top : Folder} {s s' : Spot} {names : List String} (hs : s.Below top)
    (h : s.walk names = .ok s') : s'.Below top := by
  induction names generalizing s with
  | nil => exact Except.ok.inj h ▸ hs
  | cons name rest ih =>
      obtain ⟨next, hnext, h⟩ := bind_eq_ok.mp h
      exact ih (hs.step hnext) h

/-- The place a walk reaches is told by the names. -/
theorem place_walk {s s' : Spot} {names : List String} (h : s.walk names = .ok s') :
    s'.place = s.place.walk names := by
  induction names generalizing s with
  | nil => exact Except.ok.inj h ▸ rfl
  | cons name rest ih =>
      obtain ⟨next, hnext, h⟩ := bind_eq_ok.mp h
      rw [ih h, place_step hnext, Place.walk_cons]

theorem exists_step_iff {top : Folder} {s : Spot} (hs : s.Below top) (name : String) :
    (∃ s', s.step name = .ok s') ↔
      name.utf8ByteSize ≤ nameLimit ∧
        Folder.entryAt top (s.place.step name) = some .directory := by
  constructor
  · rintro ⟨s', h⟩
    refine ⟨?_, place_step h ▸ (hs.step h).entryAt_place⟩
    obtain ⟨rfl | rfl, -⟩ | ⟨rfl, -⟩ | ⟨-, hsize, -⟩ := step_cases h
    · decide
    · decide
    · decide
    · exact hsize
  · rintro ⟨hsize, hd⟩
    unfold step
    by_cases hidle : name = "" ∨ name = "."
    · exact ⟨s, by simp [hidle]; rfl⟩
    · by_cases hup : name = ".."
      · exact ⟨s.up, by simp [hup]; rfl⟩
      · rw [Place.step, if_neg hidle, if_neg hup, hs.entryAt_eq_directory_iff] at hd
        obtain ⟨entries, hg⟩ := hd
        exact ⟨⟨entries, (name, s.entries) :: s.above⟩, by
          simp [hidle, hup, lookup, Nat.not_lt.mpr hsize, hg, bind, Except.bind]; rfl⟩

/-- Whether names can be walked through from a place: none is too long, and each
leads to a directory. -/
def Passable (top : Folder) : Place → List String → Prop
  | _, [] => True
  | p, name :: rest =>
    name.utf8ByteSize ≤ nameLimit ∧ Folder.entryAt top (p.step name) = some .directory ∧
      Passable top (p.step name) rest

theorem exists_walk_iff {top : Folder} {s : Spot} (hs : s.Below top) (names : List String) :
    (∃ s', s.walk names = .ok s') ↔ Passable top s.place names := by
  induction names generalizing s with
  | nil => simp [walk, Passable]
  | cons name rest ih =>
      rw [Passable, ← and_assoc, ← exists_step_iff hs]
      constructor
      · rintro ⟨s', h⟩
        obtain ⟨next, hnext, h⟩ := bind_eq_ok.mp h
        exact ⟨⟨next, hnext⟩, place_step hnext ▸ (ih (hs.step hnext)).mp ⟨s', h⟩⟩
      · rintro ⟨⟨next, hnext⟩, h⟩
        obtain ⟨s', h⟩ := (ih (hs.step hnext)).mpr (place_step hnext ▸ h)
        exact ⟨s', bind_eq_ok.mpr ⟨next, hnext, h⟩⟩

/-- A walk needs nothing but the directories. -/
theorem Passable.mono {top top' : Folder} {p : Place} {names : List String}
    (h : Passable top p names)
    (hd : ∀ q, Folder.entryAt top q = some .directory → Folder.entryAt top' q = some .directory) :
    Passable top' p names := by
  induction names generalizing p with
  | nil => trivial
  | cons name rest ih => exact ⟨h.1, hd _ h.2.1, ih h.2.2⟩

end Spot

/-! ## What operations do -/

theorem names_eq_append (t : FileTree) (path : String) :
    t.names path = (t.names path).dropLast ++ [(t.names path).getLast?.getD ""] := by
  have hne : t.names path ≠ [] := by simp [names, FilePath.segments_ne_nil]
  rw [List.getLast?_eq_some_getLast hne, Option.getD_some, List.dropLast_concat_getLast]

/-- A path that has been located ends below the spot, at its last name. -/
theorem locate_eq_ok {t : FileTree} {path : String} {spot : Spot} {name : String} :
    t.locate path = .ok (spot, name) ↔
      t.top.walk (t.names path).dropLast = .ok spot ∧ name = (t.names path).getLast?.getD "" := by
  simp only [locate, bind_eq_ok, pure_eq_ok, Prod.mk.injEq]
  constructor
  · rintro ⟨s, hs, rfl, rfl⟩
    exact ⟨hs, rfl⟩
  · rintro ⟨hs, rfl⟩
    exact ⟨spot, hs, rfl, rfl⟩

theorem placeOf_of_locate {t : FileTree} {path : String} {spot : Spot} {name : String}
    (h : t.locate path = .ok (spot, name)) :
    spot.Below t.entries ∧ t.placeOf path = spot.place.step name := by
  obtain ⟨hwalk, rfl⟩ := locate_eq_ok.mp h
  refine ⟨Spot.Below.top.walk hwalk, ?_⟩
  calc t.placeOf path
      = Place.walk [] ((t.names path).dropLast ++ [(t.names path).getLast?.getD ""]) := by
        rw [placeOf, ← names_eq_append]
    _ = spot.place.step ((t.names path).getLast?.getD "") := by
        rw [Place.walk_append, Spot.place_walk hwalk]
        rfl

theorem placeOf_congr {t t' : FileTree} (h : t'.home = t.home) (path : String) :
    t'.placeOf path = t.placeOf path := by
  rw [placeOf, placeOf, names, names, h]

/-- An entry was put at a place, and nothing else changed. -/
structure Puts (t : FileTree) (place : Place) (entry : Entry) (t' : FileTree) : Prop where
  home : t'.home = t.home
  get?_eq : ∀ other, t'.get? other = if other = place then some entry else t.get? other

theorem Puts.get?_self {t t' : FileTree} {place : Place} {entry : Entry}
    (h : t.Puts place entry t') : t'.get? place = some entry := by
  simp [h.get?_eq]

theorem Puts.get?_of_ne {t t' : FileTree} {place other : Place} {entry : Entry}
    (h : t.Puts place entry t') (hne : other ≠ place) : t'.get? other = t.get? other := by
  simp [h.get?_eq, hne]

theorem puts_put {t : FileTree} {spot : Spot} {name : String} (node : Node)
    (hs : spot.Below t.entries) (hn : Folder.isLeaf node = true)
    (hd : ∀ entries, Keyed.get? name spot.entries ≠ some (.directory entries)) :
    t.Puts (spot.place ++ [name]) node.entry (t.put (spot.place ++ [name]) node) where
  home := rfl
  get?_eq other := by
    refine Folder.entryAt_put node spot.place name t.entries other hn hs.entryAt_place fun h => ?_
    obtain ⟨entries, hg⟩ := (hs.entryAt_eq_directory_iff name).mp h
    exact hd entries hg

/-- What a directory needs to be made: a directory to stand in, and a place of its own where
nothing stands. -/
theorem makeDirectory_cases {t t' : FileTree} {path : String}
    (h : t.makeDirectory path = .ok t') :
    checkPath path = .ok () ∧
      ∃ spot name, t.locate (FilePath.stem path) = .ok (spot, name) ∧
        FilePath.isDirectoryName name = false ∧ name.utf8ByteSize ≤ nameLimit ∧
        Keyed.get? name spot.entries = none ∧
        t' = t.put (spot.place ++ [name]) (.directory []) := by
  obtain ⟨⟨⟩, hcheck, h⟩ := bind_eq_ok.mp h
  obtain ⟨⟨spot, name⟩, hlocate, h⟩ := bind_eq_ok.mp h
  dsimp only at h
  split at h
  · cases h
  · rename_i hname
    obtain ⟨found, hfound, h⟩ := bind_eq_ok.mp h
    obtain ⟨hsize, hg⟩ := Spot.lookup_eq_ok.mp hfound
    split at h
    · cases h
    · exact ⟨hcheck, spot, name, hlocate, Bool.not_eq_true _ ▸ hname, hsize, hg,
        (pure_eq_ok.mp h).symm⟩

/-- A directory that has been made stands where nothing stood. -/
theorem puts_of_makeDirectory {t t' : FileTree} {path : String}
    (h : t.makeDirectory path = .ok t') :
    t.get? (t.placeOf path) = none ∧ t.Puts (t.placeOf path) .directory t' := by
  obtain ⟨-, spot, name, hlocate, hname, -, hg, rfl⟩ := makeDirectory_cases h
  obtain ⟨hs, hplace⟩ := placeOf_of_locate hlocate
  rw [placeOf_stem, Place.step_of_not_isDirectoryName _ hname] at hplace
  rw [hplace]
  constructor
  · rw [get?, hs.entryAt_append_singleton, hg, Option.map_none]
  · exact puts_put (.directory []) hs rfl (by simp [hg])

/-- What a file needs to be written: a directory to stand in, and no directory
at its place. -/
theorem writeFile_cases {t t' : FileTree} {path : String} {content : Bytes}
    (h : t.writeFile path content = .ok t') :
    checkPath path = .ok () ∧
      ∃ spot name, t.locate path = .ok (spot, name) ∧ FilePath.isDirectoryName name = false ∧
        name.utf8ByteSize ≤ nameLimit ∧
        (∀ entries, Keyed.get? name spot.entries ≠ some (.directory entries)) ∧
        t' = t.put (spot.place ++ [name]) (.file content) := by
  obtain ⟨⟨⟩, hcheck, h⟩ := bind_eq_ok.mp h
  obtain ⟨⟨spot, name⟩, hlocate, h⟩ := bind_eq_ok.mp h
  dsimp only at h
  split at h
  · cases h
  · rename_i hname
    simp only [Bool.or_eq_true, bne_iff_ne, not_or, not_not, Bool.not_eq_true] at hname
    rw [hname.2] at hlocate
    obtain ⟨found, hfound, h⟩ := bind_eq_ok.mp h
    obtain ⟨hsize, rfl⟩ := Spot.lookup_eq_ok.mp hfound
    split at h
    · cases h
    · rename_i hd
      exact ⟨hcheck, spot, name, hlocate, hname.1, hsize, hd, (pure_eq_ok.mp h).symm⟩

theorem puts_of_writeFile {t t' : FileTree} {path : String} {content : Bytes}
    (h : t.writeFile path content = .ok t') :
    t.get? (t.placeOf path) ≠ some .directory ∧ t.Puts (t.placeOf path) (.file content) t' := by
  obtain ⟨-, spot, name, hlocate, hname, -, hd, rfl⟩ := writeFile_cases h
  obtain ⟨hs, hplace⟩ := placeOf_of_locate hlocate
  rw [hplace, Place.step_of_not_isDirectoryName _ hname]
  refine ⟨fun h => ?_, puts_put (.file content) hs rfl hd⟩
  obtain ⟨entries, hg⟩ := (hs.entryAt_eq_directory_iff name).mp h
  exact hd entries hg

/-- A file that has been written reads as what was written to it. -/
theorem open?_writeFile {t t' : FileTree} {path : String} {content : Bytes}
    (h : t.writeFile path content = .ok t') : t'.open? path = .ok (.file content) := by
  obtain ⟨hd, hputs⟩ := puts_of_writeFile h
  obtain ⟨hcheck, spot, name, hlocate, hname, hsize, -, -⟩ := writeFile_cases h
  obtain ⟨hwalk, hlast⟩ := locate_eq_ok.mp hlocate
  -- No directory was lost, so the walk to the file's directory still succeeds.
  have hpass : Spot.Passable t'.entries [] (t.names path).dropLast := by
    refine ((Spot.exists_walk_iff .top _).mp ⟨spot, hwalk⟩).mono fun q hq => ?_
    have hne : q ≠ t.placeOf path := fun he => hd (he ▸ hq)
    exact (hputs.get?_of_ne hne).trans hq
  have htop : t'.top.Below t'.entries := .top
  obtain ⟨spot', hwalk'⟩ := (Spot.exists_walk_iff htop _).mpr hpass
  have hnames : t'.names path = t.names path := by rw [names, names, hputs.home]
  have hlocate' : t'.locate path = .ok (spot', name) :=
    locate_eq_ok.mpr ⟨hnames ▸ hwalk', hnames ▸ hlast⟩
  obtain ⟨hs', hplace'⟩ := placeOf_of_locate hlocate'
  have hg : (Keyed.get? name spot'.entries).map Node.entry = some (.file content) := by
    rw [← hs'.entryAt_append_singleton, ← Place.step_of_not_isDirectoryName _ hname, ← hplace',
      placeOf_congr hputs.home]
    exact hputs.get?_self
  obtain ⟨node, hg, hnode⟩ := Option.map_eq_some_iff.mp hg
  have hlookup : spot'.lookup name = .ok (some node) := Spot.lookup_eq_ok.mpr ⟨hsize, hg⟩
  simp [open?, hcheck, hlocate', hname, hlookup, hnode, bind, Except.bind, pure, Except.pure]

end FileTree

end JsonRecords
