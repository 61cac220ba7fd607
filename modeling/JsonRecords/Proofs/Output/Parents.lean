import JsonRecords.Output.Path
import Mathlib.Data.List.Basic

/-!
# Paths and their parents

A path is its segments with slashes between them (`intercalate_segments`), of which only
some are names that lead somewhere (`steps`). The parent of a path begins the path
(`exists_append_of_parent?`) and leads through all of its names but the last
(`steps_of_parent?`).
-/

namespace JsonRecords

namespace FilePath

/-! ## Segments -/

theorem segmentsFrom_eq {done : List Char} (hdone : '/' ∉ done) (cs : List Char) :
    segmentsFrom done cs = ((done.reverse ++ cs).splitOn '/').map String.ofList := by
  induction cs generalizing done with
  | nil =>
      rw [segmentsFrom, List.append_nil, List.splitOn_eq_singleton (by simpa using hdone)]
      rfl
  | cons c cs ih =>
      rw [segmentsFrom]
      by_cases hc : c = '/'
      · subst hc
        rw [if_pos rfl, ih List.not_mem_nil,
          List.splitOn_append_cons_self_of_not_mem (by simpa using hdone)]
        rfl
      · have hne : '/' ∉ c :: done := by simp [Ne.symm hc, hdone]
        rw [if_neg hc, ih hne, List.reverse_cons, List.append_assoc]
        rfl

theorem segments_eq (path : String) :
    segments path = (path.toList.splitOn '/').map String.ofList :=
  segmentsFrom_eq List.not_mem_nil path.toList

/-- A path is its segments with slashes between them. -/
theorem intercalate_segments (path : String) : "/".intercalate (segments path) = path := by
  have hlists : (segments path).map String.toList = path.toList.splitOn '/' := by
    simp [segments_eq, Function.comp_def]
  rw [← String.toList_inj, String.toList_intercalate, hlists]
  exact List.intercalate_splitOn '/'

/-- Names without slashes are the segments of the path that they make. -/
theorem segments_intercalate {names : List String} (hne : names ≠ [])
    (h : ∀ name ∈ names, '/' ∉ name.toList) : segments ("/".intercalate names) = names := by
  have hsplit : (['/'].intercalate (names.map String.toList)).splitOn '/' =
      names.map String.toList :=
    List.splitOn_intercalate '/' (List.forall_mem_map.mpr h) (by simpa using hne)
  have hslash : "/".toList = ['/'] := rfl
  rw [segments_eq, String.toList_intercalate, hslash, hsplit]
  simp [Function.comp_def]

theorem slash_not_mem_of_mem_segments {path name : String} (h : name ∈ segments path) :
    '/' ∉ name.toList := by
  have hfrom (done cs : List Char) (hdone : '/' ∉ done) :
      ∀ name ∈ segmentsFrom done cs, '/' ∉ name.toList := by
    induction cs generalizing done with
    | nil => simpa [segmentsFrom] using hdone
    | cons c cs ih =>
        rw [segmentsFrom]
        by_cases hc : c = '/'
        · rw [if_pos hc]
          exact List.forall_mem_cons.mpr ⟨by simpa using hdone, ih [] List.not_mem_nil⟩
        · rw [if_neg hc]
          exact ih (c :: done) (by simp [Ne.symm hc, hdone])
  exact hfrom [] path.toList List.not_mem_nil name h

theorem exists_intercalate_append (names more : List String) :
    ∃ t, "/".intercalate (names ++ more) = "/".intercalate names ++ t := by
  by_cases hnames : names = []
  · exact ⟨"/".intercalate more, by simp [hnames]⟩
  · by_cases hmore : more = []
    · exact ⟨"", by simp [hmore]⟩
    · exact ⟨"/" ++ "/".intercalate more, by
        rw [String.intercalate_append_of_ne_nil hnames hmore, String.append_assoc]⟩

/-! ## Names that lead somewhere -/

/-- Whether a segment leads somewhere. -/
def isStep (name : String) : Bool :=
  name ≠ "" ∧ name ≠ "."

/-- The segments of a path that lead somewhere. -/
def steps (path : String) : List String :=
  (segments path).filter isStep

/-- What is dropped leads nowhere. -/
theorem exists_append_dropIdle (absolute : Bool) (names : List String) :
    ∃ idle, names = idle ++ dropIdle absolute names ∧ idle.filter isStep = [] := by
  fun_induction dropIdle absolute names with
  | case1 | case3 | case5 => exact ⟨[], rfl, rfl⟩
  | case2 name h =>
      refine ⟨[name], rfl, ?_⟩
      rcases h with h | ⟨-, h⟩ <;> simp [isStep, h]
  | case4 name rest _ h ih =>
      obtain ⟨idle, hrest, hidle⟩ := ih
      refine ⟨name :: idle, by rw [List.cons_append, ← hrest], ?_⟩
      rcases h with h | h <;> simpa [isStep, h] using hidle

/-- A segment that is not dropped is a step, unless it is the point of a path that consists
of it. -/
theorem dropIdle_eq_cons {absolute : Bool} {names rest : List String} {name : String}
    (h : dropIdle absolute names = name :: rest) :
    isStep name = true ∨ isStep name = false ∧ rest = [] ∧ absolute = false := by
  fun_induction dropIdle absolute names with
  | case1 => cases h
  | case2 => cases h
  | case3 s hs =>
      obtain ⟨rfl, rfl⟩ := List.cons.inj h
      by_cases hpoint : s = "."
      · subst hpoint
        exact .inr ⟨rfl, rfl, by simpa using hs⟩
      · exact .inl (by simp_all [isStep])
  | case4 s rest' _ hs ih => exact ih h
  | case5 s rest' _ hs =>
      obtain ⟨rfl, rfl⟩ := List.cons.inj h
      exact .inl (by simpa [isStep] using hs)

/-! ## Parents -/

/-- The segments of a path after the slash that an absolute one begins with. -/
def names (path : String) : List String :=
  if isAbsolute path then (segments path).drop 1 else segments path

/-- The path of the names that it leads through, from the top or not. -/
def joined (absolute : Bool) (names : List String) : String :=
  (if absolute then "/" else "") ++ "/".intercalate names

theorem segments_slash_append (path : String) : segments ("/" ++ path) = "" :: segments path := by
  rw [segments, String.toList_append]
  rfl

theorem exists_slash_append {path : String} (h : isAbsolute path = true) :
    ∃ rest, path = "/" ++ rest := by
  obtain ⟨cs, hcs⟩ := List.head?_eq_some_iff.mp (of_decide_eq_true h)
  refine ⟨String.ofList cs, ?_⟩
  rw [← String.toList_inj, hcs, String.toList_append, String.toList_ofList]
  simp

theorem joined_names (path : String) : joined (isAbsolute path) (names path) = path := by
  rw [joined, names]
  by_cases h : isAbsolute path = true
  · obtain ⟨rest, rfl⟩ := exists_slash_append h
    rw [if_pos h, if_pos h, segments_slash_append, List.drop_one, List.tail_cons,
      intercalate_segments]
  · rw [if_neg h, if_neg h, intercalate_segments, String.empty_append]

theorem filter_names (path : String) : (names path).filter isStep = steps path := by
  rw [names, steps]
  by_cases h : isAbsolute path = true
  · obtain ⟨rest, rfl⟩ := exists_slash_append h
    rw [if_pos h, segments_slash_append]
    rfl
  · rw [if_neg h]

theorem steps_joined (absolute : Bool) {names : List String}
    (h : ∀ name ∈ names, '/' ∉ name.toList) :
    steps (joined absolute names) = names.filter isStep := by
  have hrow : steps ("/".intercalate names) = names.filter isStep := by
    by_cases hne : names = []
    · subst hne
      rfl
    · rw [steps, segments_intercalate hne h]
  cases absolute with
  | true =>
      rw [joined, if_pos rfl, steps, segments_slash_append, ← hrow]
      rfl
  | false => rwa [joined, if_neg Bool.false_ne_true, String.empty_append]

section Parent

variable {path above : String}

/-- The parent of a path is made of names that the path begins with. One name follows, and
what else follows leads nowhere; or the path is a relative one without names. -/
theorem parent?_eq_some (h : parent? path = some above) :
    ∃ before after, names path = before ++ after ∧ above = joined (isAbsolute path) before ∧
      ((∃ name, after.filter isStep = [name]) ∨
        after.filter isStep = [] ∧ before = [] ∧ isAbsolute path = false) := by
  rw [parent?] at h
  dsimp only at h
  split at h
  · cases h
  · rename_i name rest hnames
    change dropIdle (isAbsolute path) (names path).reverse = name :: rest at hnames
    obtain ⟨idle, hall, hidle⟩ := exists_append_dropIdle (isAbsolute path) (names path).reverse
    obtain ⟨idle', hrest, hidle'⟩ := exists_append_dropIdle (isAbsolute path) rest
    rw [hnames] at hall
    refine ⟨(dropIdle (isAbsolute path) rest).reverse, (idle ++ name :: idle').reverse, ?_, ?_, ?_⟩
    · rw [← List.reverse_append, List.append_assoc, List.cons_append, ← hrest, ← hall,
        List.reverse_reverse]
    · rw [← Option.some_inj.mp h, joined]
      split <;> simp
    · have hafter : (idle ++ name :: idle').reverse.filter isStep = [name].filter isStep := by
        simp [List.filter_reverse, List.filter_append, List.filter_cons, hidle, hidle']
      rw [hafter]
      rcases dropIdle_eq_cons hnames with hname | ⟨hname, rfl, habsolute⟩
      · exact .inl ⟨name, by simp [hname]⟩
      · exact .inr ⟨by simp [hname], rfl, habsolute⟩

/-- A path begins with its parent. -/
theorem exists_append_of_parent? (h : parent? path = some above) : ∃ t, path = above ++ t := by
  obtain ⟨before, after, hnames, rfl, -⟩ := parent?_eq_some h
  obtain ⟨t, ht⟩ := exists_intercalate_append before after
  refine ⟨t, ?_⟩
  calc path = joined (isAbsolute path) (names path) := (joined_names path).symm
    _ = joined (isAbsolute path) before ++ t := by
      rw [hnames, joined, ht, joined, String.append_assoc]

theorem isAbsolute_of_parent? (h : parent? path = some above) :
    isAbsolute above = isAbsolute path := by
  obtain ⟨before, after, -, habove, -⟩ := parent?_eq_some h
  cases habsolute : isAbsolute path with
  | true =>
      rw [habove, habsolute, isAbsolute, joined, if_pos rfl, String.toList_append]
      rfl
  | false =>
      obtain ⟨t, rfl⟩ := exists_append_of_parent? h
      rw [isAbsolute, decide_eq_false_iff_not] at habsolute ⊢
      intro hhead
      obtain ⟨cs, hcs⟩ := List.head?_eq_some_iff.mp hhead
      simp [hcs] at habsolute

/-- A parent leads through all names but the last one. Only a path without names has a
parent that leads as far, the empty path. -/
theorem steps_of_parent? (h : parent? path = some above) :
    (∃ name, steps path = steps above ++ [name]) ∨ steps path = [] ∧ above = "" := by
  obtain ⟨before, after, hnames, habove, hafter⟩ := parent?_eq_some h
  have hslash : ∀ name ∈ before, '/' ∉ name.toList := by
    intro name hname
    have hmem : name ∈ names path := hnames ▸ List.mem_append_left _ hname
    rw [names] at hmem
    split at hmem
    · exact slash_not_mem_of_mem_segments (List.mem_of_mem_drop hmem)
    · exact slash_not_mem_of_mem_segments hmem
  rw [← filter_names path, hnames, List.filter_append]
  rcases hafter with ⟨name, hafter⟩ | ⟨hafter, rfl, habsolute⟩
  · exact .inl ⟨name, by rw [hafter, habove, steps_joined _ hslash]⟩
  · exact .inr ⟨by simpa using hafter, by rw [habove, habsolute]; rfl⟩

theorem steps_prefix_of_parent? (h : parent? path = some above) : steps above <+: steps path := by
  rcases steps_of_parent? h with ⟨name, hsteps⟩ | ⟨-, rfl⟩
  · exact hsteps ▸ List.prefix_append _ _
  · exact List.nil_prefix

end Parent

end FilePath

end JsonRecords
