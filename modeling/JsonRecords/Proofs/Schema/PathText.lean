import JsonRecords.Proofs.Schema.Audit

/-!
# What the text of a path says

Steps leave marks in the text of a path: a field its key after a point, elements a
pair of brackets. Where no key holds such a mark itself the marks can be read back
(`flatMap_mark_injective`). The one step without a mark is a field with an empty key
that nothing stands before, so the text of a path tells where it leads but for the
empty keys that it begins with (`text_eq_iff`), and so do the texts of conflicts
(`text_eq_iff_of_mem_conflicts`).
-/

namespace JsonRecords

namespace Json

mutual

/-- The keys of all objects in a value, at any depth. -/
def allKeys : Json → List String
  | .array items => itemKeys items
  | .object members => memberKeys members
  | _ => []

def itemKeys : List Json → List String
  | [] => []
  | v :: rest => v.allKeys ++ itemKeys rest

def memberKeys : List (String × Json) → List String
  | [] => []
  | (key, v) :: rest => key :: v.allKeys ++ memberKeys rest

end

theorem mem_itemKeys {items : List Json} {key : String} :
    key ∈ itemKeys items ↔ ∃ v ∈ items, key ∈ v.allKeys := by
  induction items with
  | nil => simp [itemKeys]
  | cons v rest ih => simp [itemKeys, ih]

theorem mem_memberKeys {members : Keyed String Json} {key : String} :
    key ∈ memberKeys members ↔ ∃ m ∈ members, key = m.1 ∨ key ∈ m.2.allKeys := by
  induction members with
  | nil => simp [memberKeys]
  | cons m rest ih => simp [memberKeys, ih, or_assoc]

/-- One step down lead only keys that are there, and below are no others. -/
theorem mem_allKeys_of_mem_step {s : Schema.Step} {v w : Json} (hw : w ∈ v.step s)
    {key : String} (hkey : s = .field key ∨ key ∈ w.allKeys) : key ∈ v.allKeys := by
  cases s with
  | field k =>
      cases v with
      | object members =>
          obtain ⟨found, hfound, hmem⟩ := Observed.mem_valuesIn.mp hw
          rw [List.mem_singleton.mp hfound] at hmem
          rw [allKeys, mem_memberKeys]
          exact ⟨(k, w), hmem, hkey.imp_left fun h => (Schema.Step.field.inj h).symm⟩
      | _ => simp [step] at hw
  | element =>
      cases v with
      | array items =>
          rw [allKeys, mem_itemKeys]
          exact ⟨w, hw, hkey.resolve_left nofun⟩
      | _ => simp [step] at hw

/-- A path that leads to a value goes through keys that are there. -/
theorem mem_allKeys_of_mem_valuesAt {path : Schema.Path} {v w : Json} (hw : w ∈ v.valuesAt path)
    {key : String} (hkey : .field key ∈ path) : key ∈ v.allKeys := by
  induction path generalizing v with
  | nil => simp at hkey
  | cons s rest ih =>
      obtain ⟨u, hu, hw⟩ := List.mem_flatMap.mp hw
      apply mem_allKeys_of_mem_step hu
      exact (List.mem_cons.mp hkey).imp Eq.symm (ih hw)

end Json

namespace Schema

namespace Path

/-- Whether a character is none of those that steps leave in a text. -/
def isPlain (c : Char) : Bool :=
  c ≠ '.' && c ≠ '[' && c ≠ ']'

/-- What a step adds to a text that is not empty. -/
def mark : Step → List Char
  | .field key => '.' :: key.toList
  | .element => ['[', ']']

/-- A path without the empty keys that it begins with. -/
def significant (path : Path) : Path :=
  path.dropWhile (· = .field "")

theorem extend_ne_empty {text : String} (h : text ≠ "") (step : Step) : extend text step ≠ "" := by
  cases step <;> simp [extend, h, String.append_eq_empty_iff]

theorem toList_extend {text : String} (h : text ≠ "") (step : Step) :
    (extend text step).toList = text.toList ++ mark step := by
  cases step <;> simp [extend, mark, h]

theorem toList_foldl_extend {text : String} (h : text ≠ "") (path : Path) :
    (path.foldl extend text).toList = text.toList ++ path.flatMap mark := by
  induction path generalizing text with
  | nil => simp
  | cons step path ih =>
      rw [List.foldl_cons, ih (extend_ne_empty h step), toList_extend h, List.append_assoc,
        List.flatMap_cons]

theorem text_significant (path : Path) : text (significant path) = text path := by
  induction path with
  | nil => rfl
  | cons step path ih =>
      by_cases h : step = .field ""
      · subst h
        exact ih
      · rw [significant, List.dropWhile_cons_of_neg (by simpa using h)]

theorem toList_text_field {key : String} (h : key ≠ "") (path : Path) :
    (text (.field key :: path)).toList = key.toList ++ path.flatMap mark :=
  toList_foldl_extend h path

theorem toList_text_element (path : Path) :
    (text (.element :: path)).toList = (Step.element :: path).flatMap mark :=
  toList_foldl_extend (show "[]" ≠ "" by decide) path

/-- A plain text in front of marks ends where they begin. -/
theorem append_flatMap_mark_inj {k l : List Char} (hk : ∀ c ∈ k, isPlain c = true)
    (hl : ∀ c ∈ l, isPlain c = true) {p q : Path}
    (h : k ++ p.flatMap mark = l ++ q.flatMap mark) :
    k = l ∧ p.flatMap mark = q.flatMap mark := by
  have hstop (p : Path) : (p.flatMap mark).takeWhile isPlain = [] := by
    cases p with
    | nil => rfl
    | cons step p => cases step <;> rfl
  have htake := congrArg (List.takeWhile isPlain) h
  rw [List.takeWhile_append_of_pos hk, List.takeWhile_append_of_pos hl, hstop, hstop,
    List.append_nil, List.append_nil] at htake
  subst htake
  exact ⟨rfl, List.append_cancel_left h⟩

/-- The fields of a path have keys without marks. -/
def Plain (path : Path) : Prop :=
  ∀ key, .field key ∈ path → ∀ c ∈ key.toList, isPlain c = true

theorem Plain.of_cons {step : Step} {path : Path} (h : Plain (step :: path)) : Plain path :=
  fun key hkey => h key (List.mem_cons_of_mem _ hkey)

/-- Steps are read back from their marks. -/
theorem flatMap_mark_injective {p q : Path} (hp : Plain p) (hq : Plain q)
    (h : p.flatMap mark = q.flatMap mark) : p = q := by
  induction p generalizing q with
  | nil =>
      cases q with
      | nil => rfl
      | cons step q => cases step <;> simp [mark] at h
  | cons step p ih =>
      cases q with
      | nil => cases step <;> simp [mark] at h
      | cons step' q =>
          rw [List.flatMap_cons, List.flatMap_cons] at h
          cases step with
          | field key =>
              cases step' with
              | field key' =>
                  obtain ⟨hkey, hrest⟩ := append_flatMap_mark_inj (hp key List.mem_cons_self)
                    (hq key' List.mem_cons_self) (List.cons.inj h).2
                  rw [String.toList_inj.mp hkey, ih hp.of_cons hq.of_cons hrest]
              | element => simp [mark] at h
          | element =>
              cases step' with
              | field key' => simp [mark] at h
              | element => rw [ih hp.of_cons hq.of_cons (List.append_cancel_left h)]

theorem Plain.significant {path : Path} (h : Plain path) : Plain path.significant :=
  fun key hkey => h key ((List.dropWhile_sublist _).mem hkey)

theorem head_significant (path : Path) : (significant path).head? ≠ some (.field "") := by
  intro h
  have hfirst := List.head?_dropWhile_not (· = Step.field "") path
  rw [significant] at h
  simp [h] at hfirst

/-- Puts a point before a key that a text begins with. -/
def pointed : List Char → List Char
  | [] => []
  | c :: cs => if isPlain c then '.' :: c :: cs else c :: cs

theorem pointed_text {path : Path} (h : Plain path) (hhead : path.head? ≠ some (.field "")) :
    pointed (text path).toList = path.flatMap mark := by
  cases path with
  | nil => rfl
  | cons step path =>
      cases step with
      | field key =>
          have hne : key ≠ "" := by
            rintro rfl
            exact hhead rfl
          rw [toList_text_field hne, List.flatMap_cons, mark]
          cases hkey : key.toList with
          | nil => exact absurd (String.toList_eq_nil_iff.mp hkey) hne
          | cons c cs =>
              have hc : isPlain c = true := h key List.mem_cons_self c (by simp [hkey])
              simp [pointed, hc]
      | element =>
          rw [toList_text_element]
          rfl

/-- Paths that do not begin with an empty key have different texts. -/
theorem text_injective {p q : Path} (hp : Plain p) (hq : Plain q)
    (hp' : p.head? ≠ some (.field "")) (hq' : q.head? ≠ some (.field ""))
    (h : text p = text q) : p = q := by
  apply flatMap_mark_injective hp hq
  rw [← pointed_text hp hp', ← pointed_text hq hq', h]

/-- The text of a path tells all of it but the empty keys that it begins with. -/
theorem text_eq_iff {p q : Path} (hp : Plain p) (hq : Plain q) :
    text p = text q ↔ p.significant = q.significant := by
  constructor
  · intro h
    rw [← text_significant p, ← text_significant q] at h
    exact text_injective hp.significant hq.significant (head_significant p) (head_significant q) h
  · intro h
    rw [← text_significant p, ← text_significant q, h]

end Path

open Observed

theorem founded_of_mem_conflicts {documents : List Json} {c : Conflict}
    (hc : c ∈ (Inference.start.addAll documents).conflicts) :
    Founded [] (infer documents) ((rootObjects documents).map Json.object) c := by
  rw [conflicts_eq_flatMap] at hc
  obtain ⟨d, hd, hc⟩ := List.mem_flatMap.mp hc
  exact founded_of_mem_auditDocument hd hc

/-- The path of a conflict leads to a position of the schema and to a value of the
samples. -/
theorem path_of_mem_conflicts {documents : List Json} {c : Conflict}
    (hc : c ∈ (Inference.start.addAll documents).conflicts) :
    (∃ node, at? c.path (infer documents) = some node ∧ node.kind = c.kept) ∧
      ∃ members ∈ rootObjects documents, ∃ v, v ∈ (Json.object members).valuesAt c.path := by
  obtain ⟨below, hpath, hkept, ⟨v, hv, _⟩, _⟩ := founded_of_mem_conflicts hc
  rw [List.nil_append] at hpath
  subst hpath
  obtain ⟨object, hobject, hv⟩ := List.mem_flatMap.mp hv
  obtain ⟨members, hm, rfl⟩ := List.mem_map.mp hobject
  exact ⟨hkept, members, hm, v, hv⟩

theorem mem_allKeys_of_mem_rootObjects {d : Json} {members : Keyed String Json}
    (hm : members ∈ rootObjects [d]) {key : String} (hkey : key ∈ (Json.object members).allKeys) :
    key ∈ d.allKeys := by
  cases d with
  | object members' =>
      obtain rfl : members = members' := by simpa [rootObjects] using hm
      exact hkey
  | array items =>
      have hm : .object members ∈ items := by simpa [rootObjects, mem_objectsIn] using hm
      rw [Json.allKeys, Json.mem_itemKeys]
      exact ⟨_, hm, hkey⟩
  | _ => simp [rootObjects] at hm

/-- Conflicts of samples whose keys hold no marks: the path of each leads to the
position whose kind was kept, and its text tells the path but for the empty keys that
it begins with. So if no sample has an empty key at its top, the texts for different
positions are different. -/
theorem text_eq_iff_of_mem_conflicts {documents : List Json}
    (h : ∀ d ∈ documents, ∀ key ∈ d.allKeys, ∀ c ∈ key.toList, Path.isPlain c = true) :
    let i := Inference.start.addAll documents
    (∀ c ∈ i.conflicts, ∃ node, at? c.path i.schema = some node ∧ node.kind = c.kept) ∧
      (∀ c ∈ i.conflicts, ∀ d ∈ i.conflicts,
        c.path.text = d.path.text ↔ c.path.significant = d.path.significant) ∧
      ((∀ members ∈ rootObjects documents, "" ∉ Keyed.keys members) →
        ∀ c ∈ i.conflicts, ∀ d ∈ i.conflicts, c.path ≠ d.path → c.path.text ≠ d.path.text) := by
  intro i
  have hplain : ∀ c ∈ i.conflicts, Path.Plain c.path := by
    intro c hc key hkey
    obtain ⟨_, members, hm, v, hv⟩ := path_of_mem_conflicts hc
    obtain ⟨d, hd, hm⟩ := mem_rootObjects.mp hm
    have hkeys := Json.mem_allKeys_of_mem_valuesAt hv hkey
    exact h d hd key (mem_allKeys_of_mem_rootObjects hm hkeys)
  refine ⟨fun c hc => (path_of_mem_conflicts hc).1, ?_, ?_⟩
  · exact fun c hc d hd => Path.text_eq_iff (hplain c hc) (hplain d hd)
  · intro hempty
    have hhead : ∀ c ∈ i.conflicts, c.path.head? ≠ some (.field "") := by
      intro c hc hfirst
      obtain ⟨_, members, hm, v, hv⟩ := path_of_mem_conflicts hc
      obtain ⟨rest, hpath⟩ := List.head?_eq_some_iff.mp hfirst
      rw [hpath] at hv
      obtain ⟨u, hu, _⟩ := List.mem_flatMap.mp hv
      obtain ⟨found, hfound, hu⟩ := mem_valuesIn.mp hu
      rw [List.mem_singleton.mp hfound] at hu
      exact hempty members hm (List.mem_map_of_mem hu)
    intro c hc d hd hne htext
    exact hne (Path.text_injective (hplain c hc) (hplain d hd) (hhead c hc) (hhead d hd) htext)

/-- Whether keys hold marks is checked key by key. -/
theorem forall_isPlain_of_all {documents : List Json}
    (h : documents.all (fun d => d.allKeys.all fun key => key.toList.all Path.isPlain) = true) :
    ∀ d ∈ documents, ∀ key ∈ d.allKeys, ∀ c ∈ key.toList, Path.isPlain c = true := by
  simpa only [List.all_eq_true] using h

theorem text_eq_iff_of_mem_conflicts_nested :
    let documents : List Json :=
      [.object [("a", .object [("", .bool true), ("b", .array [.null])]), ("b", .null)],
        .object [("a", .object [("", .null), ("b", .array [.bool true])]), ("b", .bool true)]]
    let i := Inference.start.addAll documents
    let c : Conflict := ⟨[.field "a", .field ""], .boolean, .null⟩
    let d : Conflict := ⟨[.field "a", .field "b", .element], .null, .boolean⟩
    (∀ d ∈ documents, ∀ key ∈ d.allKeys, ∀ c ∈ key.toList, Path.isPlain c = true) ∧
      (∀ members ∈ rootObjects documents, "" ∉ Keyed.keys members) ∧
      c ∈ i.conflicts ∧ d ∈ i.conflicts ∧ c.path ≠ d.path ∧ c.path.text ≠ d.path.text := by
  intro documents i c d
  have hplain : ∀ d ∈ documents, ∀ key ∈ d.allKeys, ∀ c ∈ key.toList, Path.isPlain c = true :=
    forall_isPlain_of_all (by decide)
  have hempty : ∀ members ∈ rootObjects documents, "" ∉ Keyed.keys members := by
    decide
  have hc : c ∈ i.conflicts := by decide
  have hd : d ∈ i.conflicts := by decide
  have hne : c.path ≠ d.path := by decide
  obtain ⟨_, _, htexts⟩ := text_eq_iff_of_mem_conflicts hplain
  exact ⟨hplain, hempty, hc, hd, hne, htexts hempty c hc d hd hne⟩

/-- A field below an empty key at the top and the field of the same name at the top
have one text. -/
theorem text_eq_of_path_ne :
    let documents : List Json :=
      [.object [("", .object [("a", .null)]), ("a", .null)],
        .object [("", .object [("a", .bool true)]), ("a", .bool true)]]
    (∀ d ∈ documents, ∀ key ∈ d.allKeys, ∀ c ∈ key.toList, Path.isPlain c = true) ∧
      ∃ c ∈ (Inference.start.addAll documents).conflicts,
        ∃ d ∈ (Inference.start.addAll documents).conflicts,
          c.path ≠ d.path ∧ c.path.text = d.path.text :=
  ⟨forall_isPlain_of_all (by decide), by decide⟩

end Schema

end JsonRecords
