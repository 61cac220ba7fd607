import JsonRecords.Proofs.Record.Drafts
import JsonRecords.Target.Neutral
import Mathlib.Data.List.Permutation

/-!
# Where records come from

Records refer to one another by the hints of their fields. No reference
dangles: a field that leads to an object is appended only after the record of
that object has its place. And no record is there for nothing: all but the
first, which has the root name, are referred to by a field of an earlier one.
Both hold of the names as they are, also where several objects come to one name.
-/

namespace JsonRecords

namespace Generate

open Schema Observed

/-- A field of the record `parent` refers to the record `child`. -/
def Refers (naming : Naming) (events : List Event) (parent child : String) : Prop :=
  ∃ object field, .reserve parent object ∈ events ∧ field ∈ object.sortedFields ∧
    hint naming parent field = .record child

theorem Refers.mono {naming : Naming} {events more : List Event} {parent child : String}
    (h : Refers naming events parent child) (hsub : events ⊆ more) :
    Refers naming more parent child := by
  obtain ⟨object, field, hr, hf, hh⟩ := h
  exact ⟨object, field, hsub hr, hf, hh⟩

/-- Every name but the first is referred to by a record that was named before. -/
theorem Trace.exists_refers {naming : Naming} {name : String} {root : Schema}
    {events : List Event} (h : Trace naming name root events) {i : Nat} {child : String}
    (hi : 0 < i) (hc : (names events).eraseDups[i]? = some child) :
    ∃ j < i, ∃ parent, (names events).eraseDups[j]? = some parent ∧
      Refers naming events parent child := by
  induction h with
  | start =>
      have hlt := (List.getElem?_eq_some_iff.mp hc).1
      simp [List.eraseDups_cons] at hlt
      omega
  | @reserve events record object field below _ hr hf hb ih =>
      have hsub : events ⊆ events ++ [.reserve (naming.nested record field.name) below] :=
        List.subset_append_left _ _
      simp only [names_append, names_reserve, eraseDups_append_singleton] at hc ⊢
      by_cases hold : naming.nested record field.name ∈ names events
      · simp only [if_pos hold] at hc ⊢
        obtain ⟨j, hj, parent, hp, href⟩ := ih hc
        exact ⟨j, hj, parent, hp, href.mono hsub⟩
      · simp only [if_neg hold] at hc ⊢
        rcases Nat.lt_or_ge i (names events).eraseDups.length with hlt | hge
        · rw [List.getElem?_append_left hlt] at hc
          obtain ⟨j, hj, parent, hp, href⟩ := ih hc
          refine ⟨j, hj, parent, ?_, href.mono hsub⟩
          rwa [List.getElem?_append_left (Nat.lt_trans hj hlt)]
        · -- the new name is referred to by the record that its place is asked for
          have hrecord : record ∈ (names events).eraseDups :=
            List.mem_eraseDups.mpr (mem_names.mpr ⟨object, hr⟩)
          obtain ⟨j, hj, hp⟩ := List.mem_iff_getElem.mp hrecord
          have hchild : naming.nested record field.name = child := by
            rw [List.getElem?_append_right hge] at hc
            exact List.mem_singleton.mp (List.mem_of_getElem? hc) ▸ rfl
          refine ⟨j, Nat.lt_of_lt_of_le hj hge, record, ?_, object, field, hsub hr, hf, ?_⟩
          · rw [List.getElem?_append_left hj, List.getElem?_eq_getElem hj, hp]
          · rw [hint_of_nested? hb, hchild]
  | @append events record object field _ hr hf ih =>
      have hsub : events ⊆ events ++ [.append record field] := List.subset_append_left _ _
      simp only [names_append, names_append_singleton, List.append_nil] at hc ⊢
      obtain ⟨j, hj, parent, hp, href⟩ := ih hc
      exact ⟨j, hj, parent, hp, href.mono hsub⟩

/-- What refers to a record in a walk is among the fields of its draft. -/
theorem Refers.exists_mem_fieldsOf {naming : Naming} {name parent child : String} {s : Schema}
    (h : Refers naming (walk naming name s) parent child) :
    ∃ field ∈ fieldsOf parent (walk naming name s), hint naming parent field = .record child := by
  obtain ⟨object, field, hr, hf, hh⟩ := h
  refine ⟨field, mem_fieldsOf.mpr ?_, hh⟩
  exact walkBelow_append_subset hr hf (by simp)

/-- What the fields of a draft refer to has its place. -/
theorem mem_names_of_hint {naming : Naming} {name record child : String} {s field : Schema}
    (hf : field ∈ fieldsOf record (walk naming name s))
    (hh : hint naming record field = .record child) : child ∈ names (walk naming name s) := by
  obtain ⟨⟨below, hb⟩, rfl⟩ := exists_nested?_of_hint hh
  obtain ⟨_, object, hr, hfield⟩ := exists_object_of_mem_fieldsOf hf
  refine mem_names.mpr ⟨below, walkBelow_append_subset hr hfield (List.mem_append_left _ ?_)⟩
  rw [walkBelow_some hb, walk_object (isObject_of_nested? hb)]
  exact List.mem_cons_self

end Generate

namespace Schema

open Generate Observed

theorem records_eq_nil_iff (s : Schema) (naming : Naming) (spell : TypeSpelling) :
    s.records naming spell = [] ↔ s.kind ≠ .object := by
  rw [← List.map_eq_nil_iff, names_records]
  rw [Ne, ← isObject_iff]
  by_cases h : s.isObject
  · simp [walk_object h, names, Event.reserved?, List.eraseDups_cons, h]
  · simp [walk_of_not h, names, h]

/-- The first record is that of the root. -/
theorem name_of_mem_head? {s : Schema} {naming : Naming} {spell : TypeSpelling} {r : RecordDecl}
    (h : r ∈ (s.records naming spell).head?) : r.name = naming.rootName := by
  have hname : ((s.records naming spell).map RecordDecl.name).head? = some r.name := by
    rw [List.head?_map, h, Option.map_some]
  rw [names_records] at hname
  by_cases hs : s.isObject
  · rw [walk_object hs] at hname
    simpa [names, Event.reserved?, List.eraseDups_cons] using hname.symm
  · simp [walk_of_not hs, names] at hname

/-- A record that the hint of a field names is there. -/
theorem exists_mem_records_of_hint {s : Schema} {naming : Naming} {record name : String}
    {field : Schema} (hf : field ∈ fieldsOf record (walk naming naming.rootName s))
    (hh : hint naming record field = .record name) (spell : TypeSpelling) :
    ∃ r ∈ s.records naming spell, r.name = name := by
  have hmem : name ∈ (s.records naming spell).map RecordDecl.name := by
    rw [names_records, List.mem_eraseDups]
    exact mem_names_of_hint hf hh
  simpa using hmem

/-- A schema that is an object, and no other, has records. They have distinct
names, the first the root name. Behind each stand the schemas of its fields,
whatever the spelling; no hint of them dangles, and all records but the first
are the hint of a field of an earlier record. -/
theorem exists_fields_records (s : Schema) (naming : Naming) :
    ∃ fields : String → List Schema, ∀ spell : TypeSpelling,
      let records := s.records naming spell
      (records = [] ↔ s.kind ≠ .object) ∧
      (records.map RecordDecl.name).Nodup ∧
      (∀ r ∈ records.head?, r.name = naming.rootName) ∧
      (∀ r ∈ records, r.fields = (fields r.name).map (declare naming spell r.name)) ∧
      (∀ r ∈ records, ∀ field ∈ fields r.name, ∀ name, hint naming r.name field = .record name →
        ∃ target ∈ records, target.name = name) ∧
      (∀ i r, 0 < i → records[i]? = some r → ∃ j < i, ∃ parent, records[j]? = some parent ∧
        ∃ field ∈ fields parent.name, hint naming parent.name field = .record r.name) := by
  let events := walk naming naming.rootName s
  refine ⟨fun record => fieldsOf record events, ?_⟩
  intro spell records
  have hnames : records.map RecordDecl.name = (names events).eraseDups :=
    names_records s naming spell
  refine ⟨records_eq_nil_iff s naming spell, ?_, ?_, ?_, ?_, ?_⟩
  · rw [hnames]
    exact nodup_eraseDups _
  · intro r hr
    exact name_of_mem_head? hr
  · intro r hr
    exact fields_of_mem_records hr
  · intro r _ field hf name hh
    have hmem : name ∈ records.map RecordDecl.name := by
      rw [hnames, List.mem_eraseDups]
      exact mem_names_of_hint hf hh
    simpa using hmem
  · intro i r hi hr
    have hs : s.isObject := by
      by_contra hs
      have hnil : records = [] :=
        (records_eq_nil_iff s naming spell).mpr fun hk => hs (isObject_iff.mpr hk)
      simp [hnil] at hr
    have hname : (names events).eraseDups[i]? = some r.name := by
      rw [← hnames, List.getElem?_map, hr, Option.map_some]
    obtain ⟨j, hj, parent, hp, href⟩ :=
      (trace_walk hs naming naming.rootName).exists_refers hi hname
    rw [← hnames, List.getElem?_map, Option.map_eq_some_iff] at hp
    obtain ⟨p, hp, rfl⟩ := hp
    exact ⟨j, hj, p, hp, href.exists_mem_fieldsOf⟩

/-- A schema in which, without a separator, the record of a field comes to the
name of its parent, and two fields come to one name. -/
def tangled : Schema :=
  ⟨"root", .object,
    [("", ⟨"", .object, [("x", leaf "x" .string)]⟩),
      ("bc", ⟨"bc", .object, [("y", leaf "y" .number)]⟩),
      ("b", ⟨"b", .object, [("c", ⟨"c", .array, [("content", leaf "content" .object)]⟩)]⟩)]⟩

theorem exists_fields_records_tangled :
    let naming : Naming := ⟨"A", ""⟩
    let records := tangled.records naming Neutral.typeExpr
    records =
        [⟨"A", [⟨"x", "string"⟩, ⟨"", "A"⟩, ⟨"b", "Ab"⟩, ⟨"bc", "Abc"⟩]⟩,
          ⟨"Ab", [⟨"c", "array<Abc>"⟩]⟩, ⟨"Abc", [⟨"y", "number"⟩]⟩] ∧
      tangled.kind = .object ∧ (records.map RecordDecl.name).Nodup ∧
      (∃ first ∈ records.head?, first.name = naming.rootName) ∧
      ∃ fields : String → List Schema,
        (∀ r ∈ records, r.fields = (fields r.name).map (declare naming Neutral.typeExpr r.name)) ∧
        ∃ j < 2, ∃ parent, records[j]? = some parent ∧
          ∃ field ∈ fields parent.name, hint naming parent.name field = .record "Abc" ∧
            ∃ target ∈ records, target.name = "Abc" := by
  intro naming records
  have hrecords : tangled.records ⟨"A", ""⟩ Neutral.typeExpr =
      [⟨"A", [⟨"x", "string"⟩, ⟨"", "A"⟩, ⟨"b", "Ab"⟩, ⟨"bc", "Abc"⟩]⟩,
        ⟨"Ab", [⟨"c", "array<Abc>"⟩]⟩, ⟨"Abc", [⟨"y", "number"⟩]⟩] := by cbv
  obtain ⟨fields, h⟩ := exists_fields_records tangled naming
  obtain ⟨_, hnodup, hhead, hfields, hdangling, hparent⟩ := h Neutral.typeExpr
  have hfirst : records.head? =
      some ⟨"A", [⟨"x", "string"⟩, ⟨"", "A"⟩, ⟨"b", "Ab"⟩, ⟨"bc", "Abc"⟩]⟩ := by
    simp only [records, naming, hrecords, List.head?_cons]
  have hthird : records[2]? = some ⟨"Abc", [⟨"y", "number"⟩]⟩ := by
    simp only [records, naming, hrecords, List.getElem?_cons_succ, List.getElem?_cons_zero]
  obtain ⟨j, hj, parent, hp, field, hf, hh⟩ := hparent 2 _ Nat.two_pos hthird
  have htarget := hdangling parent (List.mem_of_getElem? hp) field hf _ hh
  exact ⟨hrecords, rfl, hnodup, ⟨_, hfirst, hhead _ hfirst⟩, fields, hfields, j, hj, parent, hp,
    field, hf, hh, htarget⟩

end Schema

end JsonRecords
