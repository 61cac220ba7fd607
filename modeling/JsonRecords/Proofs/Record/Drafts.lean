import JsonRecords.Proofs.Record.Walk

/-!
# Records before they are spelled

A draft is a record with the schemas of its fields in place of their
declarations. The drafts of some events have the names in order of first
reservation, and each of them the fields that were appended to it, in order.
Replaying a trace gives its drafts with every field spelled
(`Trace.foldl_apply`), so spelling decides nothing but type expressions, and
what is to be said of the records of a schema is said of its drafts
(`records_eq_map_drafts`).
-/

namespace JsonRecords

namespace Generate

open Schema Observed

namespace Event

def reserved? : Event → Option (String × Schema)
  | reserve record object => some (record, object)
  | append _ _ => none

/-- The field that an event appends to the given record. -/
def appended? (record : String) : Event → Option Schema
  | reserve _ _ => none
  | append name field => if name = record then some field else none

end Event

/-- The names for which a place is asked, in order. -/
def names (events : List Event) : List String :=
  (events.filterMap Event.reserved?).map Prod.fst

/-- The fields appended to a record, in order. -/
def fieldsOf (record : String) (events : List Event) : List Schema :=
  events.filterMap (Event.appended? record)

def drafts (events : List Event) : Keyed String (List Schema) :=
  Keyed.tabulate (names events).eraseDups fun record => fieldsOf record events

/-- The record of a draft. -/
def spelled (naming : Naming) (spell : TypeSpelling) (draft : String × List Schema) : RecordDecl :=
  ⟨draft.1, draft.2.map (declare naming spell draft.1)⟩

theorem mem_names {events : List Event} {record : String} :
    record ∈ names events ↔ ∃ object, .reserve record object ∈ events := by
  simp only [names, List.mem_map, List.mem_filterMap]
  constructor
  · rintro ⟨⟨_, object⟩, ⟨event, he, hr⟩, rfl⟩
    cases event with
    | reserve record object' =>
        obtain ⟨rfl, rfl⟩ := Prod.mk.inj (Option.some.inj hr)
        exact ⟨object', he⟩
    | append _ _ => cases hr
  · rintro ⟨object, he⟩
    exact ⟨(record, object), ⟨_, he, rfl⟩, rfl⟩

theorem mem_fieldsOf {events : List Event} {record : String} {field : Schema} :
    field ∈ fieldsOf record events ↔ .append record field ∈ events := by
  simp only [fieldsOf, List.mem_filterMap]
  constructor
  · rintro ⟨event, he, ha⟩
    cases event with
    | reserve _ _ => cases ha
    | append name field' =>
        rw [Event.appended?] at ha
        split at ha
        · next hname =>
          obtain rfl := Option.some.inj ha
          rwa [← hname]
        · cases ha
  · intro he
    exact ⟨_, he, if_pos rfl⟩

@[simp] theorem names_append (events more : List Event) :
    names (events ++ more) = names events ++ names more := by
  simp [names]

@[simp] theorem names_reserve (record : String) (object : Schema) :
    names [.reserve record object] = [record] := rfl

@[simp] theorem names_append_singleton (record : String) (field : Schema) :
    names [.append record field] = [] := rfl

@[simp] theorem fieldsOf_append (record : String) (events more : List Event) :
    fieldsOf record (events ++ more) = fieldsOf record events ++ fieldsOf record more := by
  simp [fieldsOf]

@[simp] theorem fieldsOf_reserve (record name : String) (object : Schema) :
    fieldsOf record [.reserve name object] = [] := rfl

theorem fieldsOf_append_singleton (record name : String) (field : Schema) :
    fieldsOf record [.append name field] = if name = record then [field] else [] := by
  by_cases h : name = record <;> simp [fieldsOf, Event.appended?, h]

theorem keys_drafts (events : List Event) : Keyed.keys (drafts events) = (names events).eraseDups :=
  Keyed.keys_tabulate _ _

/-- What a draft holds was appended to its record. -/
theorem mem_drafts {events : List Event} {draft : String × List Schema}
    (h : draft ∈ drafts events) : draft.2 = fieldsOf draft.1 events :=
  (Keyed.mem_tabulate.mp h).2

section Table

variable (naming : Naming) (spell : TypeSpelling)

theorem reserve_map_spelled (records : List String) (fields : String → List Schema)
    (record : String) :
    Table.reserve ((Keyed.tabulate records fields).map (spelled naming spell)) record =
      if record ∈ records then (Keyed.tabulate records fields).map (spelled naming spell)
      else (Keyed.tabulate records fields).map (spelled naming spell) ++ [⟨record, []⟩] := by
  have hany : (((Keyed.tabulate records fields).map (spelled naming spell)).any
      fun r => decide (r.name = record)) = decide (record ∈ records) := by
    simp [Keyed.tabulate, spelled, Function.comp_def, List.any_eq]
  simp only [Table.reserve, hany, decide_eq_true_eq]

/-- Appending to a record that has its place changes its draft and no other. -/
theorem append_map_spelled {records : List String} (hn : records.Nodup) {record : String}
    (hr : record ∈ records) (fields : String → List Schema) (field : Schema) :
    Table.append record (declare naming spell record field)
        ((Keyed.tabulate records fields).map (spelled naming spell)) =
      (Keyed.tabulate records (Function.update fields record (fields record ++ [field]))).map
        (spelled naming spell) := by
  induction records with
  | nil => simp at hr
  | cons first rest ih =>
      obtain ⟨hfirst, hrest⟩ := List.nodup_cons.mp hn
      rw [Keyed.tabulate_cons, Keyed.tabulate_cons, List.map_cons, List.map_cons, Table.append]
      by_cases he : first = record
      · subst he
        have hsame : Keyed.tabulate rest (Function.update fields first (fields first ++ [field])) =
            Keyed.tabulate rest fields := by
          apply Keyed.tabulate_congr
          intro name hname
          have hne : name ≠ first := by
            rintro rfl
            exact hfirst hname
          exact Function.update_of_ne hne _ _
        simp [spelled, hsame]
      · have hmem : record ∈ rest := (List.mem_cons.mp hr).resolve_left fun h => he h.symm
        rw [if_neg (by simpa [spelled] using he), ih hrest hmem, Function.update_of_ne he]

end Table

/-- A record has no fields before it has its place. -/
theorem Trace.fieldsOf_eq_nil {naming : Naming} {name : String} {root : Schema}
    {events : List Event} (h : Trace naming name root events) {record : String}
    (hr : record ∉ names events) : fieldsOf record events = [] := by
  rw [List.eq_nil_iff_forall_not_mem]
  intro field hf
  obtain ⟨object, ho, _⟩ := h.exists_object (mem_fieldsOf.mp hf)
  exact hr (mem_names.mpr ⟨object, ho⟩)

theorem exists_object_of_mem_fieldsOf {naming : Naming} {name record : String} {s field : Schema}
    (h : field ∈ fieldsOf record (walk naming name s)) :
    s.isObject ∧ ∃ object, .reserve record object ∈ walk naming name s ∧
      field ∈ object.sortedFields := by
  have ha := mem_fieldsOf.mp h
  by_cases hs : s.isObject
  · exact ⟨hs, (trace_walk hs naming name).exists_object ha⟩
  · simp [walk_of_not hs] at ha

/-- Replaying a trace gives its drafts with every field spelled. -/
theorem Trace.foldl_apply {naming : Naming} {name : String} {root : Schema} {events : List Event}
    (h : Trace naming name root events) (spell : TypeSpelling) :
    events.foldl (Event.apply naming spell) [] = (drafts events).map (spelled naming spell) := by
  induction h with
  | start => simp [Event.apply, Table.reserve, drafts, Keyed.tabulate, spelled, List.eraseDups_cons]
  | @reserve events record object field below h _ _ _ ih =>
      have hfields (other : String) : fieldsOf other (events ++ [.reserve
          (naming.nested record field.name) below]) = fieldsOf other events := by simp
      rw [List.foldl_append, ih, List.foldl_cons, List.foldl_nil, Event.apply, drafts,
        reserve_map_spelled, drafts]
      simp only [hfields, names_append, names_reserve, eraseDups_append_singleton,
        List.mem_eraseDups]
      split
      · rfl
      · next hnew => simp [Keyed.tabulate, spelled, h.fieldsOf_eq_nil hnew]
  | @append events record object field h hr _ ih =>
      have hmem : record ∈ (names events).eraseDups := by
        rw [List.mem_eraseDups, mem_names]
        exact ⟨object, hr⟩
      rw [List.foldl_append, ih, List.foldl_cons, List.foldl_nil, Event.apply, drafts,
        append_map_spelled naming spell (nodup_eraseDups _) hmem, drafts, names_append,
        names_append_singleton, List.append_nil]
      congr 1
      apply Keyed.tabulate_congr
      intro other _
      rw [fieldsOf_append, fieldsOf_append_singleton]
      by_cases he : record = other
      · subst he
        simp
      · simp [he, Function.update_of_ne (Ne.symm he)]

end Generate

namespace Schema

open Generate Observed

/-- The records of a schema before they are spelled. -/
def drafts (s : Schema) (naming : Naming) : Keyed String (List Schema) :=
  Generate.drafts (walk naming naming.rootName s)

/-- The records of a schema are its drafts with every field spelled. -/
theorem records_eq_map_drafts (s : Schema) (naming : Naming) (spell : TypeSpelling) :
    s.records naming spell = (s.drafts naming).map (spelled naming spell) := by
  rw [records, emit_sorted, drafts]
  by_cases h : s.isObject
  · exact (trace_walk h naming naming.rootName).foldl_apply spell
  · rw [walk_of_not h]
    rfl

theorem names_records (s : Schema) (naming : Naming) (spell : TypeSpelling) :
    (s.records naming spell).map RecordDecl.name =
      (names (walk naming naming.rootName s)).eraseDups := by
  rw [records_eq_map_drafts, List.map_map, ← keys_drafts]
  rfl

theorem nodup_names_records (s : Schema) (naming : Naming) (spell : TypeSpelling) :
    ((s.records naming spell).map RecordDecl.name).Nodup := by
  rw [names_records]
  exact Observed.nodup_eraseDups _

theorem fields_of_mem_records {s : Schema} {naming : Naming} {spell : TypeSpelling}
    {r : RecordDecl} (h : r ∈ s.records naming spell) :
    r.fields = (fieldsOf r.name (walk naming naming.rootName s)).map
      (declare naming spell r.name) := by
  rw [records_eq_map_drafts] at h
  obtain ⟨draft, hd, rfl⟩ := List.mem_map.mp h
  rw [spelled, mem_drafts hd]

end Schema

end JsonRecords
