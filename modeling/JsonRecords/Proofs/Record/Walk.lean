import JsonRecords.Record.Generate
import JsonRecords.Proofs.Schema.Nested
import Mathlib.Data.List.Basic

/-!
# Generation as a sequence of events

Two things happen while records are made of a schema: a record takes its place
for an object, and a field is appended to a record. `walk` lists these events
for an object and all objects below it, without any spelling; generation
replays them into a table (`emit_sorted`). `Trace` says how events follow one
another: a record takes its place because a field of an earlier one leads to its
object, and fields go to records that have their place. Facts about the outcome
are proved by induction on traces, one event at a time.
-/

namespace JsonRecords

namespace Generate

open Schema

/-- A record takes its place for an object, or a field of an object is appended
to the record of that object. -/
inductive Event where
  | reserve (record : String) (object : Schema)
  | append (record : String) (field : Schema)

namespace Event

/-- What an event does to the table. -/
def apply (naming : Naming) (spell : TypeSpelling) (table : Table) : Event → Table
  | reserve record _ => table.reserve record
  | append record field => table.append record (declare naming spell record field)

end Event

/-- The events for an object that gets the record `name`: its place, and then for
each field by name the events for the object that the field leads to and the
field itself. -/
def walk (naming : Naming) (name : String) (s : Schema) : List Event :=
  if s.isObject then
    .reserve name s :: s.sortedFields.attach.flatMap fun ⟨field, _⟩ =>
      (match _h : field.nested? with
        | none => []
        | some object => walk naming (naming.nested name field.name) object) ++
      [.append name field]
  else []
termination_by sizeOf s
decreasing_by
  have hlt := sizeOf_lt_of_mem_sortedFields ‹field ∈ s.sortedFields›
  have hle := sizeOf_le_of_nested? ‹field.nested? = some object›
  omega

/-- The events for the object that a field of the record `name` leads to. -/
def walkBelow (naming : Naming) (name : String) (field : Schema) : List Event :=
  field.nested?.elim [] (walk naming (naming.nested name field.name))

theorem walk_object {s : Schema} (h : s.isObject) (naming : Naming) (name : String) :
    walk naming name s = .reserve name s :: s.sortedFields.flatMap fun field =>
      walkBelow naming name field ++ [.append name field] := by
  have hbelow (field : Schema) :
      (match _h : field.nested? with
        | none => []
        | some object => walk naming (naming.nested name field.name) object) =
      walkBelow naming name field := by
    rw [walkBelow]
    split
    · next ho => rw [ho, Option.elim_none]
    · next ho => rw [ho, Option.elim_some]
  rw [walk, if_pos h]
  simp only [hbelow, List.flatMap_subtype, List.unattach_attach]

theorem walk_of_not {s : Schema} (h : ¬ s.isObject) (naming : Naming) (name : String) :
    walk naming name s = [] := by
  rw [walk, if_neg h]

theorem walkBelow_none {field : Schema} (h : field.nested? = none) (naming : Naming)
    (name : String) : walkBelow naming name field = [] := by
  rw [walkBelow, h, Option.elim_none]

theorem walkBelow_some {field object : Schema} (h : field.nested? = some object)
    (naming : Naming) (name : String) :
    walkBelow naming name field = walk naming (naming.nested name field.name) object := by
  rw [walkBelow, h, Option.elim_some]

/-- The hint that the shape of a field dictates: the record of the object that it
leads to, else the kind of its elements, if it has any. -/
def dictated (naming : Naming) (parent : String) (field : Schema) : Hint :=
  if field.nested?.isSome then .record (naming.nested parent field.name)
  else (field.elementKind?.map Hint.element).getD .none

theorem hint_eq_dictated (naming : Naming) (parent : String) (field : Schema) :
    hint naming parent field = dictated naming parent field := by
  obtain ⟨name, kind, children⟩ := field
  cases kind with
  | array =>
      cases he : element? ⟨name, .array, children⟩ with
      | none => simp [hint, dictated, nested?, elementKind?, isObject, he]
      | some element =>
          by_cases ho : element.isObject <;>
            simp_all [hint, dictated, nested?, elementKind?, Option.filter, isObject]
  | _ => simp [hint, dictated, nested?, elementKind?, element?, isObject, isArray]

theorem declare_sorted (naming : Naming) (spell : TypeSpelling) (parent : String)
    (field : Schema) :
    declare naming spell parent field.sorted = declare naming spell parent field := by
  simp only [declare, hint_eq_dictated, dictated, name_sorted, kind_sorted, nested?_sorted,
    elementKind?_sorted, Option.isSome_map]

/-- Where a field leads to an object, its hint is the record of that object. -/
theorem hint_of_nested? {field object : Schema} (h : field.nested? = some object)
    (naming : Naming) (parent : String) :
    hint naming parent field = .record (naming.nested parent field.name) := by
  rw [hint_eq_dictated, dictated, h, Option.isSome_some, if_pos rfl]

/-- Only a field that leads to an object has a record for its hint. -/
theorem exists_nested?_of_hint {naming : Naming} {parent record : String} {field : Schema}
    (h : hint naming parent field = .record record) :
    (∃ object, field.nested? = some object) ∧ record = naming.nested parent field.name := by
  rw [hint_eq_dictated, dictated] at h
  split at h
  · next ho => exact ⟨Option.isSome_iff_exists.mp ho, (Hint.record.inj h).symm⟩
  · cases he : field.elementKind? <;> simp [he] at h

theorem emit_of_not {s : Schema} (h : ¬ s.isObject) (naming : Naming) (spell : TypeSpelling)
    (name : String) (table : Table) : emit naming spell name table s = table := by
  obtain ⟨_, kind, children⟩ := s
  have hk : kind ≠ .object := fun hk => h (isObject_iff.mpr hk)
  rw [emit, if_neg hk]

theorem emit_object {s : Schema} (h : s.isObject) (naming : Naming) (spell : TypeSpelling)
    (name : String) (table : Table) :
    emit naming spell name table s =
      emitFields naming spell name (table.reserve name) s.children := by
  obtain ⟨_, kind, children⟩ := s
  rw [emit, if_pos (isObject_iff.mp h)]

theorem emitFields_eq_foldl (naming : Naming) (spell : TypeSpelling) (name : String)
    (table : Table) (children : List (String × Schema)) :
    emitFields naming spell name table children =
      (Keyed.values children).foldl (fun table field =>
        (emitBelow naming spell name table field).append name
          (declare naming spell name field)) table := by
  induction children generalizing table with
  | nil => rw [emitFields, Keyed.values, List.map_nil, List.foldl_nil]
  | cons child rest ih =>
      obtain ⟨key, field⟩ := child
      rw [emitFields, ih, Keyed.values, Keyed.values, List.map_cons, List.foldl_cons]

theorem emitElement_eq (naming : Naming) (spell : TypeSpelling) (name : String) (table : Table)
    (children : List (String × Schema)) :
    emitElement naming spell name table children =
      (Keyed.get? elementKey children).elim table (emit naming spell name table) := by
  induction children with
  | nil => rw [emitElement, Keyed.get?_nil, Option.elim_none]
  | cons child rest ih =>
      obtain ⟨key, element⟩ := child
      rw [emitElement, Keyed.get?_cons]
      split
      · rw [Option.elim_some]
      · exact ih

/-- Below a field nothing is added but the records of the object that it leads
to. -/
theorem emitBelow_eq (naming : Naming) (spell : TypeSpelling) (name : String) (table : Table)
    (field : Schema) :
    emitBelow naming spell name table field =
      field.nested?.elim table (emit naming spell (naming.nested name field.name) table) := by
  obtain ⟨fieldName, kind, children⟩ := field
  cases kind with
  | object =>
      rw [nested?_of_isObject rfl, Option.elim_some, emit_object rfl, emitBelow]
  | array =>
      rw [emitBelow, emitElement_eq]
      simp only [nested?, element?, isObject, isArray, child]
      cases Keyed.get? elementKey children with
      | none => simp
      | some element =>
          by_cases ho : element.isObject
          · simp_all [Option.filter, isObject]
          · rw [Option.elim_some, emit_of_not ho]
            simp_all [Option.filter, isObject]
  | _ => simp [emitBelow, nested?, element?, isObject, isArray]

/-- Generation replays the events of the walk. -/
theorem emit_sorted (naming : Naming) (spell : TypeSpelling) (name : String) (table : Table)
    (s : Schema) :
    emit naming spell name table s.sorted =
      (walk naming name s).foldl (Event.apply naming spell) table := by
  induction s using nested_induction generalizing name table with
  | step s ih =>
      by_cases h : s.isObject
      · have hs : s.sorted.isObject := by rwa [isObject_sorted]
        rw [emit_object hs, emitFields_eq_foldl, values_children_sorted h, walk_object h,
          List.foldl_map, List.foldl_cons, List.foldl_flatMap]
        -- the same fields in the same order, one by one
        apply List.foldl_ext
        intro table field hf
        rw [emitBelow_eq, nested?_sorted, declare_sorted, name_sorted, List.foldl_append]
        cases ho : field.nested? with
        | none =>
            rw [walkBelow_none ho]
            rfl
        | some object =>
            rw [walkBelow_some ho, ← ih field hf object ho]
            rfl
      · have hs : ¬ s.sorted.isObject := by rwa [isObject_sorted]
        rw [emit_of_not hs, walk_of_not h, List.foldl_nil]

/-- Events as they follow one another from the record of one object on. -/
inductive Trace (naming : Naming) (name : String) (root : Schema) : List Event → Prop where
  | start : Trace naming name root [.reserve name root]
  | reserve {events : List Event} {record : String} {object field below : Schema}
      (h : Trace naming name root events) (hr : .reserve record object ∈ events)
      (hf : field ∈ object.sortedFields) (hb : field.nested? = some below) :
      Trace naming name root (events ++ [.reserve (naming.nested record field.name) below])
  | append {events : List Event} {record : String} {object field : Schema}
      (h : Trace naming name root events) (hr : .reserve record object ∈ events)
      (hf : field ∈ object.sortedFields) :
      Trace naming name root (events ++ [.append record field])

/-- The fields of an object that has its place are walked in turn. -/
theorem Trace.flatMap {naming : Naming} {name record : String} {root object : Schema}
    (hbelow : ∀ field ∈ object.sortedFields, ∀ below, field.nested? = some below →
      ∀ events, Trace naming name root
        (events ++ [.reserve (naming.nested record field.name) below]) →
        Trace naming name root (events ++ walk naming (naming.nested record field.name) below))
    {fields : List Schema} (hsub : fields ⊆ object.sortedFields) {events : List Event}
    (h : Trace naming name root events) (hr : .reserve record object ∈ events) :
    Trace naming name root (events ++ fields.flatMap fun field =>
      walkBelow naming record field ++ [.append record field]) := by
  induction fields generalizing events with
  | nil => simpa using h
  | cons field rest ih =>
      obtain ⟨hf, hrest⟩ := List.cons_subset.mp hsub
      have hwalk : Trace naming name root (events ++ walkBelow naming record field) := by
        cases ho : field.nested? with
        | none => rwa [walkBelow_none ho, List.append_nil]
        | some below =>
            rw [walkBelow_some ho]
            exact hbelow field hf below ho events (h.reserve hr hf ho)
      have happend := hwalk.append (List.mem_append_left _ hr) hf
      have hmore := ih hrest happend (by simp [hr])
      simpa using hmore

/-- Where an object may take its place, its whole walk may go on. -/
theorem Trace.append_walk {naming : Naming} {name record : String} {root s : Schema}
    {events : List Event} (hs : s.isObject)
    (h : Trace naming name root (events ++ [.reserve record s])) :
    Trace naming name root (events ++ walk naming record s) := by
  induction s using nested_induction generalizing record events with
  | step s ih =>
      have hr : Event.reserve record s ∈ events ++ [.reserve record s] := by simp
      have hwalk := Trace.flatMap
        (fun field hf below hb _ h => ih field hf below hb (isObject_of_nested? hb) h)
        (List.Subset.refl s.sortedFields) h hr
      rw [walk_object hs]
      simpa using hwalk

theorem trace_walk {s : Schema} (h : s.isObject) (naming : Naming) (name : String) :
    Trace naming name s (walk naming name s) := by
  have hstart : Trace naming name s ([] ++ [.reserve name s]) := .start
  exact hstart.append_walk h

/-- Fields go to the record of an object that they are fields of. -/
theorem Trace.exists_object {naming : Naming} {name : String} {root : Schema}
    {events : List Event} (h : Trace naming name root events) {record : String} {field : Schema}
    (ha : .append record field ∈ events) :
    ∃ object, .reserve record object ∈ events ∧ field ∈ object.sortedFields := by
  induction h with
  | start => simp at ha
  | reserve _ _ _ _ ih =>
      obtain ⟨object, hr, hf⟩ := ih (by simpa using ha)
      exact ⟨object, List.mem_append_left _ hr, hf⟩
  | @append events record' object field' _ hr hf ih =>
      rcases List.mem_append.mp ha with ha | ha
      · obtain ⟨object, hr, hf⟩ := ih ha
        exact ⟨object, List.mem_append_left _ hr, hf⟩
      · obtain ⟨rfl, rfl⟩ := Event.append.inj (List.mem_singleton.mp ha)
        exact ⟨object, List.mem_append_left _ hr, hf⟩

/-- Of an object that has its place every field is walked. -/
theorem walkBelow_append_subset {naming : Naming} {name record : String} {s object : Schema}
    (hr : .reserve record object ∈ walk naming name s) {field : Schema}
    (hf : field ∈ object.sortedFields) :
    walkBelow naming record field ++ [.append record field] ⊆ walk naming name s := by
  induction s using nested_induction generalizing name with
  | step s ih =>
      by_cases hs : s.isObject
      · rw [walk_object hs] at hr ⊢
        rcases List.mem_cons.mp hr with heq | hr
        · obtain ⟨rfl, rfl⟩ := Event.reserve.inj heq
          exact fun event he =>
            List.mem_cons_of_mem _ (List.mem_flatMap.mpr ⟨field, hf, he⟩)
        · obtain ⟨other, hother, hr⟩ := List.mem_flatMap.mp hr
          have hbelow : .reserve record object ∈ walkBelow naming name other := by
            simpa using hr
          cases ho : other.nested? with
          | none => simp [walkBelow_none ho] at hbelow
          | some below =>
              rw [walkBelow_some ho] at hbelow
              have hsub := ih other hother below ho hbelow
              intro event he
              refine List.mem_cons_of_mem _ (List.mem_flatMap.mpr ⟨other, hother, ?_⟩)
              rw [walkBelow_some ho]
              exact List.mem_append_left _ (hsub he)
      · simp [walk_of_not hs] at hr

end Generate

end JsonRecords
