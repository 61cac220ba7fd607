import JsonRecords.Proofs.Record.Separator
import JsonRecords.Proofs.Record.Visits
import JsonRecords.Proofs.Schema.Reachable
import JsonRecords.Target

/-!
# One record for each object

Two objects of a schema may come to one record name, and then share a record.
With a separator that has no border and occurs in no name of a field that leads
to an object this never happens: the record names of different positions are
different, so there is one record for each position of an object, with the
fields of that object and no others (`existsUnique_record_position`).
-/

namespace JsonRecords

namespace Schema

namespace Path

/-- The keys of the fields that a path goes through. -/
def fieldKeys (path : Path) : List String :=
  path.filterMap fun
    | .field key => some key
    | .element => none

@[simp] theorem fieldKeys_nil : fieldKeys [] = [] := rfl

@[simp] theorem fieldKeys_append_field (path : Path) (key : String) :
    fieldKeys (path ++ [.field key]) = fieldKeys path ++ [key] := by
  simp [fieldKeys]

@[simp] theorem fieldKeys_append_element (path : Path) :
    fieldKeys (path ++ [.element]) = fieldKeys path := by
  simp [fieldKeys]

end Path

/-- The objects of a schema that are reached through fields of objects and
elements of arrays, with the paths to them. -/
inductive ObjectAt (root : Schema) : Path → Schema → Prop where
  | root (h : root.isObject) : ObjectAt root [] root
  | field {path : Path} {key : String} {object field : Schema} (h : ObjectAt root path object)
      (hc : object.child key = some field) (hf : field.isObject) :
      ObjectAt root (path ++ [.field key]) field
  | element {path : Path} {key : String} {object field element : Schema}
      (h : ObjectAt root path object) (hc : object.child key = some field)
      (he : field.element? = some element) (ho : element.isObject) :
      ObjectAt root (path ++ [.field key] ++ [.element]) element

theorem ObjectAt.isObject {root object : Schema} {path : Path} (h : ObjectAt root path object) :
    object.isObject := by
  cases h with
  | root h => exact h
  | field _ _ hf => exact hf
  | element _ _ _ ho => exact ho

theorem not_isObject_of_element? {field element : Schema} (h : field.element? = some element) :
    ¬ field.isObject := by
  intro ho
  have hk := isObject_iff.mp ho
  simp [element?, isArray, hk] at h

theorem nested?_of_element? {field element : Schema} (h : field.element? = some element)
    (ho : element.isObject) : field.nested? = some element := by
  rw [nested?, if_neg (not_isObject_of_element? h), h]
  simp [Option.filter, ho]

/-- The last step to an object other than the root is through a field. -/
theorem ObjectAt.cases_append {root object : Schema} {path : Path} {keys : List String}
    {key : String} (h : ObjectAt root path object) (hkeys : path.fieldKeys = keys ++ [key]) :
    ∃ before above field, ObjectAt root before above ∧ before.fieldKeys = keys ∧
      above.child key = some field ∧ field.nested? = some object ∧
      path = if field.isObject then before ++ [.field key]
        else before ++ [.field key] ++ [.element] := by
  cases h with
  | root => simp at hkeys
  | @field before key' above field h hc hf =>
      rw [Path.fieldKeys_append_field] at hkeys
      obtain ⟨hbefore, hkey⟩ := List.append_inj' hkeys rfl
      obtain rfl := List.singleton_inj.mp hkey
      exact ⟨before, above, object, h, hbefore, hc, nested?_of_isObject hf, (if_pos hf).symm⟩
  | @element before key' above field element h hc he ho =>
      rw [Path.fieldKeys_append_element, Path.fieldKeys_append_field] at hkeys
      obtain ⟨hbefore, hkey⟩ := List.append_inj' hkeys rfl
      obtain rfl := List.singleton_inj.mp hkey
      exact ⟨before, above, field, h, hbefore, hc, nested?_of_element? he ho,
        (if_neg (not_isObject_of_element? he)).symm⟩

/-- The keys on the way tell the position and the object. -/
theorem ObjectAt.eq_of_fieldKeys_eq {root object object' : Schema} {path path' : Path}
    (h : ObjectAt root path object) (h' : ObjectAt root path' object')
    (hkeys : path.fieldKeys = path'.fieldKeys) : path = path' ∧ object = object' := by
  generalize hk : path.fieldKeys = keys at hkeys
  induction keys using List.reverseRecOn generalizing path path' object object' with
  | nil =>
      cases h with
      | root =>
          cases h' with
          | root => exact ⟨rfl, rfl⟩
          | field => simp at hkeys
          | element => simp [Path.fieldKeys] at hkeys
      | field => simp at hk
      | element => simp [Path.fieldKeys] at hk
  | append_singleton keys key ih =>
      obtain ⟨before, above, field, hbefore, hks, hc, hn, rfl⟩ := h.cases_append hk
      obtain ⟨before', above', field', hbefore', hks', hc', hn', rfl⟩ :=
        h'.cases_append hkeys.symm
      obtain ⟨rfl, rfl⟩ := ih hbefore hbefore' hks hks'.symm
      obtain rfl := Option.some.inj (hc.symm.trans hc')
      exact ⟨rfl, Option.some.inj (hn.symm.trans hn')⟩

end Schema

namespace Generate

open Schema

/-- The name of the record for the object at the end of a path. -/
def recordName (naming : Naming) (path : Path) : String :=
  path.foldl (fun name step => match step with
    | .field key => naming.nested name key
    | .element => name) naming.rootName

@[simp] theorem recordName_nil (naming : Naming) : recordName naming [] = naming.rootName := rfl

@[simp] theorem recordName_append_field (naming : Naming) (path : Path) (key : String) :
    recordName naming (path ++ [.field key]) = naming.nested (recordName naming path) key := by
  simp [recordName]

@[simp] theorem recordName_append_element (naming : Naming) (path : Path) :
    recordName naming (path ++ [.element]) = recordName naming path := by
  simp [recordName]

end Generate

namespace Naming

theorem toList_nested_append_chained (naming : Naming) (parent field : String)
    (names : List (List Char)) :
    (naming.nested parent field).toList ++ chained naming.separator.toList names =
      parent.toList ++ chained naming.separator.toList (field.toList :: names) := by
  simp [nested, chained_cons]

end Naming

namespace Generate

open Schema Naming

theorem mem_visits_iff {naming : Naming} {name record : String} {s object : Schema} :
    (record, object) ∈ visits naming name s ↔ .reserve record object ∈ walk naming name s := by
  rw [← filterMap_reserved?_walk, List.mem_filterMap]
  constructor
  · rintro ⟨event, he, hr⟩
    cases event with
    | reserve record' object' =>
        obtain ⟨rfl, rfl⟩ := Prod.mk.inj (Option.some.inj hr)
        exact he
    | append _ _ => cases hr
  · intro he
    exact ⟨_, he, rfl⟩

/-- What a field of a visited object leads to is visited. -/
theorem nested_mem_visits {naming : Naming} {name record : String} {s object field below : Schema}
    (h : (record, object) ∈ visits naming name s) (hf : field ∈ object.sortedFields)
    (hb : field.nested? = some below) :
    (naming.nested record field.name, below) ∈ visits naming name s := by
  have hsub := walkBelow_append_subset (mem_visits_iff.mp h) hf
  refine mem_visits_iff.mpr (hsub (List.mem_append_left _ ?_))
  rw [walkBelow_some hb, walk_object (isObject_of_nested? hb)]
  exact List.mem_cons_self

theorem visitsBelow_subset {s field : Schema} (h : s.isObject) (hf : field ∈ s.sortedFields)
    (naming : Naming) (name : String) : visitsBelow naming name field ⊆ visits naming name s := by
  rw [visits_object h]
  intro visit hv
  exact List.mem_cons_of_mem _ (List.mem_flatMap.mpr ⟨field, hf, hv⟩)

/-- The fields of each visit have distinct names, and those that lead to an object
have names without the separator. -/
def Apart (separator : List Char) (visits : List (String × Schema)) : Prop :=
  ∀ visit ∈ visits, (visit.2.sortedFields.map Schema.name).Nodup ∧
    ∀ field ∈ visit.2.sortedFields, field.nested?.isSome → ¬ separator <:+: field.name.toList

section Apart

variable {naming : Naming}

/-- Below the object with the record `name` all names are chains on `name`. -/
theorem exists_chained_of_mem_visits {name : String} {s : Schema}
    (h : Apart naming.separator.toList (visits naming name s)) {visit : String × Schema}
    (hv : visit ∈ visits naming name s) :
    ∃ names, (∀ n ∈ names, ¬ naming.separator.toList <:+: n) ∧
      visit.1.toList = name.toList ++ chained naming.separator.toList names := by
  induction s using nested_induction generalizing name with
  | step s ih =>
      by_cases hs : s.isObject
      · have hroot := h (name, s) (by rw [visits_object hs]; exact List.mem_cons_self)
        rw [visits_object hs] at hv
        rcases List.mem_cons.mp hv with rfl | hv
        · exact ⟨[], by simp, by simp⟩
        · obtain ⟨field, hf, hv⟩ := List.mem_flatMap.mp hv
          have hsub := visitsBelow_subset hs hf naming name
          cases ho : field.nested? with
          | none => simp [visitsBelow, ho] at hv
          | some object =>
              have hfree := hroot.2 field hf (by simp [ho])
              simp only [visitsBelow, ho, Option.elim_some] at hv hsub
              obtain ⟨names, hnames, heq⟩ :=
                ih field hf object ho (fun visit hv => h visit (hsub hv)) hv
              rw [toList_nested_append_chained] at heq
              exact ⟨field.name.toList :: names, List.forall_mem_cons.mpr ⟨hfree, hnames⟩, heq⟩
      · simp [visits_of_not hs] at hv

theorem exists_chained_of_mem_visitsBelow {name : String} {s field : Schema} (hs : s.isObject)
    (h : Apart naming.separator.toList (visits naming name s)) (hf : field ∈ s.sortedFields)
    {visit : String × Schema} (hv : visit ∈ visitsBelow naming name field) :
    ∃ names, (∀ n ∈ field.name.toList :: names, ¬ naming.separator.toList <:+: n) ∧
      visit.1.toList =
        name.toList ++ chained naming.separator.toList (field.name.toList :: names) := by
  have hroot := h (name, s) (by rw [visits_object hs]; exact List.mem_cons_self)
  have hsub := visitsBelow_subset hs hf naming name
  cases ho : field.nested? with
  | none => simp [visitsBelow, ho] at hv
  | some object =>
      have hfree := hroot.2 field hf (by simp [ho])
      simp only [visitsBelow, ho, Option.elim_some] at hv hsub
      obtain ⟨names, hnames, heq⟩ :=
        exists_chained_of_mem_visits (fun visit hv => h visit (hsub hv)) hv
      rw [toList_nested_append_chained] at heq
      exact ⟨names, List.forall_mem_cons.mpr ⟨hfree, hnames⟩, heq⟩

/-- With a separator that can be told from the names no two visits share a name. -/
theorem nodup_names_visits (hb : Unbordered naming.separator.toList)
    (hne : naming.separator.toList ≠ []) {name : String} {s : Schema}
    (h : Apart naming.separator.toList (visits naming name s)) :
    ((visits naming name s).map Prod.fst).Nodup := by
  induction s using nested_induction generalizing name with
  | step s ih =>
      by_cases hs : s.isObject
      · have hroot := h (name, s) (by rw [visits_object hs]; exact List.mem_cons_self)
        have hchain {field : Schema} (hf : field ∈ s.sortedFields) {record : String}
            (hr : record ∈ (visitsBelow naming name field).map Prod.fst) :
            ∃ names, (∀ n ∈ field.name.toList :: names, ¬ naming.separator.toList <:+: n) ∧
              record.toList =
                name.toList ++ chained naming.separator.toList (field.name.toList :: names) := by
          obtain ⟨visit, hv, rfl⟩ := List.mem_map.mp hr
          exact exists_chained_of_mem_visitsBelow hs h hf hv
        rw [visits_object hs, List.map_cons, List.map_flatMap, List.nodup_cons, List.nodup_flatMap]
        refine ⟨?_, ?_, ?_⟩
        · -- a chain that has a link is longer than what it hangs on
          intro hmem
          obtain ⟨field, hf, hr⟩ := List.mem_flatMap.mp hmem
          obtain ⟨names, _, heq⟩ := hchain hf hr
          have hlength := congrArg List.length heq
          simp only [chained_cons, List.length_append] at hlength
          exact hne (List.eq_nil_of_length_eq_zero (by omega))
        · intro field hf
          have hsub := visitsBelow_subset hs hf naming name
          cases ho : field.nested? with
          | none => simp [visitsBelow, ho]
          | some object =>
              simp only [visitsBelow, ho, Option.elim_some] at hsub ⊢
              exact ih field hf object ho fun visit hv => h visit (hsub hv)
        · -- chains that begin with different names are different
          have hnames : s.sortedFields.Pairwise fun f g => f.name ≠ g.name :=
            List.pairwise_map.mp hroot.1
          refine hnames.imp_of_mem ?_
          intro f g hf hg hfg record hrf hrg
          obtain ⟨fs, hfs, heq⟩ := hchain hf hrf
          obtain ⟨gs, hgs, heq'⟩ := hchain hg hrg
          have hcons := chained_injective hb hne hfs hgs
            (List.append_cancel_left (heq.symm.trans heq'))
          exact hfg (String.toList_inj.mp (List.cons.inj hcons).1)
      · rw [visits_of_not hs]
        exact List.nodup_nil

end Apart

theorem toList_recordName (naming : Naming) (path : Path) :
    (recordName naming path).toList = naming.rootName.toList ++
      chained naming.separator.toList (path.fieldKeys.map String.toList) := by
  induction path using List.reverseRecOn with
  | nil => simp
  | append_singleton path step ih =>
      cases step with
      | field key =>
          rw [recordName_append_field, Path.fieldKeys_append_field, List.map_append,
            chained_append, ← List.append_assoc, ← ih]
          simp [Naming.nested, chained_cons]
      | element => rw [recordName_append_element, Path.fieldKeys_append_element, ih]

end Generate

namespace Schema

open Generate Naming

theorem ShapedFields.child_eq_some_iff {object field : Schema} {key : String}
    (h : ShapedFields object.children) (ho : object.isObject) :
    object.child key = some field ↔ field ∈ object.sortedFields ∧ field.name = key := by
  obtain ⟨hn, hname, _⟩ := h
  rw [Schema.child, Keyed.get?_eq_some_iff hn, (perm_sortedFields object).mem_iff, fields,
    if_pos ho]
  constructor
  · intro hmem
    exact ⟨List.mem_map.mpr ⟨_, hmem, rfl⟩, hname _ hmem⟩
  · rintro ⟨hf, rfl⟩
    obtain ⟨⟨key, field⟩, hmem, rfl⟩ := List.mem_map.mp hf
    rwa [hname _ hmem]

theorem ShapedFields.nodup_names_sortedFields {object : Schema}
    (h : ShapedFields object.children) : (object.sortedFields.map Schema.name).Nodup := by
  rw [((perm_sortedFields object).map Schema.name).nodup_iff, fields]
  split
  · simpa [Keyed.values, Function.comp_def] using h.nodup_names
  · exact List.nodup_nil

/-- The object at a path is visited under the record name of the path. -/
theorem ObjectAt.mem_visits {root object : Schema} {path : Path} (h : ObjectAt root path object)
    (hroot : ShapedFields root.children) (naming : Naming) :
    ShapedFields object.children ∧
      (recordName naming path, object) ∈ visits naming naming.rootName root := by
  induction h with
  | root h =>
      refine ⟨hroot, ?_⟩
      rw [visits_object h]
      exact List.mem_cons_self
  | @field path key object field h hc hf ih =>
      obtain ⟨hshaped, hv⟩ := ih
      obtain ⟨hmem, rfl⟩ := (hshaped.child_eq_some_iff h.isObject).mp hc
      have hn := nested?_of_isObject hf
      rw [recordName_append_field]
      exact ⟨(hshaped.of_mem_sortedFields hmem).nested? hn, nested_mem_visits hv hmem hn⟩
  | @element path key object field element h hc he ho ih =>
      obtain ⟨hshaped, hv⟩ := ih
      obtain ⟨hmem, rfl⟩ := (hshaped.child_eq_some_iff h.isObject).mp hc
      have hn := nested?_of_element? he ho
      rw [recordName_append_element, recordName_append_field]
      exact ⟨(hshaped.of_mem_sortedFields hmem).nested? hn, nested_mem_visits hv hmem hn⟩

/-- Where a field of an object leads to, there is a path as well. -/
theorem ObjectAt.exists_nested {root object field below : Schema} {path : Path}
    (h : ObjectAt root path object) {key : String} (hc : object.child key = some field)
    (hn : field.nested? = some below) (naming : Naming) :
    ∃ path', ObjectAt root path' below ∧
      recordName naming path' = naming.nested (recordName naming path) key := by
  by_cases hf : field.isObject
  · rw [nested?_of_isObject hf] at hn
    obtain rfl := Option.some.inj hn
    exact ⟨_, h.field hc hf, recordName_append_field naming path key⟩
  · rw [nested?, if_neg hf, Option.filter_eq_some_iff] at hn
    refine ⟨_, h.element hc hn.1 hn.2, ?_⟩
    rw [recordName_append_element, recordName_append_field]

end Schema

namespace Generate

open Schema Naming

/-- Every record takes its place for the object at some path. -/
theorem Trace.exists_objectAt {naming : Naming} {root : Schema} {events : List Event}
    (h : Trace naming naming.rootName root events) (hroot : ShapedFields root.children)
    (ho : root.isObject) {record : String} {object : Schema}
    (hr : .reserve record object ∈ events) :
    ∃ path, ObjectAt root path object ∧ recordName naming path = record := by
  induction h generalizing record object with
  | start =>
      obtain ⟨rfl, rfl⟩ := Event.reserve.inj (List.mem_singleton.mp hr)
      exact ⟨[], .root ho, rfl⟩
  | @reserve events parent above field below _ hparent hf hb ih =>
      rcases List.mem_append.mp hr with hr | hr
      · exact ih hr
      · obtain ⟨rfl, rfl⟩ := Event.reserve.inj (List.mem_singleton.mp hr)
        obtain ⟨path, hpath, rfl⟩ := ih hparent
        have hshaped := (hpath.mem_visits hroot naming).1
        have hc := (hshaped.child_eq_some_iff hpath.isObject).mpr ⟨hf, rfl⟩
        exact hpath.exists_nested hc hb naming
  | append _ _ _ ih => exact ih (by simpa using hr)

theorem exists_objectAt_of_mem_visits {naming : Naming} {root : Schema}
    (hroot : ShapedFields root.children) (ho : root.isObject) {visit : String × Schema}
    (hv : visit ∈ visits naming naming.rootName root) :
    ∃ path, ObjectAt root path visit.2 ∧ recordName naming path = visit.1 :=
  (trace_walk ho naming naming.rootName).exists_objectAt hroot ho (mem_visits_iff.mp hv)

end Generate

namespace Schema

open Generate Naming

/-- No field of an object at some path that leads to an object has the separator in
its key. -/
def SeparatorFree (separator : String) (root : Schema) : Prop :=
  ∀ path object, ObjectAt root path object → ∀ key field, object.child key = some field →
    field.nested?.isSome → ¬ separator.toList <:+: key.toList

theorem ObjectAt.forall_mem_fieldKeys {root object : Schema} {path : Path} {separator : String}
    (h : ObjectAt root path object) (hfree : SeparatorFree separator root) :
    ∀ name ∈ path.fieldKeys.map String.toList, ¬ separator.toList <:+: name := by
  induction h with
  | root => simp
  | @field path key object field h hc hf ih =>
      have hkey := hfree path object h key field hc (by simp [nested?_of_isObject hf])
      rw [Path.fieldKeys_append_field, List.map_append, List.forall_mem_append]
      exact ⟨ih, by simpa using hkey⟩
  | @element path key object field element h hc he ho ih =>
      have hkey := hfree path object h key field hc (by simp [nested?_of_element? he ho])
      rw [Path.fieldKeys_append_element, Path.fieldKeys_append_field, List.map_append,
        List.forall_mem_append]
      exact ⟨ih, by simpa using hkey⟩

/-- The record names of two positions differ. -/
theorem ObjectAt.eq_of_recordName_eq {root object object' : Schema} {path path' : Path}
    {naming : Naming} (hb : Unbordered naming.separator.toList)
    (hne : naming.separator.toList ≠ []) (hfree : SeparatorFree naming.separator root)
    (h : ObjectAt root path object) (h' : ObjectAt root path' object')
    (hname : recordName naming path = recordName naming path') : path = path' := by
  have hlist := congrArg String.toList hname
  rw [toList_recordName, toList_recordName] at hlist
  have hkeys := chained_injective hb hne (h.forall_mem_fieldKeys hfree)
    (h'.forall_mem_fieldKeys hfree) (List.append_cancel_left hlist)
  have hinj : Function.Injective String.toList := fun _ _ => String.toList_inj.mp
  exact (h.eq_of_fieldKeys_eq h' (hinj.list_map hkeys)).1

theorem SeparatorFree.apart {root : Schema} {naming : Naming}
    (hfree : SeparatorFree naming.separator root) (hroot : ShapedFields root.children)
    (ho : root.isObject) :
    Apart naming.separator.toList (visits naming naming.rootName root) := by
  intro visit hv
  obtain ⟨path, hpath, _⟩ := exists_objectAt_of_mem_visits hroot ho hv
  have hshaped := (hpath.mem_visits hroot naming).1
  refine ⟨hshaped.nodup_names_sortedFields, ?_⟩
  intro field hf hn
  exact hfree path visit.2 hpath field.name field
    ((hshaped.child_eq_some_iff hpath.isObject).mpr ⟨hf, rfl⟩) hn

/-- With a separator that is not empty, has no border and occurs in no key of a
field that leads to an object, the objects of the schema of any samples have
different record names. There is one record for each of them, it has the
declarations of its fields by name, and there is no other record. -/
theorem existsUnique_record_position (samples : List Json) (naming : Naming)
    (hne : naming.separator ≠ "") (hb : Unbordered naming.separator.toList)
    (hfree : SeparatorFree naming.separator (infer samples)) (spell : TypeSpelling) :
    let records := generateRecords samples naming spell
    let recordOf (path : Path) (object : Schema) : RecordDecl :=
      ⟨recordName naming path,
        object.sortedFields.map (declaration naming spell (recordName naming path))⟩
    (∀ path path' object object', ObjectAt (infer samples) path object →
      ObjectAt (infer samples) path' object' → path ≠ path' →
      recordName naming path ≠ recordName naming path') ∧
    (∀ path object, ObjectAt (infer samples) path object →
      (records.filter fun r => r.name = recordName naming path) = [recordOf path object]) ∧
    ∀ r ∈ records, ∃! path, ∃ object, ObjectAt (infer samples) path object ∧
      r = recordOf path object := by
  intro records recordOf
  have hreachable : Inference.Reachable (Inference.start.addAll samples) := .addAll .start samples
  obtain ⟨_, hkind, hshaped⟩ := hreachable.rootShape
  have hroot : ShapedFields (infer samples).children := hshaped.fields hkind
  have ho : (infer samples).isObject := isObject_iff.mpr hkind
  have hne' : naming.separator.toList ≠ [] := by simpa using hne
  have hinj {path path' : Path} {object object' : Schema}
      (h : ObjectAt (infer samples) path object) (h' : ObjectAt (infer samples) path' object')
      (hname : recordName naming path = recordName naming path') : path = path' :=
    h.eq_of_recordName_eq hb hne' hfree h' hname
  have hnodup := nodup_names_visits hb hne' (hfree.apart hroot ho)
  have hrecords : records = (visits naming naming.rootName (infer samples)).map fun visit =>
      ⟨visit.1, visit.2.sortedFields.map (declaration naming spell visit.1)⟩ :=
    records_eq_map_of_nodup hnodup spell
  refine ⟨?_, ?_, ?_⟩
  · intro path path' object object' h h' hpath hname
    exact hpath (hinj h h' hname)
  · intro path object h
    have hv := (h.mem_visits hroot naming).2
    have hone := Keyed.filter_eq_singleton hnodup hv
    rw [hrecords, List.filter_map, Function.comp_def]
    simp only [hone, List.map_cons, List.map_nil, recordOf]
  · intro r hr
    rw [hrecords] at hr
    obtain ⟨visit, hv, rfl⟩ := List.mem_map.mp hr
    obtain ⟨path, hpath, hname⟩ := exists_objectAt_of_mem_visits hroot ho hv
    refine ⟨path, ⟨visit.2, hpath, ?_⟩, ?_⟩
    · simp only [recordOf, hname]
    · rintro path' ⟨object', hpath', heq⟩
      exact hinj hpath' hpath ((RecordDecl.mk.inj heq).1.symm.trans hname.symm)

/-- Samples in which two fields of one name lie below different ones, and in which
the separator occurs in the key of a field that leads to no object. -/
def parted : List Json :=
  [.object [("a", .object [("x", .array [.object [("a_x", .null)]])]),
    ("b", .object [("x", .object [("", .object [])])])]]

theorem existsUnique_record_position_parted :
    let records := generateRecords parted .standard Neutral.typeExpr
    let r : RecordDecl := ⟨"root_a_x", [⟨"a_x", "any"⟩]⟩
    r ∈ records ∧ Naming.standard.separator ≠ "" ∧
      Unbordered Naming.standard.separator.toList ∧
      SeparatorFree Naming.standard.separator (infer parted) ∧
      ∃! path, ∃ object, ObjectAt (infer parted) path object ∧
        r = ⟨recordName .standard path, object.sortedFields.map
          (declaration .standard Neutral.typeExpr (recordName .standard path))⟩ := by
  intro records r
  have hrecords : generateRecords parted .standard Neutral.typeExpr =
      [⟨"root", [⟨"a", "root_a"⟩, ⟨"b", "root_b"⟩]⟩, ⟨"root_a", [⟨"x", "array<root_a_x>"⟩]⟩,
        ⟨"root_a_x", [⟨"a_x", "any"⟩]⟩, ⟨"root_b", [⟨"x", "root_b_x"⟩]⟩,
        ⟨"root_b_x", [⟨"", "root_b_x_"⟩]⟩, ⟨"root_b_x_", []⟩] := by cbv
  have hr : r ∈ records := by simp [records, r, hrecords]
  have hkeys : (visits .standard "root" (infer parted)).flatMap (fun visit =>
      (visit.2.children.filter fun child => child.2.nested?.isSome).map Prod.fst) =
      ["a", "b", "x", "x", ""] := by cbv
  have hapart : ∀ key ∈ ["a", "b", "x", "x", ""], ¬ "_".toList <:+: key.toList := by decide
  have hfree : SeparatorFree Naming.standard.separator (infer parted) := by
    intro path object h key field hc hn
    have hv := (h.mem_visits ((shaped_infer parted).fields rfl) .standard).2
    have hchild : (key, field) ∈ object.children.filter fun child => child.2.nested?.isSome :=
      List.mem_filter.mpr ⟨Keyed.mem_of_get?_eq_some hc, hn⟩
    exact hapart key (hkeys ▸ List.mem_flatMap_of_mem hv (List.mem_map_of_mem hchild))
  have hne : Naming.standard.separator ≠ "" := by decide
  have hb : Unbordered Naming.standard.separator.toList := unbordered_singleton '_'
  obtain ⟨_, _, hpath⟩ :=
    existsUnique_record_position parted .standard hne hb hfree Neutral.typeExpr
  exact ⟨hr, hne, hb, hfree, hpath r hr⟩

end Schema

end JsonRecords
