import JsonRecords.Proofs.Record.Drafts
import JsonRecords.Target.Neutral
import Mathlib.Data.List.Flatten
import Mathlib.Data.List.Permutation

/-!
# The objects that get a record

`visits` lists the objects below a schema with the names of their records, each
object before those that its fields lead to and these by field name. The
records of a schema have the names of the visits, and a record has one
declaration for each field of each visit of its name (`fieldsOf_walk_perm`). Where no two
visits share a name, a record has just the fields of its object by name.
-/

namespace JsonRecords

namespace Generate

open Schema Observed

/-- The objects that get a record with the names of the records, from the object
that gets the record `name` on. -/
def visits (naming : Naming) (name : String) (s : Schema) : List (String × Schema) :=
  if s.isObject then
    (name, s) :: s.sortedFields.attach.flatMap fun ⟨field, _⟩ =>
      match _h : field.nested? with
      | none => []
      | some object => visits naming (naming.nested name field.name) object
  else []
termination_by sizeOf s
decreasing_by
  have hlt := sizeOf_lt_of_mem_sortedFields ‹field ∈ s.sortedFields›
  have hle := sizeOf_le_of_nested? ‹field.nested? = some object›
  omega

/-- The visits from the object that a field of the record `name` leads to. -/
def visitsBelow (naming : Naming) (name : String) (field : Schema) : List (String × Schema) :=
  field.nested?.elim [] (visits naming (naming.nested name field.name))

theorem visits_object {s : Schema} (h : s.isObject) (naming : Naming) (name : String) :
    visits naming name s = (name, s) :: s.sortedFields.flatMap (visitsBelow naming name) := by
  have hbelow (field : Schema) :
      (match _h : field.nested? with
        | none => []
        | some object => visits naming (naming.nested name field.name) object) =
      visitsBelow naming name field := by
    rw [visitsBelow]
    split
    · next ho => rw [ho, Option.elim_none]
    · next ho => rw [ho, Option.elim_some]
  rw [visits, if_pos h]
  simp only [hbelow, List.flatMap_subtype, List.unattach_attach]

theorem visits_of_not {s : Schema} (h : ¬ s.isObject) (naming : Naming) (name : String) :
    visits naming name s = [] := by
  rw [visits, if_neg h]

/-- The places asked for in a walk are the visits. -/
theorem filterMap_reserved?_walk (naming : Naming) (name : String) (s : Schema) :
    (walk naming name s).filterMap Event.reserved? = visits naming name s := by
  induction s using nested_induction generalizing name with
  | step s ih =>
      by_cases h : s.isObject
      · have hfirst : (Event.reserve name s).reserved? = some (name, s) := rfl
        rw [walk_object h, visits_object h, List.filterMap_cons_some hfirst,
          List.filterMap_flatMap]
        congr 1
        apply List.flatMap_congr
        intro field hf
        rw [List.filterMap_append]
        cases ho : field.nested? with
        | none => simp [walkBelow, visitsBelow, ho, Event.reserved?]
        | some object =>
            simp [walkBelow, visitsBelow, ho, Event.reserved?, ih field hf object ho]
      · rw [walk_of_not h, visits_of_not h, List.filterMap_nil]

theorem names_walk (naming : Naming) (name : String) (s : Schema) :
    names (walk naming name s) = (visits naming name s).map Prod.fst := by
  rw [names, filterMap_reserved?_walk]

theorem fieldsOf_walk_object {s : Schema} (h : s.isObject) (naming : Naming)
    (name record : String) :
    fieldsOf record (walk naming name s) = s.sortedFields.flatMap fun field =>
      fieldsOf record (walkBelow naming name field) ++ if name = record then [field] else [] := by
  rw [walk_object h, fieldsOf, List.filterMap_cons, List.filterMap_flatMap]
  apply List.flatMap_congr
  intro field _
  rw [List.filterMap_append]
  congr 1
  exact fieldsOf_append_singleton record name field

/-- The fields of all visits of one name. -/
def fieldsVisited (record : String) (visits : List (String × Schema)) : List Schema :=
  (visits.filter fun visit => visit.1 = record).flatMap fun visit => visit.2.sortedFields

theorem fieldsVisited_flatMap (record : String) (fields : List Schema)
    (f : Schema → List (String × Schema)) :
    fieldsVisited record (fields.flatMap f) =
      fields.flatMap fun field => fieldsVisited record (f field) := by
  simp [fieldsVisited, List.filter_flatMap, List.flatMap_assoc]

/-- A record gets each field of each visit of its name, and nothing else. -/
theorem fieldsOf_walk_perm (naming : Naming) (name record : String) (s : Schema) :
    (fieldsOf record (walk naming name s)).Perm (fieldsVisited record (visits naming name s)) := by
  induction s using nested_induction generalizing name with
  | step s ih =>
      by_cases h : s.isObject
      · have hown : (s.sortedFields.flatMap fun field => if name = record then [field] else []) =
            fieldsVisited record [(name, s)] := by
          by_cases he : name = record <;> simp [fieldsVisited, he]
        have hbelow : ∀ field ∈ s.sortedFields,
            (fieldsOf record (walkBelow naming name field)).Perm
              (fieldsVisited record (visitsBelow naming name field)) := by
          intro field hf
          cases ho : field.nested? with
          | none => simp [walkBelow, visitsBelow, ho, fieldsOf, fieldsVisited]
          | some object =>
              simp only [walkBelow, visitsBelow, ho, Option.elim_some]
              exact ih field hf object ho _
        have hsplit : fieldsVisited record (visits naming name s) =
            fieldsVisited record [(name, s)] ++
              s.sortedFields.flatMap fun field =>
                fieldsVisited record (visitsBelow naming name field) := by
          rw [visits_object h, ← fieldsVisited_flatMap]
          simp only [fieldsVisited, List.filter_cons]
          split <;> simp
        rw [fieldsOf_walk_object h, hsplit, ← hown]
        -- each field of the object comes after all that lies below it; gathered, they come first
        exact (List.flatMap_append_perm _ _ _).symm.trans
          (List.perm_append_comm.trans ((List.Perm.flatMap_left _ hbelow).append_left _))
      · simp [walk_of_not h, visits_of_not h, fieldsOf, fieldsVisited]

/-- The fields of a visit go to its record by name, if not without others
between them. -/
theorem sortedFields_sublist_fieldsOf {naming : Naming} {name : String} {s : Schema}
    {visit : String × Schema} (hv : visit ∈ visits naming name s) :
    visit.2.sortedFields.Sublist (fieldsOf visit.1 (walk naming name s)) := by
  induction s using nested_induction generalizing name with
  | step s ih =>
      by_cases h : s.isObject
      · rw [visits_object h] at hv
        rw [fieldsOf_walk_object h]
        rcases List.mem_cons.mp hv with rfl | hv
        · have hself : s.sortedFields = s.sortedFields.flatMap fun field => [field] := by simp
          simp only [if_true]
          nth_rewrite 1 [hself]
          exact List.Sublist.flatMap_right _ fun field _ => List.sublist_append_right _ _
        · obtain ⟨field, hf, hv⟩ := List.mem_flatMap.mp hv
          have hbelow : visit.2.sortedFields.Sublist
              (fieldsOf visit.1 (walkBelow naming name field)) := by
            cases ho : field.nested? with
            | none => simp [visitsBelow, ho] at hv
            | some object =>
                simp only [visitsBelow, walkBelow, ho, Option.elim_some] at hv ⊢
                exact ih field hf object ho hv
          have happend := hbelow.trans
            (List.sublist_append_left _ (if name = visit.1 then [field] else []))
          rw [List.flatMap_def]
          exact happend.trans (List.sublist_flatten_of_mem (List.mem_map.mpr ⟨field, hf, rfl⟩))
      · simp [visits_of_not h] at hv

/-- A record that is visited once has the fields of its object by name. -/
theorem fieldsOf_walk_eq_sortedFields {naming : Naming} {name : String} {s : Schema}
    (hn : ((visits naming name s).map Prod.fst).Nodup) {visit : String × Schema}
    (hv : visit ∈ visits naming name s) :
    fieldsOf visit.1 (walk naming name s) = visit.2.sortedFields := by
  have hperm := fieldsOf_walk_perm naming name visit.1 s
  rw [fieldsVisited, Keyed.filter_eq_singleton hn hv, List.flatMap_singleton] at hperm
  exact ((sortedFields_sublist_fieldsOf hv).eq_of_length hperm.length_eq.symm).symm

/-- The declaration of a field in a record of a name, with the hint that the shape
of the field dictates. -/
def declaration (naming : Naming) (spell : TypeSpelling) (record : String) (field : Schema) :
    FieldDecl :=
  ⟨field.name, spell field.kind (dictated naming record field)⟩

theorem declare_eq_declaration (naming : Naming) (spell : TypeSpelling) (record : String) :
    declare naming spell record = declaration naming spell record := by
  funext field
  rw [declare, declaration, hint_eq_dictated]

end Generate

namespace Schema

open Generate Observed

theorem fields_perm_of_mem_records {s : Schema} {naming : Naming} {spell : TypeSpelling}
    {r : RecordDecl} (h : r ∈ s.records naming spell) :
    r.fields.Perm
      (((visits naming naming.rootName s).filter fun visit => visit.1 = r.name).flatMap
        fun visit => visit.2.fields.map (declaration naming spell visit.1)) := by
  have hperm := (fieldsOf_walk_perm naming naming.rootName r.name s).map
    (declaration naming spell r.name)
  rw [fields_of_mem_records h, declare_eq_declaration]
  refine hperm.trans ?_
  rw [fieldsVisited, List.map_flatMap]
  apply List.Perm.flatMap_left
  intro visit hv
  have hname : visit.1 = r.name := of_decide_eq_true (List.mem_filter.mp hv).2
  rw [hname]
  exact (perm_sortedFields visit.2).map _

theorem records_eq_map_of_nodup {s : Schema} {naming : Naming}
    (hn : ((visits naming naming.rootName s).map Prod.fst).Nodup) (spell : TypeSpelling) :
    s.records naming spell = (visits naming naming.rootName s).map fun visit =>
      ⟨visit.1, visit.2.sortedFields.map (declaration naming spell visit.1)⟩ := by
  rw [records_eq_map_drafts, drafts, Generate.drafts, names_walk, eraseDups_of_nodup hn,
    Keyed.tabulate, List.map_map, List.map_map]
  apply List.map_congr_left
  intro visit hv
  simp only [Function.comp_apply, spelled, fieldsOf_walk_eq_sortedFields hn hv,
    declare_eq_declaration]

/-- The spelling decides nothing but type expressions. -/
theorem map_names_records (s : Schema) (naming : Naming) (spell spell' : TypeSpelling) :
    (s.records naming spell).map (fun r => (r.name, r.fields.map FieldDecl.name)) =
      (s.records naming spell').map fun r => (r.name, r.fields.map FieldDecl.name) := by
  rw [records_eq_map_drafts, records_eq_map_drafts, List.map_map, List.map_map]
  apply List.map_congr_left
  intro draft _
  simp [spelled, declare]

/-- The records of a schema have the names of the visits, later ones of a name
dropped, and each has, in some order, the declarations of the fields of all
visits of its name. Where no two visits share a name, there is one record for
each visit, with the fields of its object by name. Names and the order of fields
do not depend on the spelling. -/
theorem records_eq_map_visits (s : Schema) (naming : Naming) (spell : TypeSpelling) :
    let records := s.records naming spell
    let visits := visits naming naming.rootName s
    records.map RecordDecl.name = (visits.map Prod.fst).eraseDups ∧
    (∀ r ∈ records, r.fields.Perm ((visits.filter fun visit => visit.1 = r.name).flatMap
      fun visit => visit.2.fields.map (declaration naming spell visit.1))) ∧
    ((visits.map Prod.fst).Nodup →
      records = visits.map (fun visit =>
        ⟨visit.1, visit.2.sortedFields.map (declaration naming spell visit.1)⟩) ∧
      ∀ r ∈ records, (r.fields.map FieldDecl.name).Pairwise (· ≤ ·)) ∧
    ∀ spell' : TypeSpelling,
      (s.records naming spell').map (fun r => (r.name, r.fields.map FieldDecl.name)) =
        records.map fun r => (r.name, r.fields.map FieldDecl.name) := by
  intro records visits
  refine ⟨?_, ?_, ?_, ?_⟩
  · rw [← names_walk]
    exact names_records s naming spell
  · intro r hr
    exact fields_perm_of_mem_records hr
  · intro hn
    have heq := records_eq_map_of_nodup hn spell
    refine ⟨heq, ?_⟩
    intro r hr
    change r ∈ s.records naming spell at hr
    rw [heq] at hr
    obtain ⟨visit, _, rfl⟩ := List.mem_map.mp hr
    rw [List.map_map, List.pairwise_map]
    exact pairwise_sortedFields visit.2
  · intro spell'
    exact map_names_records s naming spell' spell

/-- A schema whose fields do not stand by name, with an object below an array. -/
def unsorted : Schema :=
  ⟨"root", .object,
    [("z", leaf "z" .string),
      ("b", ⟨"b", .array, [("content", ⟨"content", .object, [("c", leaf "c" .object)]⟩)]⟩)]⟩

theorem records_eq_map_visits_unsorted :
    let records := unsorted.records .standard Neutral.typeExpr
    let visits := visits .standard "root" unsorted
    let r : RecordDecl := ⟨"root", [⟨"b", "array<root_b>"⟩, ⟨"z", "string"⟩]⟩
    visits.map Prod.fst = ["root", "root_b", "root_b_c"] ∧ (visits.map Prod.fst).Nodup ∧
      r ∈ records ∧
      r.fields.Perm ((visits.filter fun visit => visit.1 = "root").flatMap fun visit =>
        visit.2.fields.map (declaration .standard Neutral.typeExpr visit.1)) ∧
      records = visits.map (fun visit =>
        ⟨visit.1, visit.2.sortedFields.map (declaration .standard Neutral.typeExpr visit.1)⟩) ∧
      (r.fields.map FieldDecl.name).Pairwise (· ≤ ·) := by
  intro records visits r
  have hnames : (Generate.visits .standard "root" unsorted).map Prod.fst =
      ["root", "root_b", "root_b_c"] := by cbv
  have hn : (visits.map Prod.fst).Nodup := by
    rw [hnames]
    decide
  have hrecords : unsorted.records .standard Neutral.typeExpr =
      [⟨"root", [⟨"b", "array<root_b>"⟩, ⟨"z", "string"⟩]⟩,
        ⟨"root_b", [⟨"c", "root_b_c"⟩]⟩, ⟨"root_b_c", []⟩] := by cbv
  have hr : r ∈ records := by
    simp only [records, hrecords]
    exact List.mem_cons_self
  obtain ⟨_, hperm, hdistinct, _⟩ := records_eq_map_visits unsorted .standard Neutral.typeExpr
  obtain ⟨heq, hpairwise⟩ := hdistinct hn
  exact ⟨hnames, hn, hr, hperm r hr, heq, hpairwise r hr⟩

end Schema

end JsonRecords
