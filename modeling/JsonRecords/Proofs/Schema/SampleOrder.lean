import JsonRecords.Target
import JsonRecords.Proofs.Schema.Alike
import JsonRecords.Proofs.Schema.Audit

/-!
# The order of samples

The value that comes first at a position decides what is recorded there, so the
order of samples matters in general. It does not where no order of them meets a
conflict: then all values of a position are of one kind, whichever comes first,
and all nonempty arrays there start with an element of one kind. `Quiet` objects
say nothing against the schema that they are grouped into.
-/

namespace JsonRecords

namespace Observed

theorem perm_objectsIn {values values' : List Json} (hp : values.Perm values') :
    (objectsIn values).Perm (objectsIn values') :=
  hp.filterMap _

theorem perm_arraysIn {values values' : List Json} (hp : values.Perm values') :
    (arraysIn values).Perm (arraysIn values') :=
  hp.filterMap _

theorem perm_valuesIn {objects objects' : List (Keyed String Json)} (hp : objects.Perm objects')
    (key : String) : (valuesIn objects key).Perm (valuesIn objects' key) :=
  (hp.flatten.filter _).map _

theorem perm_rootObjects {documents documents' : List Json} (hp : documents.Perm documents') :
    (rootObjects documents).Perm (rootObjects documents') :=
  hp.flatMap_right _

theorem exists_mem_kind_eq_firstKind {values : List Json} (h : values ≠ []) :
    ∃ v ∈ values, v.kind = firstKind values := by
  obtain ⟨v, rest, rfl⟩ := List.exists_cons_of_ne_nil h
  exact ⟨v, List.mem_cons_self, rfl⟩

end Observed

namespace Schema

open Observed

/-- Objects that say nothing against their own schema. -/
def Quiet (path : Path) (name : String) (objects : List (Keyed String Json)) : Prop :=
  ∀ members ∈ objects, auditMembers path ⟨name, .object, groupFields objects⟩ members = []

/-- Values that say nothing against their own schema. -/
def QuietValues (path : Path) (name : String) (values : List Json) : Prop :=
  ∀ v ∈ values, audit path (groupAt name (firstKind values) values) v = []

theorem kind_eq_of_audit_eq_nil {path : Path} {node : Schema} {v : Json}
    (h : audit path node v = []) : v.kind = node.kind := by
  by_contra hne
  rw [audit_of_kind_ne (Ne.symm hne)] at h
  cases h

theorem kind_eq_of_auditFirst_eq_nil {path : Path} {element : Schema} {first : Json}
    {rest : List Json} (h : auditFirst path element (first :: rest) = []) :
    first.kind = element.kind := by
  by_contra hne
  rw [auditFirst, if_neg (Ne.symm hne)] at h
  cases h

theorem audit_eq_nil_of_mem {path : Path} {node c : Schema} {members : Keyed String Json}
    {key : String} {v : Json} (h : auditMembers path node members = []) (hv : (key, v) ∈ members)
    (hc : node.child key = some c) : audit (path ++ [.field key]) c v = [] := by
  rw [auditMembers_eq_flatMap, List.flatMap_eq_nil_iff] at h
  simpa [hc] using h (key, v) hv

/-- Below quiet objects lie quiet values. -/
theorem Quiet.valuesIn {path : Path} {name : String} {objects : List (Keyed String Json)}
    (h : Quiet path name objects) (key : String) :
    QuietValues (path ++ [.field key]) key (valuesIn objects key) := by
  intro v hv
  obtain ⟨members, hm, hmem⟩ := mem_valuesIn.mp hv
  have hkey : key ∈ keysIn objects := mem_keysIn.mpr ⟨members, hm, v, hmem⟩
  have hchild := child_groupFields name key objects
  rw [if_pos hkey] at hchild
  exact audit_eq_nil_of_mem (h members hm) hmem hchild

/-- Quiet values are of one kind. -/
theorem QuietValues.kind_eq {path : Path} {name : String} {values : List Json}
    (h : QuietValues path name values) {v : Json} (hv : v ∈ values) :
    v.kind = firstKind values := by
  rw [kind_eq_of_audit_eq_nil (h v hv), kind_groupAt]

theorem QuietValues.firstKind_eq {path : Path} {name : String} {values values' : List Json}
    (h : QuietValues path name values) (hp : values.Perm values') (hne : values ≠ []) :
    firstKind values' = firstKind values := by
  have hne' : values' ≠ [] := by
    rintro rfl
    exact hne hp.eq_nil
  obtain ⟨v, hv, hk⟩ := exists_mem_kind_eq_firstKind hne'
  rw [← hk, h.kind_eq (hp.mem_iff.mpr hv)]

theorem QuietValues.objectsIn {path : Path} {name : String} {values : List Json}
    (h : QuietValues path name values) (hk : firstKind values = .object) :
    Quiet path name (objectsIn values) := by
  intro members hm
  have hv := h _ (mem_objectsIn.mp hm)
  rw [hk, groupAt_object] at hv
  rwa [audit_object rfl] at hv

theorem child_singleton (name key : String) (kind : Kind) (c : Schema) :
    child ⟨name, kind, [(key, c)]⟩ key = some c := by
  rw [child, Keyed.get?_cons, if_pos rfl]

/-- Arrays among quiet values say nothing against the schema of their
elements. -/
theorem QuietValues.auditElement_eq_nil {path : Path} {name : String} {values first : List Json}
    {rest : List (List Json)} (h : QuietValues path name values)
    (hs : arraysIn values = first :: rest) {items : List Json} (hi : items ∈ arraysIn values) :
    auditElement (path ++ [.element])
      (groupElement (firstKind first) (arraysIn values).flatten) items = [] := by
  have hv := h _ (mem_arraysIn.mp hi)
  have hk : Kind.array = firstKind values := h.kind_eq (mem_arraysIn.mp hi)
  rwa [← hk, groupAt_array_cons hs, audit_array rfl (child_singleton ..), ← hs] at hv

/-- Nonempty arrays among quiet values start with an element of one kind. -/
theorem QuietValues.firstKind_items {path : Path} {name : String} {values first : List Json}
    {rest : List (List Json)} (h : QuietValues path name values)
    (hs : arraysIn values = first :: rest) {items : List Json} (hi : items ∈ arraysIn values)
    (hne : items ≠ []) : firstKind items = firstKind first := by
  have helement := h.auditElement_eq_nil hs hi
  obtain ⟨v, tail, rfl⟩ := List.exists_cons_of_ne_nil hne
  rw [auditElement] at helement
  have hkind := kind_eq_of_auditFirst_eq_nil (List.append_eq_nil_iff.mp helement).1
  rwa [kind_groupElement] at hkind

theorem QuietValues.elements {path : Path} {name : String} {values first : List Json}
    {rest : List (List Json)} (h : QuietValues path name values)
    (hs : arraysIn values = first :: rest) (hk : firstKind first = .object) :
    Quiet (path ++ [.element]) elementKey (Observed.objectsIn (arraysIn values).flatten) := by
  intro members hm
  obtain ⟨items, hi, hv⟩ := List.mem_flatten.mp (mem_objectsIn.mp hm)
  have helement := h.auditElement_eq_nil hs hi
  rw [hk, groupElement_object, auditElement] at helement
  have hitems := (List.append_eq_nil_iff.mp helement).2
  rw [if_pos rfl, auditItems_eq_flatMap, List.flatMap_eq_nil_iff] at hitems
  exact hitems members (mem_objectsIn.mpr hv)

/-- If values are quiet in two orders, the arrays that come first in them give
their elements one kind: an empty array only does so where all are empty or
start with null. -/
theorem QuietValues.firstKind_first {path : Path} {name : String} {values values' : List Json}
    {first first' : List Json} {rest rest' : List (List Json)}
    (h : QuietValues path name values) (h' : QuietValues path name values')
    (hp : values.Perm values') (hs : arraysIn values = first :: rest)
    (hs' : arraysIn values' = first' :: rest') : firstKind first = firstKind first' := by
  have hfirst : first ∈ arraysIn values' := by
    rw [← (perm_arraysIn hp).mem_iff, hs]
    exact List.mem_cons_self
  have hfirst' : first' ∈ arraysIn values := by
    rw [(perm_arraysIn hp).mem_iff, hs']
    exact List.mem_cons_self
  -- each of the two is met in the other order too, where it is empty or agrees
  by_cases he : first = []
  · by_cases he' : first' = []
    · rw [he, he']
    · exact (h.firstKind_items hs hfirst' he').symm
  · exact h'.firstKind_items hs' hfirst he

/-- Objects that are quiet in two orders are grouped alike. -/
theorem alike_groupFields_of_perm {objects objects' : List (Keyed String Json)}
    (hp : objects.Perm objects') {path : Path} {name : String} (h : Quiet path name objects)
    (h' : Quiet path name objects') :
    Alike ⟨name, .object, groupFields objects⟩ ⟨name, .object, groupFields objects'⟩ := by
  induction objects using objects_induction generalizing objects' path name with
  | step objects ih =>
      apply alike_groupFields
      · intro key
        simp only [mem_keysIn, hp.mem_iff]
      · intro key hkey
        have hvalues := h.valuesIn key
        have hvalues' := h'.valuesIn key
        have hpv := perm_valuesIn hp key
        have hfirst := hvalues.firstKind_eq hpv (mem_keysIn_iff_valuesIn_ne_nil.mp hkey)
        obtain ⟨hobjects, helements⟩ := ih key hkey
        rw [hfirst]
        apply alike_groupAt rfl hfirst
        · intro hk
          exact hobjects (perm_objectsIn hpv) (hvalues.objectsIn hk)
            (hvalues'.objectsIn (hfirst.trans hk))
        · intro first rest first' rest' hs hs'
          have hitems := hvalues.firstKind_first hvalues' hpv hs hs'
          refine ⟨hitems, ?_⟩
          intro hk
          exact helements (perm_objectsIn (perm_arraysIn hpv).flatten) (hvalues.elements hs hk)
            (hvalues'.elements hs' (hitems.symm.trans hk))

theorem quiet_rootObjects {documents : List Json}
    (h : (Inference.start.addAll documents).conflicts = []) :
    Quiet [] rootName (rootObjects documents) := by
  rw [conflicts_eq_flatMap, List.flatMap_eq_nil_iff, infer, schema_addAll_start] at h
  intro members hm
  obtain ⟨d, hd, hm⟩ := mem_rootObjects.mp hm
  exact List.flatMap_eq_nil_iff.mp (h d hd) members hm

/-- Samples in two orders neither of which meets a conflict give schemas that
differ in the order of children only, and the same records. -/
theorem generateRecords_eq_of_perm {documents documents' : List Json}
    (hp : documents.Perm documents') (h : (Inference.start.addAll documents).conflicts = [])
    (h' : (Inference.start.addAll documents').conflicts = []) :
    Alike (infer documents) (infer documents') ∧
    ∀ naming spell,
      generateRecords documents naming spell = generateRecords documents' naming spell := by
  have halike : Alike (infer documents) (infer documents') := by
    rw [infer, infer, schema_addAll_start, schema_addAll_start]
    exact alike_groupFields_of_perm (perm_rootObjects hp) (quiet_rootObjects h)
      (quiet_rootObjects h')
  refine ⟨halike, ?_⟩
  intro naming spell
  exact records_eq_of_alike (shaped_infer documents) halike naming spell

/-- Two samples that meet no conflict in either order. -/
theorem generateRecords_eq_of_perm_pair :
    let d : Json := .object [("a", .bool true), ("b", .array [.object [("x", .null)]])]
    let e : Json :=
      .object [("b", .array [.object [("y", .string "s")], .null]), ("c", .object [])]
    [d, e].Perm [e, d] ∧ (Inference.start.addAll [d, e]).conflicts = [] ∧
    (Inference.start.addAll [e, d]).conflicts = [] ∧
    Alike (infer [d, e]) (infer [e, d]) ∧
    ∀ naming spell, generateRecords [d, e] naming spell = generateRecords [e, d] naming spell := by
  intro d e
  have hp : [d, e].Perm [e, d] := .swap ..
  have h : (Inference.start.addAll [d, e]).conflicts = [] := by decide
  have h' : (Inference.start.addAll [e, d]).conflicts = [] := by decide
  exact ⟨hp, h, h', generateRecords_eq_of_perm hp h h'⟩

end Schema

end JsonRecords
