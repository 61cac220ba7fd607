import JsonRecords.Target
import JsonRecords.Proofs.Json.Shuffled
import JsonRecords.Proofs.Schema.Alike
import JsonRecords.Proofs.Schema.Audit

/-!
# The order of members

Samples may be written with the members of their objects in any order. Shuffling
members moves no value past another at any position, so the same value comes
first there: the schemas are alike, the conflicts are the same up to order, and
the records and the source text are the same.
-/

namespace JsonRecords

namespace Schema

open Observed

/-- Shuffled objects have the same keys and group alike. -/
theorem alike_groupFields_of_shuffled {objects objects' : List (Keyed String Json)}
    (hd : ∀ members ∈ objects, Json.Distinct (.object members))
    (h : List.Forall₂ Json.ShuffledMembers objects objects') (name : String) :
    Alike ⟨name, .object, groupFields objects⟩ ⟨name, .object, groupFields objects'⟩ := by
  induction objects using objects_induction generalizing objects' name with
  | step objects ih =>
      have hvalues (key : String) := forall₂_valuesIn hd h key
      apply alike_groupFields
      · intro key
        rw [mem_keysIn_iff_valuesIn_ne_nil, mem_keysIn_iff_valuesIn_ne_nil,
          ← List.length_pos_iff, ← List.length_pos_iff, (hvalues key).length_eq]
      · intro key hkey
        obtain ⟨hobjects, helements⟩ := ih key hkey
        have hdistinct := distinct_of_mem_valuesIn hd key
        have hfirst := firstKind_eq_of_forall₂ (hvalues key)
        rw [← hfirst]
        apply alike_groupAt rfl hfirst.symm
        · intro _
          exact hobjects (distinct_of_mem_objectsIn hdistinct) (forall₂_objectsIn (hvalues key)) key
        · intro first rest first' rest' hs hs'
          have harrays := forall₂_arraysIn (hvalues key)
          have hitems := forall₂_objectsIn (List.rel_flatten harrays)
          rw [hs, hs'] at harrays
          refine ⟨firstKind_eq_of_forall₂ (List.forall₂_cons.mp harrays).1, ?_⟩
          intro _
          have hflat := distinct_of_mem_flatten_arraysIn hdistinct
          exact helements (distinct_of_mem_objectsIn hflat) hitems elementKey

theorem alike_infer_of_shuffled {documents documents' : List Json}
    (hd : ∀ d ∈ documents, d.Distinct) (h : List.Forall₂ Json.Shuffled documents documents') :
    Alike (infer documents) (infer documents') := by
  rw [infer, infer, schema_addAll_start, schema_addAll_start]
  exact alike_groupFields_of_shuffled (distinct_of_mem_rootObjects hd) (forall₂_rootObjects h) _

/-- An object says the same of its members in any order, in another order. -/
theorem auditMembers_perm_of_perm {members members' : Keyed String Json}
    (hp : members.Perm members') (path : Path) (node : Schema) :
    (auditMembers path node members).Perm (auditMembers path node members') := by
  rw [auditMembers_eq_flatMap, auditMembers_eq_flatMap]
  exact hp.flatMap_right _

mutual

/-- Shuffled values say the same against alike schemas, up to order. -/
theorem audit_perm (path : Path) (s t : Schema) (v w : Json) :
    Alike s t → Distinct s → v.Shuffled w → (audit path s v).Perm (audit path t w) := by
  rcases meet_cases s v with ⟨members, rfl, hk⟩ | ⟨items, rfl, hk⟩ | ⟨ho, ha⟩
  · intro hst hd hvw
    have hk' : t.kind = .object := hst.kind_eq ▸ hk
    cases hvw with
    | object hkeys hvalues hp =>
        rw [audit_object hk, audit_object hk']
        exact auditMembers_perm_of_shuffled path s t members _ hst hd (.object hkeys hvalues hp)
  · intro hst hd hvw
    have hk' : t.kind = .array := hst.kind_eq ▸ hk
    cases hvw with
    | @array _ items' h =>
        rcases hst.child_cases hd elementKey with ⟨hs, ht⟩ | ⟨c, d, hs, ht, hcd⟩
        · rw [audit_array_none hk hs, audit_array_none hk' ht]
        · rw [audit_array hk hs, audit_array hk' ht]
          exact auditElement_perm _ c d items items' hcd (hd.child hs) h
  · intro hst hd hvw
    rw [audit_of_ne ho ha, audit_of_ne (by rwa [← hvw.kind_eq, ← hst.kind_eq])
      (by rwa [← hvw.kind_eq, ← hst.kind_eq]), hst.kind_eq, hvw.kind_eq]
termination_by (sizeOf v, 0)

theorem auditMembers_perm (path : Path) (s t : Schema) (members between : List (String × Json)) :
    Alike s t → Distinct s →
      List.Forall₂ (fun m n => m.1 = n.1 ∧ m.2.Shuffled n.2) members between →
        (auditMembers path s members).Perm (auditMembers path t between) := by
  cases members with
  | nil =>
      intro _ _ h
      cases h
      rw [auditMembers_nil, auditMembers_nil]
  | cons m rest =>
      obtain ⟨key, v⟩ := m
      intro hst hd h
      cases h with
      | @cons _ n _ rest' hmn hrest =>
          obtain ⟨k, w⟩ := n
          obtain ⟨rfl, hvw⟩ := hmn
          have hmore := auditMembers_perm path s t rest rest' hst hd hrest
          rcases hst.child_cases hd key with ⟨hs, ht⟩ | ⟨c, d, hs, ht, hcd⟩
          · rw [auditMembers_cons_none hs, auditMembers_cons_none ht]
            exact hmore
          · rw [auditMembers_cons hs, auditMembers_cons ht]
            exact (audit_perm _ c d v w hcd (hd.child hs) hvw).append hmore
termination_by (sizeOf members, 0)

theorem auditMembers_perm_of_shuffled (path : Path) (s t : Schema)
    (members members' : List (String × Json)) :
    Alike s t → Distinct s → Json.ShuffledMembers members members' →
      (auditMembers path s members).Perm (auditMembers path t members') := by
  intro hst hd h
  cases h with
  | @object _ between _ hkeys hvalues hp =>
      -- first the values change under the keys in order, then the keys change places
      have hvalues := Keyed.forall₂_of_values hkeys hvalues
      exact (auditMembers_perm path s t members between hst hd hvalues).trans
        (auditMembers_perm_of_perm hp path t)
termination_by (sizeOf members, 1)

theorem auditItems_perm (path : Path) (s t : Schema) (items items' : List Json) :
    Alike s t → Distinct s → List.Forall₂ Json.Shuffled items items' →
      (auditItems path s items).Perm (auditItems path t items') := by
  cases items with
  | nil =>
      intro _ _ h
      cases h
      rw [auditItems_nil, auditItems_nil]
  | cons v rest =>
      rcases v.object_or_ne with ⟨members, rfl⟩ | hv
      · intro hst hd h
        cases h with
        | @cons _ w _ rest' hvw hrest =>
            have hmore := auditItems_perm path s t rest rest' hst hd hrest
            cases hvw with
            | object hkeys hvalues hp =>
                rw [auditItems_object, auditItems_object]
                have hmembers := auditMembers_perm_of_shuffled path s t members _ hst hd
                  (.object hkeys hvalues hp)
                exact hmembers.append hmore
      · intro hst hd h
        cases h with
        | @cons _ w _ rest' hvw hrest =>
            rw [auditItems_of_ne hv, auditItems_of_ne (by rwa [← hvw.kind_eq])]
            exact auditItems_perm path s t rest rest' hst hd hrest
termination_by (sizeOf items, 0)

theorem auditElement_perm (path : Path) (s t : Schema) (items items' : List Json) :
    Alike s t → Distinct s → List.Forall₂ Json.Shuffled items items' →
      (auditElement path s items).Perm (auditElement path t items') := by
  intro hst hd h
  have hfirst : auditFirst path t items' = auditFirst path s items := by
    cases h with
    | nil => rfl
    | cons h _ => rw [auditFirst, auditFirst, hst.kind_eq, h.kind_eq]
  rw [auditElement, auditElement, hfirst, ← hst.kind_eq]
  apply List.Perm.append_left
  split
  · exact auditItems_perm path s t items items' hst hd h
  · exact .refl _
termination_by (sizeOf items, 1)

end

theorem auditDocument_perm {root root' : Schema} (hr : Alike root root') (hd : Distinct root)
    {d e : Json} (h : d.Shuffled e) :
    (auditDocument root d).Perm (auditDocument root' e) := by
  cases h with
  | object hkeys hvalues hp =>
      rw [auditDocument_object, auditDocument_object]
      exact auditMembers_perm_of_shuffled [] root root' _ _ hr hd (.object hkeys hvalues hp)
  | @array items items' h =>
      rw [auditDocument_array, auditDocument_array]
      exact auditItems_perm [] root root' items items' hr hd h
  | _ => exact .refl _

theorem flatMap_auditDocument_perm {root root' : Schema} (hr : Alike root root')
    (hd : Distinct root) {documents documents' : List Json}
    (h : List.Forall₂ Json.Shuffled documents documents') :
    (documents.flatMap (auditDocument root)).Perm (documents'.flatMap (auditDocument root')) := by
  induction h with
  | nil => exact .refl _
  | cons hde _ ih =>
      rw [List.flatMap_cons, List.flatMap_cons]
      exact (auditDocument_perm hr hd hde).append ih

/-- Samples that differ in the order of members only give the same records and
source text, schemas that differ in the order of children only, and the same
conflicts in some order. Decoded samples are distinct (`Json.distinct_decode`). -/
theorem generate_eq_of_shuffled {documents documents' : List Json}
    (hd : ∀ d ∈ documents, d.Distinct) (h : List.Forall₂ Json.Shuffled documents documents') :
    (∀ naming spell,
      generateRecords documents naming spell = generateRecords documents' naming spell) ∧
    (∀ naming target, generate documents naming target = generate documents' naming target) ∧
    Alike (infer documents) (infer documents') ∧
    (Inference.start.addAll documents).conflicts.Perm
      (Inference.start.addAll documents').conflicts := by
  have halike := alike_infer_of_shuffled hd h
  have hshaped := shaped_infer documents
  have hrecords (naming : Naming) (spell : TypeSpelling) :
      generateRecords documents naming spell = generateRecords documents' naming spell :=
    records_eq_of_alike hshaped halike naming spell
  refine ⟨hrecords, ?_, halike, ?_⟩
  · intro naming target
    rw [generate, generate, hrecords]
  · rw [conflicts_eq_flatMap, conflicts_eq_flatMap]
    exact flatMap_auditDocument_perm halike hshaped.distinct h

/-- Two samples written in two ways, with conflicts in another order. -/
theorem generate_eq_of_shuffled_pair :
    let documents : List Json :=
      [.object [("a", .bool true), ("b", .object [("x", .null), ("y", .string "s")])],
        .array [.object [("b", .null), ("a", .null)]]]
    let documents' : List Json :=
      [.object [("b", .object [("y", .string "s"), ("x", .null)]), ("a", .bool true)],
        .array [.object [("a", .null), ("b", .null)]]]
    (∀ d ∈ documents, d.Distinct) ∧ List.Forall₂ Json.Shuffled documents documents' ∧
    (∀ naming spell,
      generateRecords documents naming spell = generateRecords documents' naming spell) ∧
    (∀ naming target, generate documents naming target = generate documents' naming target) ∧
    Alike (infer documents) (infer documents') ∧
    (Inference.start.addAll documents).conflicts.Perm
      (Inference.start.addAll documents').conflicts := by
  intro documents documents'
  have hd : ∀ d ∈ documents, d.Distinct := by
    simp [documents, Keyed.keys]
  have hbelow : Json.Shuffled (.object [("x", .null), ("y", .string "s")])
      (.object [("y", .string "s"), ("x", .null)]) :=
    .object rfl (.cons .null (.cons (.string "s") .nil)) (.swap ..)
  have h : List.Forall₂ Json.Shuffled documents documents' := by
    refine .cons ?_ (.cons (.array (.cons ?_ .nil)) .nil)
    · refine .object ?_ ?_ (.swap ..)
      · rfl
      · exact .cons (.bool true) (.cons hbelow .nil)
    · refine .object ?_ ?_ (.swap ..)
      · rfl
      · exact .cons .null (.cons .null .nil)
  exact ⟨hd, h, generate_eq_of_shuffled hd h⟩

end Schema

end JsonRecords
