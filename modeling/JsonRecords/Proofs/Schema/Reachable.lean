import JsonRecords.Proofs.Record.Drafts
import JsonRecords.Proofs.Schema.Extension
import JsonRecords.Target.Neutral

/-!
# Schemas that calls lead to

Merging keeps the shape of a schema: a position is added with the shape of the
value that it is added for, and what stands already is changed only below, in
the way its kind allows (`shaped_meet`, `shapedFields_mergeMembers`). So every
state that an inference can reach has a root of that shape, and the hint of a
field that the generator meets there is never missing where the kind of the
field needs one.
-/

namespace JsonRecords

namespace Schema

theorem shapedFields_nil : ShapedFields [] :=
  .mk List.nodup_nil (List.forall_mem_nil _) (List.forall_mem_nil _)

theorem ShapedFields.set {children : List (String × Schema)} (h : ShapedFields children)
    {c : Schema} (hc : Shaped c) : ShapedFields (Keyed.set c.name c children) := by
  cases h with
  | mk hn hname h =>
      refine .mk (Keyed.nodup_keys_set hn c.name c) ?_ ?_
      · intro d hd
        rcases Keyed.mem_or_eq_of_mem_set hd with hd | rfl
        · exact hname d hd
        · rfl
      · intro d hd
        rcases Keyed.mem_or_eq_of_mem_set hd with hd | rfl
        · exact h d hd
        · exact hc

theorem ShapedFields.shaped {s : Schema} (h : ShapedFields s.children) (hk : s.kind = .object) :
    Shaped s := by
  obtain ⟨name, kind, children⟩ := s
  subst hk
  exact .object h

theorem ShapedFields.shapedElement {s : Schema} (h : ShapedFields s.children)
    (hk : s.kind = .object) (hname : s.name = elementKey) : ShapedElement s := by
  obtain ⟨name, kind, children⟩ := s
  subst hk hname
  exact .object h

theorem Shaped.fields {s : Schema} (h : Shaped s) (hk : s.kind = .object) :
    ShapedFields s.children := by
  cases h with
  | object h => exact h
  | array _ => cases hk
  | scalar ho _ => exact absurd hk ho

theorem ShapedElement.fields {s : Schema} (h : ShapedElement s) (hk : s.kind = .object) :
    ShapedFields s.children := by
  cases h with
  | object h => exact h
  | other ho => exact absurd hk ho

theorem ShapedElement.name_eq {s : Schema} (h : ShapedElement s) : s.name = elementKey := by
  cases h <;> rfl

theorem shapedElement_leaf (kind : Kind) : ShapedElement (leaf elementKey kind) := by
  by_cases hk : kind = .object
  · subst hk
    exact .object shapedFields_nil
  · exact .other hk

/-- A child of a shaped object is shaped and stands under its name. -/
theorem ShapedFields.child {s c : Schema} (h : ShapedFields s.children) {key : String}
    (hc : s.child key = some c) : Shaped c ∧ c.name = key := by
  cases h with
  | mk _ hname h =>
      have hmem := Keyed.mem_of_get?_eq_some hc
      exact ⟨h _ hmem, hname _ hmem⟩

/-- A position that a value may be met at: one of the shape, or one that is just
added for the value. -/
def Admits (node : Schema) (v : Json) : Prop :=
  Shaped node ∨ node = leaf node.name v.kind

/-- An array position that admits an array has a place for the elements, and
nothing else. -/
theorem Admits.array {node : Schema} {items : List Json} (h : Admits node (.array items))
    (hk : node.kind = .array) (kind : Kind) :
    ShapedElement ((node.child elementKey).getD (leaf elementKey kind)) ∧
      ∀ element, ShapedElement element → Shaped (node.setChild elementKey element) := by
  rcases h with h | h
  · cases h with
    | object _ => cases hk
    | @array name old hold =>
        refine ⟨by simpa [child, Keyed.get?_cons] using hold, ?_⟩
        intro element he
        have hset : setChild ⟨name, .array, [(elementKey, old)]⟩ elementKey element =
            ⟨name, .array, [(elementKey, element)]⟩ := by
          simp [setChild, Keyed.set_cons]
        rw [hset]
        exact .array he
    | scalar _ ha => exact absurd hk ha
  · rw [h]
    refine ⟨by simpa [child] using shapedElement_leaf kind, ?_⟩
    intro element he
    exact .array he

mutual

/-- Meeting a value gives a position of the shape. -/
theorem shaped_meet (path : Path) (node : Schema) (v : Json) :
    Admits node v → Shaped (meet path node v).1 := by
  rcases meet_cases node v with ⟨members, rfl, hk⟩ | ⟨items, rfl, hk⟩ | ⟨ho, ha⟩
  · intro h
    have hfields : ShapedFields node.children := by
      rcases h with h | h
      · exact h.fields hk
      · rw [h]
        exact shapedFields_nil
    rw [meet_object hk]
    have hmerged := shapedFields_mergeMembers path node members hfields
    exact hmerged.shaped ((extends_mergeMembers path node members).kind_eq.trans hk)
  · intro h
    rw [meet_array hk]
    obtain ⟨hold, hset⟩ := h.array hk ((items.head?.map Json.kind).getD .null)
    exact hset _ (shapedElement_mergeElement (path ++ [.element]) _ items hold)
  · intro h
    rw [meet_of_ne ho ha]
    rcases h with h | h
    · exact h
    · rw [h] at ho ha ⊢
      exact .scalar (fun hv => ho hv hv) (fun hv => ha hv hv)
termination_by (sizeOf v, 0)

theorem shapedFields_mergeMembers (path : Path) (node : Schema)
    (members : List (String × Json)) :
    ShapedFields node.children → ShapedFields (mergeMembers path node members).1.children := by
  cases members with
  | nil =>
      rw [mergeMembers_nil]
      exact id
  | cons member rest =>
      obtain ⟨key, v⟩ := member
      intro h
      rw [mergeMembers_cons]
      have hadmits : Admits ((node.child key).getD (leaf key v.kind)) v ∧
          ((node.child key).getD (leaf key v.kind)).name = key := by
        cases hc : node.child key with
        | none => exact ⟨Or.inr rfl, rfl⟩
        | some c => exact (h.child hc).imp_left Or.inl
      have hmet := shaped_meet (path ++ [.field key]) _ v hadmits.1
      have hname := (extends_meet (path ++ [.field key]) _ v).name_eq.trans hadmits.2
      have hset := h.set hmet
      rw [hname] at hset
      exact shapedFields_mergeMembers path _ rest hset
termination_by (sizeOf members, 0)

theorem shapedFields_mergeItems (path : Path) (node : Schema) (items : List Json) :
    ShapedFields node.children → ShapedFields (mergeItems path node items).1.children := by
  cases items with
  | nil =>
      rw [mergeItems_nil]
      exact id
  | cons v rest =>
      rcases v.object_or_ne with ⟨members, rfl⟩ | hv
      · intro h
        rw [mergeItems_object]
        have hmembers := shapedFields_mergeMembers path node members h
        exact shapedFields_mergeItems path _ rest hmembers
      · rw [mergeItems_of_ne hv]
        exact shapedFields_mergeItems path node rest
termination_by (sizeOf items, 0)

theorem shapedElement_mergeElement (path : Path) (element : Schema) (items : List Json) :
    ShapedElement element → ShapedElement (mergeElement path element items).1 := by
  intro h
  by_cases hk : element.kind = .object
  · have hext := extends_mergeItems path element items
    rw [mergeElement_object hk]
    have hitems := shapedFields_mergeItems path element items (h.fields hk)
    exact hitems.shapedElement (hext.kind_eq.trans hk) (hext.name_eq.trans h.name_eq)
  · rw [mergeElement_of_ne hk]
    exact h
termination_by (sizeOf items, 1)

end

/-- Merging an object into an object of the shape gives one of the shape. -/
theorem Shaped.merge {s : Schema} (h : Shaped s) (hk : s.kind = .object)
    (members : List (String × Json)) : Shaped (merge s members) := by
  have hmerged := shapedFields_mergeMembers [] s members (h.fields hk)
  exact hmerged.shaped ((extends_mergeMembers [] s members).kind_eq.trans hk)

theorem shapedFields_observeItems (node : Schema) (index : Nat) (items : List Json) :
    ShapedFields node.children → ShapedFields (observeItems node index items).1.children := by
  induction items generalizing node index with
  | nil => exact id
  | cons v rest ih =>
      rcases v.object_or_ne with ⟨members, rfl⟩ | hv
      · intro h
        rw [observeItems_object]
        exact ih _ _ (shapedFields_mergeMembers [] node members h)
      · rw [observeItems_of_ne hv]
        exact ih node (index + 1)

theorem shapedFields_observe (node : Schema) (d : Json) :
    ShapedFields node.children → ShapedFields (observe node d).1.children := by
  cases d with
  | object members => exact shapedFields_mergeMembers [] node members
  | array items => exact shapedFields_observeItems node 0 items
  | _ => exact id

theorem shapedFields_observeAll (node : Schema) (documents : List Json) :
    ShapedFields node.children → ShapedFields (observeAll node documents).1.children := by
  induction documents generalizing node with
  | nil => exact id
  | cons d rest ih =>
      intro h
      rw [observeAll_cons]
      exact ih _ (shapedFields_observe node d h)

end Schema

namespace Inference

open Schema

/-- The states that adding documents leads to, one by one or many at once. -/
inductive Reachable : Inference → Prop where
  | start : Reachable start
  | add {i : Inference} (h : Reachable i) (d : Json) : Reachable (i.add d)
  | addAll {i : Inference} (h : Reachable i) (documents : List Json) :
      Reachable (i.addAll documents)

/-- What holds of the root in every state. -/
structure RootShape (root : Schema) : Prop where
  name_eq : root.name = rootName
  kind_eq : root.kind = .object
  shaped : Shaped root

theorem RootShape.observeAll {root : Schema} (h : RootShape root) (documents : List Json) :
    RootShape (root.observeAll documents).1 := by
  have hext := extends_observeAll root documents
  have hkind := hext.kind_eq.trans h.kind_eq
  have hfields := shapedFields_observeAll root documents (h.shaped.fields h.kind_eq)
  exact ⟨hext.name_eq.trans h.name_eq, hkind, hfields.shaped hkind⟩

theorem Reachable.rootShape {i : Inference} (h : Reachable i) : RootShape i.schema := by
  induction h with
  | start => exact ⟨rfl, rfl, .object shapedFields_nil⟩
  | add _ d ih => exact ih.observeAll [d]
  | addAll _ documents ih => exact ih.observeAll documents

end Inference

namespace Schema

/-- Below a schema of the shape every field is of the shape of a field. -/
theorem ShapedFields.of_mem_sortedFields {object field : Schema}
    (h : ShapedFields object.children) (hf : field ∈ object.sortedFields) : Shaped field := by
  obtain ⟨_, key, hc⟩ := mem_sortedFields hf
  cases h with
  | mk _ _ h => exact h _ hc

theorem element?_array (name : String) (element : Schema) :
    element? ⟨name, .array, [(elementKey, element)]⟩ = some element := by
  simp [element?, isArray, child, Keyed.get?_cons]

theorem Shaped.nested? {field object : Schema} (h : Shaped field)
    (ho : field.nested? = some object) : ShapedFields object.children := by
  cases h with
  | object h =>
      rw [nested?_of_isObject rfl] at ho
      obtain rfl := Option.some.inj ho
      exact h
  | @array name element h =>
      have hk := isObject_iff.mp (isObject_of_nested? ho)
      rw [Schema.nested?, if_neg (by simp [isObject]), element?_array] at ho
      obtain rfl := Option.some.inj (Option.filter_eq_some_iff.mp ho).1
      exact h.fields hk
  | scalar hno hna => simp [Schema.nested?, element?, isObject, isArray, hno, hna] at ho

/-- A field of the shape has a hint wherever its kind needs one. -/
theorem Shaped.hint_ne_none {field : Schema} (h : Shaped field)
    (hk : field.kind = .array ∨ field.kind = .object) (naming : Naming) (parent : String) :
    Generate.hint naming parent field ≠ .none := by
  cases h with
  | object _ => simp [Generate.hint]
  | @array name element _ =>
      simp only [Generate.hint, element?_array]
      split <;> simp
  | scalar ho ha =>
      rcases hk with hk | hk
      · exact absurd hk ha
      · exact absurd hk ho

end Schema

namespace Generate

open Schema

/-- The objects that get a record below a schema of the shape have its shape. -/
theorem Trace.shapedFields {naming : Naming} {name : String} {root : Schema}
    {events : List Event} (h : Trace naming name root events) (hroot : ShapedFields root.children)
    {record : String} {object : Schema} (hr : .reserve record object ∈ events) :
    ShapedFields object.children := by
  induction h generalizing record object with
  | start =>
      obtain ⟨rfl, rfl⟩ := Event.reserve.inj (List.mem_singleton.mp hr)
      exact hroot
  | @reserve events parent above field below _ hparent hf hb ih =>
      rcases List.mem_append.mp hr with hr | hr
      · exact ih hr
      · obtain ⟨rfl, rfl⟩ := Event.reserve.inj (List.mem_singleton.mp hr)
        exact ((ih hparent).of_mem_sortedFields hf).nested? hb
  | append _ _ _ ih => exact ih (by simpa using hr)

end Generate

namespace Schema

open Generate

/-- Spellings that agree wherever a hint is given for what needs one spell the
records of a schema of the shape alike. -/
theorem Shaped.records_congr {s : Schema} (h : Shaped s) {spell spell' : TypeSpelling}
    (hs : ∀ kind hint, (hint = .none → kind ≠ .array ∧ kind ≠ .object) →
      spell kind hint = spell' kind hint) (naming : Naming) :
    s.records naming spell = s.records naming spell' := by
  rw [records_eq_map_drafts, records_eq_map_drafts]
  apply List.map_congr_left
  intro draft hd
  have hdeclare : ∀ field ∈ draft.2,
      declare naming spell draft.1 field = declare naming spell' draft.1 field := by
    intro field hf
    rw [mem_drafts hd] at hf
    obtain ⟨hobject, object, hr, hfield⟩ := exists_object_of_mem_fieldsOf hf
    have htrace := trace_walk hobject naming naming.rootName
    have hshaped :=
      (htrace.shapedFields (h.fields (isObject_iff.mp hobject)) hr).of_mem_sortedFields
        hfield
    rw [declare, declare, hs]
    intro hnone
    refine ⟨fun hk => ?_, fun hk => ?_⟩
    · exact hshaped.hint_ne_none (Or.inl hk) naming draft.1 hnone
    · exact hshaped.hint_ne_none (Or.inr hk) naming draft.1 hnone
  rw [spelled, spelled, List.map_congr_left hdeclare]

end Schema

namespace Inference

open Schema

/-- In every state that calls lead to the root has its shape. Merging an object
keeps the shape of any object. And no spelling is ever asked for an array or an
object without a hint: spellings that differ only there give the same records of
every schema that was inferred. -/
theorem shape_of_reachable :
    (∀ i, Reachable i → RootShape i.schema) ∧
    (∀ (s : Schema) (members : List (String × Json)), s.kind = .object → Shaped s →
      (merge s members).name = s.name ∧ (merge s members).kind = .object ∧
        Shaped (merge s members)) ∧
    ∀ i, Reachable i → ∀ (naming : Naming) (spell spell' : TypeSpelling),
      (∀ kind hint, (hint = .none → kind ≠ .array ∧ kind ≠ .object) →
        spell kind hint = spell' kind hint) →
      i.schema.records naming spell = i.schema.records naming spell' := by
  refine ⟨fun i h => h.rootShape, ?_, ?_⟩
  · intro s members hk h
    have hext := extends_mergeMembers [] s members
    exact ⟨hext.name_eq, hext.kind_eq.trans hk, h.merge hk members⟩
  · intro i h naming spell spell' hs
    exact h.rootShape.shaped.records_congr hs naming

/-- A state with an array in an array, an object merged into its schema, and a
spelling that would show whether a hint was missing. -/
theorem shape_of_reachable_nested :
    let i := (start.add (.object [("a", .array [.array []]), ("content", .null)])).addAll
      [.array [.object [("b", .object [("content", .array [])])], .null]]
    let members : List (String × Json) := [("b", .object [("c", .array [.object []])])]
    let spell : TypeSpelling := fun kind hint =>
      if hint = .none ∧ (kind = .array ∨ kind = .object) then "missing"
      else Neutral.typeExpr kind hint
    Reachable i ∧ RootShape i.schema ∧ i.schema.kind = .object ∧ Shaped i.schema ∧
      Shaped (merge i.schema members) ∧
      (∀ kind hint, (hint = .none → kind ≠ .array ∧ kind ≠ .object) →
        Neutral.typeExpr kind hint = spell kind hint) ∧
      i.schema.records .standard Neutral.typeExpr = i.schema.records .standard spell := by
  intro i members spell
  have hi : Reachable i := (Reachable.start.add _).addAll _
  obtain ⟨hroot, hmerge, hspell⟩ := shape_of_reachable
  have hshape := hroot i hi
  obtain ⟨_, _, hmerged⟩ := hmerge i.schema members hshape.kind_eq hshape.shaped
  have hagree : ∀ kind hint, (hint = .none → kind ≠ .array ∧ kind ≠ .object) →
      Neutral.typeExpr kind hint = spell kind hint := by
    intro kind hint h
    refine (if_neg ?_).symm
    rintro ⟨hnone, hk | hk⟩
    · exact (h hnone).1 hk
    · exact (h hnone).2 hk
  exact ⟨hi, hshape, hshape.kind_eq, hshape.shaped, hmerged, hagree,
    hspell i hi .standard Neutral.typeExpr spell hagree⟩

end Inference

end JsonRecords
