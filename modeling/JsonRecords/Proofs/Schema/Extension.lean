import JsonRecords.Schema.Inference

/-!
# Schemas that extend one another

Merging changes a schema in one way only: it puts a child in place of one that
was merged into, or of none. So a relation that holds along such steps holds
along every merge (`Grows`), and one that compares positions does as soon as a
position may take any child (`grows_everywhere`).

`Extends s t` says that every position of `s` is a position of `t`, with the
same name and kind. Merging only ever extends a schema (`extends_meet`,
`extends_mergeMembers`), so what a position was recorded as is what it stays,
whatever is merged later.
-/

namespace JsonRecords

namespace Schema

/-- The key under which a step leads down. -/
def Step.key : Step → String
  | .field key => key
  | .element => elementKey

/-- The position at the end of a path. -/
def at? : Path → Schema → Option Schema
  | [], s => some s
  | step :: rest, s => (s.child step.key).bind (at? rest)

@[simp] theorem at?_nil (s : Schema) : at? [] s = some s := rfl

theorem at?_field (key : String) (path : Path) (s : Schema) :
    at? (.field key :: path) s = (s.child key).bind (at? path) := rfl

/-! ## What merging keeps -/

section Growth

variable {R : Schema → Schema → Prop}

/-- A relation that holds between a schema and all that it can grow to, one child
put in place of another at a time. -/
structure Grows (R : Schema → Schema → Prop) : Prop where
  refl (s : Schema) : R s s
  trans {s t u : Schema} (hst : R s t) (htu : R t u) : R s u
  setChild {s c : Schema} {key : String} (h : ∀ old, s.child key = some old → R old c) :
    R s (s.setChild key c)

/-- The child a value is met at grows in its place. -/
theorem Grows.setChild_getD (hR : Grows R) {s c new : Schema} {key : String}
    (h : R ((s.child key).getD new) c) : R s (s.setChild key c) := by
  apply hR.setChild
  intro old hold
  rwa [hold, Option.getD_some] at h

mutual

theorem Grows.meet (hR : Grows R) (path : Path) (node : Schema) (v : Json) :
    R node (meet path node v).1 := by
  rcases meet_cases node v with ⟨members, rfl, hk⟩ | ⟨items, rfl, hk⟩ | ⟨ho, ha⟩
  · rw [meet_object hk]
    exact hR.mergeMembers path node members
  · rw [meet_array hk]
    apply hR.setChild_getD
    exact hR.mergeElement (path ++ [.element]) _ items
  · rw [meet_of_ne ho ha]
    exact hR.refl node
termination_by (sizeOf v, 0)

theorem Grows.mergeMembers (hR : Grows R) (path : Path) (node : Schema)
    (members : List (String × Json)) : R node (mergeMembers path node members).1 := by
  cases members with
  | nil =>
      rw [mergeMembers_nil]
      exact hR.refl node
  | cons member rest =>
      obtain ⟨key, v⟩ := member
      rw [mergeMembers_cons]
      have hmet := hR.meet (path ++ [.field key]) ((node.child key).getD (leaf key v.kind)) v
      exact hR.trans (hR.setChild_getD hmet) (hR.mergeMembers path _ rest)
termination_by (sizeOf members, 0)

theorem Grows.mergeItems (hR : Grows R) (path : Path) (node : Schema) (items : List Json) :
    R node (mergeItems path node items).1 := by
  cases items with
  | nil =>
      rw [mergeItems_nil]
      exact hR.refl node
  | cons v rest =>
      rcases v.object_or_ne with ⟨members, rfl⟩ | hv
      · rw [mergeItems_object]
        exact hR.trans (hR.mergeMembers path node members) (hR.mergeItems path _ rest)
      · rw [mergeItems_of_ne hv]
        exact hR.mergeItems path node rest
termination_by (sizeOf items, 0)

theorem Grows.mergeElement (hR : Grows R) (path : Path) (element : Schema) (items : List Json) :
    R element (mergeElement path element items).1 := by
  by_cases hk : element.kind = .object
  · rw [mergeElement_object hk]
    exact hR.mergeItems path element items
  · rw [mergeElement_of_ne hk]
    exact hR.refl element
termination_by (sizeOf items, 1)

end

theorem Grows.observeItems (hR : Grows R) (node : Schema) (index : Nat) (items : List Json) :
    R node (observeItems node index items).1 := by
  induction items generalizing node index with
  | nil => exact hR.refl node
  | cons v rest ih =>
      rcases v.object_or_ne with ⟨members, rfl⟩ | hv
      · rw [observeItems_object]
        exact hR.trans (hR.mergeMembers [] node members) (ih _ _)
      · rw [observeItems_of_ne hv]
        exact ih node (index + 1)

theorem Grows.observe (hR : Grows R) (node : Schema) (d : Json) :
    R node (observe node d).1 := by
  cases d with
  | object members => exact hR.mergeMembers [] node members
  | array items => exact hR.observeItems node 0 items
  | _ => exact hR.refl node

theorem Grows.observeAll (hR : Grows R) (node : Schema) (documents : List Json) :
    R node (observeAll node documents).1 := by
  induction documents generalizing node with
  | nil => exact hR.refl node
  | cons d rest ih => exact hR.trans (hR.observe node d) (ih _)

/-- Every position of `s` is one of `t`, where a related schema stands. -/
def Everywhere (R : Schema → Schema → Prop) (s t : Schema) : Prop :=
  ∀ path c, at? path s = some c → ∃ d, at? path t = some d ∧ R c d

/-- What a position keeps whatever child it takes, all positions keep. -/
theorem grows_everywhere (hrefl : ∀ s, R s s) (htrans : ∀ s t u, R s t → R t u → R s u)
    (hset : ∀ s key c, R s (s.setChild key c)) : Grows (Everywhere R) where
  refl s path c hc := ⟨c, hc, hrefl c⟩
  trans hst htu path c hc := by
    obtain ⟨d, hd, hcd⟩ := hst path c hc
    obtain ⟨e, he, hde⟩ := htu path d hd
    exact ⟨e, he, htrans c d e hcd hde⟩
  setChild := by
    intro s c key h path d hd
    cases path with
    | nil =>
        obtain rfl := Option.some.inj hd
        exact ⟨_, rfl, hset s key c⟩
    | cons step rest =>
        rw [at?, Option.bind_eq_some_iff] at hd
        obtain ⟨old, hold, hd⟩ := hd
        rw [at?, child_setChild]
        by_cases hk : key = step.key
        · rw [if_pos hk]
          exact h old (hk ▸ hold) rest d hd
        · rw [if_neg hk, hold]
          exact ⟨d, hd, hrefl d⟩

end Growth

/-! ## Extensions -/

/-- Every position of `s` is one of `t`, of the same name and kind. -/
def Extends (s t : Schema) : Prop :=
  ∀ path c, at? path s = some c → ∃ d, at? path t = some d ∧ d.name = c.name ∧ d.kind = c.kind

theorem grows_extends : Grows Extends :=
  grows_everywhere (fun _ => ⟨rfl, rfl⟩)
    (fun _ _ _ hst htu => ⟨htu.1.trans hst.1, htu.2.trans hst.2⟩) (fun _ _ _ => ⟨rfl, rfl⟩)

theorem Extends.refl (s : Schema) : Extends s s :=
  grows_extends.refl s

theorem Extends.trans {s t u : Schema} (hst : Extends s t) (htu : Extends t u) : Extends s u :=
  grows_extends.trans hst htu

theorem Extends.kind_eq {s t : Schema} (h : Extends s t) : t.kind = s.kind := by
  obtain ⟨d, hd, _, hkind⟩ := h [] s rfl
  obtain rfl := Option.some.inj hd
  exact hkind

theorem Extends.name_eq {s t : Schema} (h : Extends s t) : t.name = s.name := by
  obtain ⟨d, hd, hname, _⟩ := h [] s rfl
  obtain rfl := Option.some.inj hd
  exact hname

/-- A child stays under its key, and is extended there. -/
theorem Extends.child {s t c : Schema} (h : Extends s t) {key : String}
    (hc : s.child key = some c) : ∃ d, t.child key = some d ∧ Extends c d := by
  obtain ⟨d, hd, _⟩ := h [.field key] c (by rw [at?_field, hc, Option.bind_some, at?_nil])
  have hd' : t.child key = some d := by
    rw [at?_field, Option.bind_eq_some_iff] at hd
    obtain ⟨u, hu, hd⟩ := hd
    rwa [← Option.some.inj hd]
  refine ⟨d, hd', ?_⟩
  intro path e he
  obtain ⟨e', he', hsame⟩ := h (.field key :: path) e (by rw [at?_field, hc, Option.bind_some, he])
  rw [at?_field, hd', Option.bind_some] at he'
  exact ⟨e', he', hsame⟩

theorem extends_meet (path : Path) (node : Schema) (v : Json) :
    Extends node (meet path node v).1 :=
  grows_extends.meet path node v

theorem extends_mergeMembers (path : Path) (node : Schema) (members : List (String × Json)) :
    Extends node (mergeMembers path node members).1 :=
  grows_extends.mergeMembers path node members

theorem extends_mergeItems (path : Path) (node : Schema) (items : List Json) :
    Extends node (mergeItems path node items).1 :=
  grows_extends.mergeItems path node items

theorem extends_mergeElement (path : Path) (element : Schema) (items : List Json) :
    Extends element (mergeElement path element items).1 :=
  grows_extends.mergeElement path element items

theorem extends_observeItems (node : Schema) (index : Nat) (items : List Json) :
    Extends node (observeItems node index items).1 :=
  grows_extends.observeItems node index items

theorem extends_observeAll (node : Schema) (documents : List Json) :
    Extends node (observeAll node documents).1 :=
  grows_extends.observeAll node documents

end Schema

end JsonRecords
