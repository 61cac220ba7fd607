import JsonRecords.Command.Run
import JsonRecords.Proofs.Json.Shape
import JsonRecords.Proofs.Schema.Shape
import JsonRecords.Schema.Codec

/-!
# Round trips

A schema and a list of records are read back from any way to write them. For a
schema the levels of nesting are the only bound: a node takes two, one for itself
and one for its children, which are left out where there are none.
-/

namespace JsonRecords

open Ascii Decode Encode

theorem Kind.settles_read (k : Kind) (levels : Nat) :
    Settles (Kind.read levels) (Utf8.ofString (quoted k.word)) (some k) :=
  settles_word (Kind.ofWord?_word k)

namespace Schema

/-! ## Schemas -/

theorem childrenToJson_eq_map (children : List (String × Schema)) :
    childrenToJson children = children.map fun c => (c.1, c.2.toJson) := by
  induction children with
  | nil => rfl
  | cons c children ih => rw [childrenToJson, ih, List.map_cons]

/-- Children are read in order, if each is read. -/
theorem settles_readChildren {bound : Nat} {item : Bytes → Except Fault (Schema × Bytes)}
    {children : List (String × Schema)} {text : Bytes} (hn : (Keyed.keys children).Nodup)
    (hw : Written (.object (childrenToJson children)) text) (hbound : text.length < bound)
    (hitem : ∀ c ∈ children, ∀ t, Written c.2.toJson t → t.length < bound →
      Settles item t (some c.2)) :
    Settles (readChildren bound (some item)) text (some children) := by
  obtain ⟨texts, body, h, hr, rfl⟩ := hw.exists_members
  rw [childrenToJson_eq_map, List.forall₂_map_left_iff] at h
  simp only [List.length_cons, List.length_append] at hbound
  have hupdates : List.Forall₂ (Updates (keyed item)) texts
      (children.map fun c entries => some (Keyed.set c.1 c.2 entries)) := by
    refine List.forall₂_map_right_iff.mpr (forall₂_of_mem h ?_).flip
    intro c hc t ht hw
    have hlength := hr.length_le_of_mem ht
    exact updates_keyed hw fun t' hw' hlt => hitem c hc t' hw' (by omega)
  intro gap rest hgap _
  have hopen : isBlank openBrace = false := by decide
  have hlength : body.length < bound := by omega
  have hrow := members_row hr hupdates hlength [] rest
  have hfold : children.foldlM (m := Option)
      (fun entries c => pure (Keyed.set c.1 c.2 entries)) [] = some children := by
    rw [List.foldlM_pure, Keyed.foldl_set (List.nil_append children ▸ hn)]
    rfl
  rw [List.foldlM_map] at hrow
  rw [List.cons_append, List.append_assoc, List.singleton_append, readChildren,
    skipBlank_append hgap, skipBlank_of_not hopen]
  exact hrow.trans (congrArg _ hfold)

/-- A node is read, if its children are. -/
theorem settles_record_slots (levels : Nat) {bound : Nat}
    (inner : Option (Bytes → Except Fault (Schema × Bytes))) {s : Schema} {text : Bytes}
    (hw : Written s.toJson text) (hbound : text.length < bound)
    (hchildren : s.children ≠ [] → ∀ t, Written (.object (childrenToJson s.children)) t →
      t.length < bound → Settles (readChildren bound inner) t (some s.children)) :
    Settles (Shape.record "struct SchemaNode" (slots bound inner) bound (levels + 1) .empty) text
      (some ⟨some s.name, some s.kind, if s.children = [] then none else some s.children⟩) := by
  obtain ⟨name, kind, children⟩ := s
  rw [toJson] at hw
  obtain ⟨texts, body, h, hr, rfl⟩ := hw.exists_members
  simp only [List.length_cons, List.length_append] at hbound
  have hname {t : Bytes} (hw : WrittenMember ("name", .string name) t) :
      Updates (Shape.member bound levels (slots bound inner)) t
        fun d => if d.name.isSome then none else some { d with name := some name } := by
    have hfind : (slots bound inner).find? (fun slot => slot.name = "name") = some _ := rfl
    refine updates_slot bound hfind hw fun t' hw' _ d => ?_
    rw [hw'.eq_quoted]
    exact (settles_string name).map fun name => { d with name := some name }
  have hkind {t : Bytes} (hw : WrittenMember ("kind", kind.toJson) t) :
      Updates (Shape.member bound levels (slots bound inner)) t
        fun d => if d.kind.isSome then none else some { d with kind := some kind } := by
    have hfind : (slots bound inner).find? (fun slot => slot.name = "kind") = some _ := rfl
    refine updates_slot bound hfind hw fun t' hw' _ d => ?_
    rw [hw'.eq_quoted]
    exact (kind.settles_read levels).map fun kind => { d with kind := some kind }
  by_cases hc : children = []
  · subst hc
    rcases h with _ | ⟨h₁, _ | ⟨h₂, _ | _⟩⟩
    exact settles_record hr (.cons (hname h₁) (.cons (hkind h₂) .nil)) (by omega) rfl rfl
  have hbelow {t : Bytes} (hlength : t.length < bound)
      (hw : WrittenMember ("children", .object (childrenToJson children)) t) :
      Updates (Shape.member bound levels (slots bound inner)) t
        fun d => if d.children.isSome then none else some { d with children := some children } := by
    have hfind : (slots bound inner).find? (fun slot => slot.name = "children") = some _ := rfl
    refine updates_slot bound hfind hw fun t' hw' hlt d => ?_
    exact (hchildren hc t' hw' (by omega)).map fun children => { d with children := some children }
  rw [List.isEmpty_eq_false_iff.mpr hc] at h
  rcases h with _ | ⟨h₁, _ | ⟨h₂, _ | ⟨h₃, _ | _⟩⟩⟩
  have hlength := hr.length_le_of_mem
    (List.mem_cons_of_mem _ (List.mem_cons_of_mem _ List.mem_cons_self))
  rw [if_neg hc]
  exact settles_record hr
    (.cons (hname h₁) (.cons (hkind h₂) (.cons (hbelow (by omega) h₃) .nil))) (by omega) rfl rfl

theorem depth_pos (s : Schema) : 0 < s.toJson.depth := by
  obtain ⟨name, kind, children⟩ := s
  rw [toJson, Json.depth]
  exact Nat.succ_pos _

theorem depth_le_depthMembers {members : List (String × Json)} {m : String × Json}
    (hm : m ∈ members) : m.2.depth ≤ Json.depthMembers members := by
  induction members with
  | nil => simp at hm
  | cons m' members ih =>
      rw [Json.depthMembers]
      rcases List.mem_cons.mp hm with rfl | hm
      · exact Nat.le_max_left _ _
      · exact Nat.le_trans (ih hm) (Nat.le_max_right _ _)

/-- A node and its list of children are two containers around each child. -/
theorem depth_child_lt {s : Schema} {c : String × Schema} (hc : c ∈ s.children) :
    c.2.toJson.depth + 2 ≤ s.toJson.depth := by
  obtain ⟨name, kind, children⟩ := s
  have hne : children.isEmpty = false := List.isEmpty_eq_false_iff.mpr (List.ne_nil_of_mem hc)
  have hmem : (c.1, c.2.toJson) ∈ childrenToJson children := by
    rw [childrenToJson_eq_map]
    exact List.mem_map_of_mem hc
  have hchild : c.2.toJson.depth ≤ _ := depth_le_depthMembers hmem
  have hmembers : ("children", Json.object (childrenToJson children)) ∈
      [("name", .string name), ("kind", kind.toJson)] ++
        [("children", .object (childrenToJson children))] := by simp
  have hbelow := depth_le_depthMembers hmembers
  rw [toJson, hne, Json.depth]
  simp only [Json.depth, Bool.false_eq_true, if_false] at hbelow ⊢
  omega

/-- A schema is read off any way to write it that nests no deeper than allowed. -/
theorem settles_read : ∀ (levels : Nat) {s : Schema}, Distinct s → s.toJson.depth ≤ levels →
    ∀ {text : Bytes}, Written s.toJson text → ∀ {bound : Nat}, text.length < bound →
      Settles (read bound levels) text (some s)
  | 0, s, _, hdepth, _, _, _, _ => absurd hdepth (Nat.not_le.mpr s.depth_pos)
  | 1, s, _, hdepth, _, hw, bound, hbound => by
      have hnone : s.children = [] := by
        rw [List.eq_nil_iff_forall_not_mem]
        intro c hc
        have hlt := depth_child_lt hc
        omega
      have h := (settles_record_slots 0 none hw hbound
        (absurd hnone)).map Draft.finish
      rw [if_pos hnone] at h
      obtain ⟨name, kind, children⟩ := s
      obtain rfl : children = [] := hnone
      exact h
  | n + 2, s, hd, hdepth, _, hw, bound, hbound => by
      have h := (settles_record_slots (n + 1) (some (read bound n)) hw hbound
        fun _ t hw' hlt => by
          cases hd with
          | node hn hd =>
              refine settles_readChildren hn hw' hlt fun c hc t' hw' hlt => ?_
              have hchild := depth_child_lt hc
              exact settles_read n (hd c hc) (by omega) hw' hlt).map Draft.finish
      obtain ⟨name, kind, children⟩ := s
      by_cases hc : children = []
      · subst hc
        exact h
      · rw [if_neg hc] at h
        exact h

end Schema

/-! ## Records -/

namespace PairDraft

/-- A record of two parts is read, if each part is. -/
theorem settles_record {α β : Type} {first second : String} {bound levels : Nat} (wanted : String)
    (readFirst : Nat → Bytes → Except Fault (α × Bytes))
    (readSecond : Nat → Bytes → Except Fault (β × Bytes)) {v w : Json} {a : α} {b : β}
    {text : Bytes} (hne : first ≠ second) (hw : Written (.object [(first, v), (second, w)]) text)
    (hbound : text.length < bound)
    (hfirst : ∀ t, Written v t → t.length < bound → Settles (readFirst levels) t (some a))
    (hsecond : ∀ t, Written w t → t.length < bound → Settles (readSecond levels) t (some b)) :
    Settles (Shape.record wanted [firstSlot first readFirst, secondSlot second readSecond] bound
      (levels + 1) .empty) text (some ⟨some a, some b⟩) := by
  obtain ⟨texts, body, h, hr, rfl⟩ := hw.exists_members
  simp only [List.length_cons, List.length_append] at hbound
  rcases h with _ | ⟨h₁, _ | ⟨h₂, _ | _⟩⟩
  have hlength₁ := hr.length_le_of_mem List.mem_cons_self
  have hlength₂ := hr.length_le_of_mem (List.mem_cons_of_mem _ List.mem_cons_self)
  have hfind₁ : [firstSlot first readFirst, secondSlot second readSecond].find?
      (fun slot => slot.name = first) = some (firstSlot first readFirst) := by
    simp [firstSlot]
  have hfind₂ : [firstSlot first readFirst, secondSlot second readSecond].find?
      (fun slot => slot.name = second) = some (secondSlot second readSecond) := by
    simp [firstSlot, secondSlot, hne]
  have hfill₁ (t : Bytes) (hw' : Written v t) (hlt : t.length < bound) (d : PairDraft α β) :
      Settles ((firstSlot first readFirst).fill levels d) t (some { d with first := some a }) :=
    (hfirst t hw' hlt).map fun a => ({ d with first := some a } : PairDraft α β)
  have hfill₂ (t : Bytes) (hw' : Written w t) (hlt : t.length < bound) (d : PairDraft α β) :
      Settles ((secondSlot second readSecond).fill levels d) t (some { d with second := some b }) :=
    (hsecond t hw' hlt).map fun b => ({ d with second := some b } : PairDraft α β)
  have hupdates₁ := updates_slot bound hfind₁ h₁ fun t hw' hlt => hfill₁ t hw' (by omega)
  have hupdates₂ := updates_slot bound hfind₂ h₂ fun t hw' hlt => hfill₂ t hw' (by omega)
  exact Decode.settles_record hr (.cons hupdates₁ (.cons hupdates₂ .nil)) (by omega) rfl rfl

end PairDraft

theorem settles_readText {s : String} {t : Bytes} (hw : Written (.string s) t) (levels : Nat) :
    Settles (readText levels) t (some s) := by
  rw [hw.eq_quoted]
  exact settles_string s

theorem FieldDecl.settles_read {f : FieldDecl} {text : Bytes} {bound levels : Nat}
    (hw : Written f.toJson text) (hbound : text.length < bound) :
    Settles (FieldDecl.read bound (levels + 1)) text (some f) := by
  have h := PairDraft.settles_record "struct FieldDecl" readText readText (by decide) hw hbound
    (fun _ hw' _ => settles_readText hw' levels) (fun _ hw' _ => settles_readText hw' levels)
  exact h.map fun d => (⟨d.first.getD "", d.second.getD ""⟩ : FieldDecl)

/-- A list of objects is read, if each object is. -/
theorem settles_list_map {α : Type} {toJson : α → Json}
    {item : Nat → Bytes → Except Fault (α × Bytes)} {values : List α} {text : Bytes}
    {bound levels : Nat} (hobject : ∀ v, ∃ members, toJson v = .object members)
    (hw : Written (.array (values.map toJson)) text) (hbound : text.length < bound)
    (h : ∀ v t, Written (toJson v) t → t.length < bound → Settles (item levels) t (some v)) :
    Settles (Shape.list bound (levels + 1) item) text (some values) := by
  obtain ⟨texts, body, hitems, hr, rfl⟩ := hw.exists_items
  rw [List.forall₂_map_left_iff] at hitems
  simp only [List.length_cons, List.length_append] at hbound
  refine settles_list hr (forall₂_of_mem hitems fun v _ t ht hw => ?_) ?_ (by omega)
  · have hlength := hr.length_le_of_mem ht
    exact h v t hw (by omega)
  · refine forall_mem_of_forall₂ hitems fun v t hw => ?_
    obtain ⟨members, hv⟩ := hobject v
    rw [hv] at hw
    exact hw.begins_object

theorem RecordDecl.settles_read {r : RecordDecl} {text : Bytes} {bound levels : Nat}
    (hw : Written r.toJson text) (hbound : text.length < bound) :
    Settles (RecordDecl.read bound (levels + 3)) text (some r) := by
  have hfields (t : Bytes) (hw' : Written (.array (r.fields.map FieldDecl.toJson)) t)
      (hlt : t.length < bound) :
      Settles (Shape.list bound (levels + 2) (FieldDecl.read bound)) t (some r.fields) :=
    settles_list_map (fun f => ⟨_, rfl⟩) hw' hlt fun _ _ hw'' hlt' =>
      FieldDecl.settles_read hw'' hlt'
  have h := PairDraft.settles_record "struct ClassDecl" readText
    (fun levels => Shape.list bound levels (FieldDecl.read bound)) (by decide) hw hbound
    (fun _ hw' _ => settles_readText hw' (levels + 2)) hfields
  exact h.map fun d => (⟨d.first.getD "", d.second.getD []⟩ : RecordDecl)

/-! ## Whole texts -/

theorem whole_of_settles {α : Type} (read : (bound : Nat) → Bytes → Except Fault (α × Bytes))
    {text gap : Bytes} {v : α} (hgap : Blank gap)
    (h : Settles (read ((text ++ gap).length + 1)) text (some v)) :
    whole read (text ++ gap) = .ok v :=
  toOption_eq_some_iff.mp (whole_settles read blank_nil hgap h)

/-- The line feed at the end of a source text is a blank to a decoder. -/
theorem exists_terminated_eq (text : Bytes) :
    ∃ gap, Blank gap ∧ terminated text = text ++ gap := by
  by_cases h : endsInNewline text = true
  · exact ⟨[], blank_nil, by rw [terminated, if_pos h, List.append_nil]⟩
  · exact ⟨[lineFeed], blank_cons.mpr ⟨rfl, blank_nil⟩, if_neg h⟩

theorem Schema.decode_written {s : Schema} (hd : s.Distinct)
    (hdepth : s.toJson.depth ≤ Shape.depthLimit) {text : Bytes} (hw : Written s.toJson text) :
    Schema.decode text = .ok s := by
  have hbound : text.length < (text ++ []).length + 1 := by simp
  have h := whole_of_settles (fun bound => Schema.read bound Shape.depthLimit) blank_nil
    (Schema.settles_read Shape.depthLimit hd hdepth hw hbound)
  rwa [List.append_nil] at h

theorem RecordDecl.decodeList_written {rs : List RecordDecl} {text gap : Bytes}
    (hw : Written (RecordDecl.listToJson rs) text) (hgap : Blank gap) :
    RecordDecl.decodeList (text ++ gap) = .ok rs := by
  have hbound : text.length < (text ++ gap).length + 1 := by
    rw [List.length_append]
    omega
  exact whole_of_settles _ hgap (settles_list_map (fun r => ⟨_, rfl⟩) hw hbound
    fun _ _ hw' hlt => RecordDecl.settles_read hw' hlt)

/-- A schema without two children under one key is decoded from both layouts, if
it nests no deeper than allowed, and records are decoded from what a run that asks
for them prints. -/
theorem decode_encoded :
    (∀ s : Schema, s.Distinct → s.toJson.depth ≤ Shape.depthLimit →
      Schema.decode (Utf8.ofString (compact s.toJson)) = .ok s ∧
        Schema.decode (Utf8.ofString (pretty s.toJson)) = .ok s) ∧
    ∀ (o : Options) (target : Target) (log : List Log.Line) (files : FileTree)
      (rs : List RecordDecl), o.dump = true → o.output = none →
        RecordDecl.decodeList
          (Command.deliver o log (Command.output o target rs) files).stdout = .ok rs := by
  constructor
  · intro s hd hdepth
    exact ⟨Schema.decode_written hd hdepth (written_compact _),
      Schema.decode_written hd hdepth (written_pretty _)⟩
  · intro o target log files rs hdump houtput
    obtain ⟨gap, hgap, htext⟩ :=
      exists_terminated_eq (Utf8.ofString (pretty (RecordDecl.listToJson rs)))
    rw [Command.deliver, houtput, Command.output, if_pos hdump]
    change RecordDecl.decodeList (terminated _) = _
    rw [htext]
    exact RecordDecl.decodeList_written (written_pretty _) hgap

/-- A node that is no object and still has children, with names that need
escapes. -/
def crooked : Schema :=
  ⟨"\"\\\n\x01", .string, [("é", Schema.leaf "" .array), ("", ⟨"\t", .null, [("", Schema.root)]⟩)]⟩

def dumping : Options :=
  ⟨none, false, "rust", none, none, none, true⟩

theorem decode_encoded_crooked :
    crooked.Distinct ∧ crooked.toJson.depth ≤ Shape.depthLimit ∧
      Schema.decode (Utf8.ofString (compact crooked.toJson)) = .ok crooked ∧
      Schema.decode (Utf8.ofString (pretty crooked.toJson)) = .ok crooked ∧
      RecordDecl.decodeList
        (Command.deliver dumping [] (Command.output dumping .rust [⟨"\"", [⟨"\n", ""⟩]⟩])
          (FileTree.bare [])).stdout = .ok [⟨"\"", [⟨"\n", ""⟩]⟩] := by
  have hd : crooked.Distinct := by
    refine .node (by decide) fun c hc => ?_
    rcases List.mem_cons.mp hc with rfl | hc
    · exact Schema.distinct_leaf _ _
    · obtain rfl := List.mem_singleton.mp hc
      refine .node (by decide) fun c hc => ?_
      obtain rfl := List.mem_singleton.mp hc
      exact Schema.distinct_leaf _ _
  have hdepth : crooked.toJson.depth ≤ Shape.depthLimit := by decide
  have h := decode_encoded.1 crooked hd hdepth
  exact ⟨hd, hdepth, h.1, h.2, decode_encoded.2 dumping .rust [] _ _ rfl rfl⟩

end JsonRecords
