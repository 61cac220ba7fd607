import JsonRecords.Proofs.Keyed
import JsonRecords.Proofs.Schema.Extension

/-!
# What an object adds to a schema

Merging an object takes nothing away, at any depth and in a schema of any shape:
every position keeps its name, its kind and the keys below it in their order, new
keys coming after them (`Prolongs`). At the top the new keys are those of the
object that were missing, in its order, and a child whose key the object does not
have stays as it was (`merge_grows`).
-/

namespace JsonRecords

namespace Schema

open Keyed

/-- The same position, with more keys after those it had. -/
def Prolongs (s t : Schema) : Prop :=
  t.name = s.name ∧ t.kind = s.kind ∧ keys s.children <+: keys t.children

theorem keys_setChild (s : Schema) (key : String) (c : Schema) :
    keys (s.setChild key c).children =
      if key ∈ keys s.children then keys s.children else keys s.children ++ [key] :=
  keys_set key c s.children

theorem prolongs_setChild (s : Schema) (key : String) (c : Schema) :
    Prolongs s (s.setChild key c) := by
  refine ⟨rfl, rfl, ?_⟩
  rw [keys_setChild]
  split
  · exact List.prefix_rfl
  · exact List.prefix_append _ _

theorem Prolongs.trans {s t u : Schema} (hst : Prolongs s t) (htu : Prolongs t u) :
    Prolongs s u :=
  ⟨htu.1.trans hst.1, htu.2.1.trans hst.2.1, hst.2.2.trans htu.2.2⟩

theorem grows_prolongs : Grows (Everywhere Prolongs) :=
  grows_everywhere (fun _ => ⟨rfl, rfl, List.prefix_rfl⟩) (fun _ _ _ => Prolongs.trans)
    prolongs_setChild

/-- Members leave the children under other keys alone. -/
theorem child_mergeMembers_of_not_mem {members : Keyed String Json} {key : String}
    (h : key ∉ keys members) (path : Path) (node : Schema) :
    (mergeMembers path node members).1.child key = node.child key := by
  induction members generalizing node with
  | nil => rw [mergeMembers_nil]
  | cons member rest ih =>
      obtain ⟨k, v⟩ := member
      have hk : k ≠ key := (List.ne_of_not_mem_cons h).symm
      rw [mergeMembers_cons]
      simp only [ih (List.not_mem_of_not_mem_cons h), child_setChild, if_neg hk]

/-- Members add the keys that are missing, in their order. -/
theorem keys_mergeMembers {members : Keyed String Json} (h : (keys members).Nodup) (path : Path)
    (node : Schema) :
    keys (mergeMembers path node members).1.children =
      keys node.children ++ (keys members).filter (· ∉ keys node.children) := by
  induction members generalizing node with
  | nil => simp [keys]
  | cons member rest ih =>
      obtain ⟨k, v⟩ := member
      obtain ⟨hk, hrest⟩ := List.nodup_cons.mp h
      have hcons : keys ((k, v) :: rest) = k :: keys rest := rfl
      rw [mergeMembers_cons]
      simp only [ih hrest, keys_setChild, hcons]
      by_cases hm : k ∈ keys node.children
      · simp [hm]
      · -- the key that was just added is none of those still to come
        have hlater : (keys rest).filter (· ∉ keys node.children ++ [k]) =
            (keys rest).filter (· ∉ keys node.children) := by
          apply List.filter_congr
          intro key hkey
          have hne : key ≠ k := ne_of_mem_of_not_mem hkey hk
          simp [hne]
        rw [if_neg hm, hlater]
        simp [hm]

/-- Merging an object into a schema keeps every position, with its name, its kind and
the keys below it in front of new ones. It changes no child whose key the object
lacks, and adds at the top the members that were missing, in their order. -/
theorem merge_grows (node : Schema) {members : Keyed String Json} (h : (keys members).Nodup) :
    (∀ path c, at? path node = some c → ∃ d, at? path (merge node members) = some d ∧
        d.name = c.name ∧ d.kind = c.kind ∧ keys c.children <+: keys d.children) ∧
      (∀ key ∉ keys members, (merge node members).child key = node.child key) ∧
      keys (merge node members).children =
        keys node.children ++ (keys members).filter (· ∉ keys node.children) :=
  ⟨grows_prolongs.mergeMembers [] node members,
    fun _ hkey => child_mergeMembers_of_not_mem hkey [] node, keys_mergeMembers h [] node⟩

/-- A scalar with children: an array under a name that is not its key, which holds
something beside its elements. -/
def misshapen : Schema :=
  ⟨"n", .string, [("b", ⟨"x", .array, [("extra", leaf "extra" .null)]⟩), ("z", leaf "z" .number)]⟩

theorem merge_grows_misshapen :
    let members : Keyed String Json :=
      [("c", .null), ("b", .array [.object [("d", .bool true)]]), ("a", .object [])]
    let merged := merge misshapen members
    (keys members).Nodup ∧ keys merged.children = ["b", "z", "c", "a"] ∧
      merged.child "z" = some (leaf "z" .number) ∧
      ∃ d, at? [.field "b"] merged = some d ∧ d.name = "x" ∧ d.kind = .array ∧
        ["extra"] <+: keys d.children := by
  intro members merged
  have hn : (keys members).Nodup := by decide
  obtain ⟨hkept, hsame, hkeys⟩ := merge_grows misshapen hn
  exact ⟨hn, hkeys, hsame "z" (by decide), hkept [.field "b"] _ rfl⟩

end Schema

end JsonRecords
