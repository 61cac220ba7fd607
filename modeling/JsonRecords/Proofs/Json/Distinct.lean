import JsonRecords.Document
import JsonRecords.Proofs.Except
import JsonRecords.Proofs.Keyed
import JsonRecords.Proofs.Observed

/-!
# Values that hold no key twice

Member lists may hold a key twice; the decoder never gives one that does, since
it puts a member under its key (`Json.distinct_decode`). Members of a distinct
object may be read by key in any order.
-/

namespace JsonRecords

namespace Json

open Observed

/-- No object in a value holds a key twice. -/
inductive Distinct : Json → Prop where
  | scalar {v : Json} (ho : v.kind ≠ .object) (ha : v.kind ≠ .array) : Distinct v
  | array {items : List Json} (h : ∀ v ∈ items, Distinct v) : Distinct (.array items)
  | object {members : List (String × Json)} (hn : (Keyed.keys members).Nodup)
      (h : ∀ m ∈ members, Distinct m.2) : Distinct (.object members)

@[simp] theorem distinct_null : Distinct .null :=
  .scalar nofun nofun

@[simp] theorem distinct_bool (value : Bool) : Distinct (.bool value) :=
  .scalar nofun nofun

@[simp] theorem distinct_number (value : Number) : Distinct (.number value) :=
  .scalar nofun nofun

@[simp] theorem distinct_string (value : String) : Distinct (.string value) :=
  .scalar nofun nofun

@[simp] theorem distinct_array {items : List Json} :
    Distinct (.array items) ↔ ∀ v ∈ items, v.Distinct := by
  constructor
  · intro h
    cases h with
    | scalar _ ha => exact absurd rfl ha
    | array h => exact h
  · exact .array

@[simp] theorem distinct_object {members : List (String × Json)} :
    Distinct (.object members) ↔
      (Keyed.keys members).Nodup ∧ ∀ m ∈ members, m.2.Distinct := by
  constructor
  · intro h
    cases h with
    | scalar ho _ => exact absurd rfl ho
    | object hn h => exact ⟨hn, h⟩
  · rintro ⟨hn, h⟩
    exact .object hn h

theorem Distinct.set {members : Keyed String Json} {v : Json} (h : Distinct (.object members))
    (hv : v.Distinct) (key : String) : Distinct (.object (Keyed.set key v members)) := by
  obtain ⟨hn, h⟩ := distinct_object.mp h
  refine .object (Keyed.nodup_keys_set hn key v) ?_
  intro m hm
  rcases Keyed.mem_or_eq_of_mem_set hm with hm | rfl
  · exact h m hm
  · exact hv

end Json

namespace Decode

/-- What a reader of items ensures of each, the list of items has of all. -/
theorem forall_mem_of_items {α : Type} {P : α → Prop} {item : Bytes → Except Fault (α × Bytes)}
    (hitem : ∀ s v rest, item s = .ok (v, rest) → P v) {bound : Nat} {first : Bool}
    {done vs : List α} {s rest : Bytes} (h : items item bound first done s = .ok (vs, rest))
    (hdone : ∀ v ∈ done, P v) : ∀ v ∈ vs, P v := by
  induction bound generalizing first done s with
  | zero => simp [items] at h
  | succ n ih =>
      rw [items] at h
      obtain ⟨next, hnext, h⟩ := bind_eq_ok.mp h
      cases next with
      | close s =>
          obtain ⟨rfl, rfl⟩ := Prod.mk.inj (pure_eq_ok.mp h)
          simpa using hdone
      | item s =>
          obtain ⟨⟨v, s⟩, hv, h⟩ := bind_eq_ok.mp h
          exact ih h (List.forall_mem_cons.mpr ⟨hitem _ v s hv, hdone⟩)

/-- What every member keeps of the state, all of them keep. -/
theorem inv_of_members {σ : Type} {I : σ → Prop}
    {member : σ → String → Bytes → Except Fault (σ × Bytes)}
    (hmember : ∀ state key s state' rest, member state key s = .ok (state', rest) →
      I state → I state') {bound : Nat} {first : Bool} {state state' : σ} {s rest : Bytes}
    (h : members member bound first state s = .ok (state', rest)) (hstate : I state) :
    I state' := by
  induction bound generalizing first state s with
  | zero => simp [members] at h
  | succ n ih =>
      rw [members] at h
      obtain ⟨next, hnext, h⟩ := bind_eq_ok.mp h
      cases next with
      | close s =>
          obtain ⟨rfl, rfl⟩ := Prod.mk.inj (pure_eq_ok.mp h)
          exact hstate
      | item s =>
          obtain ⟨⟨key, s⟩, hkey, h⟩ := bind_eq_ok.mp h
          obtain ⟨⟨more, s⟩, hmore, h⟩ := bind_eq_ok.mp h
          exact ih h (hmember _ key _ more s hmore hstate)

theorem distinct_of_keyed {item : Bytes → Except Fault (Json × Bytes)}
    (hitem : ∀ s v rest, item s = .ok (v, rest) → v.Distinct) {members members' : Keyed String Json}
    {key : String} {s rest : Bytes} (h : keyed item members key s = .ok (members', rest))
    (hd : (Json.object members).Distinct) : (Json.object members').Distinct := by
  obtain ⟨s, hcolon, h⟩ := bind_eq_ok.mp h
  obtain ⟨⟨v, s⟩, hv, h⟩ := bind_eq_ok.mp h
  obtain ⟨rfl, rfl⟩ := Prod.mk.inj (pure_eq_ok.mp h)
  exact hd.set (hitem _ v _ hv) key

theorem distinct_of_valueWith {bound : Nat} {inner : Option (Bytes → Except Fault (Json × Bytes))}
    (hinner : ∀ item ∈ inner, ∀ s v rest, item s = .ok (v, rest) → v.Distinct) {s rest : Bytes}
    {v : Json} (h : valueWith bound inner s = .ok (v, rest)) : v.Distinct := by
  rw [valueWith] at h
  cases hs : Ascii.skipBlank s with
  | nil => simp [hs] at h
  | cons b s =>
      simp only [hs] at h
      split at h
      · obtain ⟨_, _, h⟩ := bind_eq_ok.mp h
        obtain ⟨rfl, rfl⟩ := Prod.mk.inj (pure_eq_ok.mp h)
        exact Json.distinct_null
      split at h
      · obtain ⟨_, _, h⟩ := bind_eq_ok.mp h
        obtain ⟨rfl, rfl⟩ := Prod.mk.inj (pure_eq_ok.mp h)
        exact Json.distinct_bool true
      split at h
      · obtain ⟨_, _, h⟩ := bind_eq_ok.mp h
        obtain ⟨rfl, rfl⟩ := Prod.mk.inj (pure_eq_ok.mp h)
        exact Json.distinct_bool false
      split at h
      · obtain ⟨⟨text, _⟩, _, h⟩ := bind_eq_ok.mp h
        obtain ⟨rfl, rfl⟩ := Prod.mk.inj (pure_eq_ok.mp h)
        exact Json.distinct_string text
      split at h
      · cases inner with
        | none => simp at h
        | some item =>
            obtain ⟨⟨vs, _⟩, hvs, h⟩ := bind_eq_ok.mp h
            obtain ⟨rfl, rfl⟩ := Prod.mk.inj (pure_eq_ok.mp h)
            exact .array (forall_mem_of_items (hinner item rfl) hvs (List.forall_mem_nil _))
      split at h
      · cases inner with
        | none => simp at h
        | some item =>
            obtain ⟨⟨ms, _⟩, hms, h⟩ := bind_eq_ok.mp h
            obtain ⟨rfl, rfl⟩ := Prod.mk.inj (pure_eq_ok.mp h)
            refine inv_of_members (I := fun ms => (Json.object ms).Distinct) ?_ hms ?_
            · intro members key s members' rest hkeyed hd
              exact distinct_of_keyed (hinner item rfl) hkeyed hd
            · exact .object List.nodup_nil (List.forall_mem_nil _)
      split at h
      · obtain ⟨⟨n, _⟩, _, h⟩ := bind_eq_ok.mp h
        obtain ⟨rfl, rfl⟩ := Prod.mk.inj (pure_eq_ok.mp h)
        exact Json.distinct_number n
      · simp at h

theorem distinct_of_value {bound levels : Nat} {s rest : Bytes} {v : Json}
    (h : value bound levels s = .ok (v, rest)) : v.Distinct := by
  induction levels generalizing s v rest with
  | zero =>
      rw [value] at h
      exact distinct_of_valueWith (by simp) h
  | succ n ih =>
      rw [value] at h
      refine distinct_of_valueWith ?_ h
      intro item hitem s v rest hv
      obtain rfl := Option.some.inj hitem
      exact ih hv

end Decode

/-- A decoded value holds no key twice. -/
theorem Json.distinct_decode {levels : Nat} {text : Bytes} {v : Json}
    (h : Json.decode levels text = .ok v) : v.Distinct := by
  obtain ⟨⟨w, s⟩, hw, h⟩ := bind_eq_ok.mp h
  obtain ⟨_, _, h⟩ := bind_eq_ok.mp h
  obtain rfl := pure_eq_ok.mp h
  exact Decode.distinct_of_value hw

theorem Document.distinct_decode {text : Bytes} {v : Json} (h : Document.decode text = .ok v) :
    v.Distinct := by
  rw [Document.decode] at h
  split at h
  · exact Json.distinct_decode h
  · split at h
    · next hv =>
      obtain rfl := Except.ok.inj h
      exact Json.distinct_decode hv
    · exact Json.distinct_decode h

end JsonRecords
