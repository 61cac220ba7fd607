/-!
# Keyed lists

Members of an object, children of a schema and entries of a file tree are pairs
in the order the keys were first seen. `set` keeps the first place of a key and
its latest value, so `get?` after `set` gives what was set (`get?_set`) and a
new key comes last (`keys_set`).
-/

namespace JsonRecords

/-- Values under keys, in order of first occurrence. -/
abbrev Keyed (κ α : Type) := List (κ × α)

namespace Keyed

variable {κ α : Type}

def keys (entries : Keyed κ α) : List κ :=
  entries.map Prod.fst

def values (entries : Keyed κ α) : List α :=
  entries.map Prod.snd

variable [DecidableEq κ]

def get? (key : κ) : Keyed κ α → Option α
  | [] => none
  | (k, v) :: rest => if k = key then some v else get? key rest

/-- Puts a value under a key: in the key's place, or at the end if the key is
new. -/
def set (key : κ) (value : α) : Keyed κ α → Keyed κ α
  | [] => [(key, value)]
  | (k, v) :: rest => if k = key then (k, value) :: rest else (k, v) :: set key value rest

@[simp] theorem get?_nil (key : κ) : get? key ([] : Keyed κ α) = none := rfl

theorem get?_cons (key k : κ) (v : α) (rest : Keyed κ α) :
    get? key ((k, v) :: rest) = if k = key then some v else get? key rest := rfl

@[simp] theorem set_nil (key : κ) (value : α) :
    set key value ([] : Keyed κ α) = [(key, value)] := rfl

theorem set_cons (key k : κ) (value v : α) (rest : Keyed κ α) :
    set key value ((k, v) :: rest) =
      if k = key then (k, value) :: rest else (k, v) :: set key value rest := rfl

/-- Reading a key after writing it gives what was written; every other key
reads as before. -/
theorem get?_set (key other : κ) (value : α) (entries : Keyed κ α) :
    get? other (set key value entries) =
      if key = other then some value else get? other entries := by
  induction entries with
  | nil => simp [get?_cons]
  | cons entry rest ih =>
      obtain ⟨k, v⟩ := entry
      by_cases hk : k = key
      · subst hk
        by_cases ho : k = other <;> simp [set_cons, get?_cons, ho]
      · by_cases ho : key = other
        · subst ho
          simp [set_cons, get?_cons, hk, ih]
        · simp [set_cons, get?_cons, hk, ih, ho]

/-- Writing a key adds it at the end or leaves the keys as they are. -/
theorem keys_set (key : κ) (value : α) (entries : Keyed κ α) :
    keys (set key value entries) =
      if key ∈ keys entries then keys entries else keys entries ++ [key] := by
  induction entries with
  | nil => simp [keys]
  | cons entry rest ih =>
      obtain ⟨k, v⟩ := entry
      by_cases hk : k = key
      · simp [set_cons, keys, hk]
      · have hk' : key ≠ k := fun h => hk h.symm
        simp only [keys] at ih
        by_cases hm : key ∈ rest.map Prod.fst
        · simp only [hm, if_true] at ih
          simp [set_cons, keys, hk, ih, hm]
        · simp only [hm, if_false] at ih
          simp [set_cons, keys, hk, hk', ih, hm]

end Keyed

end JsonRecords
