import JsonRecords.Target.Identifier

/-!
# Scopes

Within one record no two fields may have the same identifier. A scope hands
out identifiers: the one asked for while it is free, and otherwise the first
free one with a numeric suffix, counted from two.
-/

namespace JsonRecords

/-- The identifiers handed out so far, latest first. -/
structure Scope where
  used : List String
deriving Repr

namespace Scope

def empty : Scope := ⟨[]⟩

def suffixed (ident : String) (n : Nat) : String :=
  ident ++ "_" ++ toString n

/-- The suffix that follows those found in one pass over used identifiers,
the earliest first, when they are looked for in rising order. It stands beside
its identifier. -/
def following (ident : String) : List String → Nat × String
  | [] => (2, suffixed ident 2)
  | u :: used =>
    let next := following ident used
    if u = next.2 then (next.1 + 1, suffixed ident (next.1 + 1)) else next

theorem following_snd (ident : String) (used : List String) :
    (following ident used).2 = suffixed ident (following ident used).1 := by
  induction used with
  | nil => rfl
  | cons u used ih =>
      simp only [following]
      split
      · rfl
      · exact ih

/-- No suffix before the following one is free. -/
theorem mem_of_lt_following {ident : String} {used : List String} {n : Nat} (h2 : 2 ≤ n)
    (hn : n < (following ident used).1) : suffixed ident n ∈ used := by
  induction used with
  | nil =>
      simp only [following] at hn
      omega
  | cons u used ih =>
      simp only [following] at hn
      split at hn
      · rename_i hu
        by_cases h : n < (following ident used).1
        · exact List.mem_cons_of_mem u (ih h)
        · have : n = (following ident used).1 := by omega
          rw [this, ← following_snd, ← hu]
          exact List.mem_cons_self
      · exact List.mem_cons_of_mem u (ih hn)

/-- The first suffix whose identifier is free. One of `used.length + 1`
candidates in a row is, since they are all different. -/
def freeSuffix (s : Scope) (ident : String) : Nat :=
  let start := (following ident s.used).1
  ((List.range' start (s.used.length + 1)).find? fun n =>
    !s.used.contains (suffixed ident n)).getD start

def answer (s : Scope) (ident : String) : String :=
  if s.used.contains ident then suffixed ident (s.freeSuffix ident) else ident

def claim (s : Scope) (ident : String) : String × Scope :=
  (s.answer ident, ⟨s.answer ident :: s.used⟩)

def claimAll (s : Scope) : List String → List String
  | [] => []
  | ident :: rest =>
    let (answer, s) := s.claim ident
    answer :: s.claimAll rest

@[simp] theorem claimAll_nil (s : Scope) : s.claimAll [] = [] := rfl

theorem claimAll_cons (s : Scope) (ident : String) (rest : List String) :
    s.claimAll (ident :: rest) = s.answer ident :: (s.claim ident).2.claimAll rest := rfl

@[simp] theorem length_claimAll (s : Scope) (idents : List String) :
    (s.claimAll idents).length = idents.length := by
  induction idents generalizing s with
  | nil => rfl
  | cons ident rest ih => simp [claimAll_cons, ih]

end Scope

end JsonRecords
