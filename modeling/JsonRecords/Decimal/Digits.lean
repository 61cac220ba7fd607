/-!
# Rows of digits

The number that a row of digits denotes. Neighbours are joined to digits of
the squared base, over and over, so that long rows cost few multiplications of
large numbers. `joined_eq` says that this is the sum of the digits by their
powers of the base, and `ofDigits_eq` that it is the reading from left to
right.
-/

namespace JsonRecords

namespace Digits

/-- Joins each digit at an even place with the next higher one. The lowest
digit comes first. -/
def joinPairs (base : Nat) : List Nat → List Nat
  | low :: high :: rest => (low + base * high) :: joinPairs base rest
  | [digit] => [digit]
  | [] => []

/-- The value of digits, the lowest first, by the powers of their base. -/
def value (base : Nat) : List Nat → Nat
  | [] => 0
  | digit :: rest => digit + base * value base rest

/-- The value of digits, the lowest first, after a number of rounds of
joining. -/
def joined (base : Nat) : (rounds : Nat) → List Nat → Nat
  | 0, digits => value base digits
  | n + 1, digits => joined (base * base) n (joinPairs base digits)

theorem value_joinPairs (base : Nat) (digits : List Nat) :
    value (base * base) (joinPairs base digits) = value base digits := by
  fun_induction joinPairs base digits with
  | case1 low high rest ih => simp [value, ih, Nat.mul_add, Nat.mul_assoc, Nat.add_assoc]
  | case2 digit => simp [value]
  | case3 => rfl

theorem joined_eq (base rounds : Nat) (digits : List Nat) :
    joined base rounds digits = value base digits := by
  induction rounds generalizing base digits with
  | zero => rfl
  | succ n ih => rw [joined, ih, value_joinPairs]

theorem value_append (base : Nat) (digits more : List Nat) :
    value base (digits ++ more) =
      value base digits + Nat.pow base digits.length * value base more := by
  induction digits with
  | nil => simp [value]
  | cons digit rest ih =>
      simp [value, ih, Nat.mul_add, Nat.pow_succ', Nat.mul_assoc, Nat.add_assoc]

/-- The number that a row of digits denotes, the highest first. -/
def ofDigits (base : Nat) (digits : List Nat) : Nat :=
  joined base (digits.length.log2 + 1) digits.reverse

@[simp] theorem ofDigits_nil (base : Nat) : ofDigits base [] = 0 := by
  simp [ofDigits, joined_eq, value]

/-- A further digit at the end moves those before it up by one place. -/
theorem ofDigits_append_singleton (base : Nat) (digits : List Nat) (digit : Nat) :
    ofDigits base (digits ++ [digit]) = base * ofDigits base digits + digit := by
  simp [ofDigits, joined_eq, value, Nat.add_comm]

theorem foldl_eq (base : Nat) (digits : List Nat) (n : Nat) :
    digits.foldl (fun n d => base * n + d) n =
      Nat.pow base digits.length * n + value base digits.reverse := by
  induction digits generalizing n with
  | nil => simp [value]
  | cons digit rest ih =>
      rw [List.foldl_cons, ih, List.reverse_cons, value_append]
      simp only [value, List.length_reverse, List.length_cons, Nat.mul_add, Nat.pow_eq,
        Nat.pow_succ, Nat.mul_assoc]
      omega

/-- The number of a row is the one read from left to right. -/
theorem ofDigits_eq (base : Nat) (digits : List Nat) :
    ofDigits base digits = digits.foldl (fun n d => base * n + d) 0 := by
  simp [ofDigits, joined_eq, foldl_eq]

end Digits

end JsonRecords
