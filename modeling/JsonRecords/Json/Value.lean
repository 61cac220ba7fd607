import JsonRecords.Keyed

/-!
# JSON values

Objects keep their members in order of first occurrence. A number is an
integer that fits 64 bits, or the bits of a binary64 number; both are of the
one kind `number`.
-/

namespace JsonRecords

inductive Kind where
  | string
  | number
  | object
  | array
  | boolean
  | null
deriving DecidableEq, Repr

namespace Kind

def word : Kind → String
  | string => "string"
  | number => "number"
  | object => "object"
  | array => "array"
  | boolean => "boolean"
  | null => "null"

/-- All kinds, in the order in which messages list them. -/
def all : List Kind :=
  [string, number, object, array, boolean, null]

def ofWord? (w : String) : Option Kind :=
  all.find? (fun k => k.word = w)

theorem mem_all (k : Kind) : k ∈ all := by
  cases k <;> simp [all]

@[simp] theorem ofWord?_word (k : Kind) : ofWord? k.word = some k := by
  cases k <;> decide

theorem word_injective (k l : Kind) (h : k.word = l.word) : k = l := by
  have := congrArg ofWord? h
  simpa using this

end Kind

/-- A JSON number: an integer, or a binary64 number given by its bits. -/
inductive Number where
  | int (value : Int)
  | float (bits : UInt64)
deriving DecidableEq, Repr

inductive Json where
  | null
  | bool (value : Bool)
  | number (value : Number)
  | string (value : String)
  | array (items : List Json)
  | object (members : List (String × Json))
deriving Repr, Inhabited

namespace Json

def kind : Json → Kind
  | null => .null
  | bool _ => .boolean
  | number _ => .number
  | string _ => .string
  | array _ => .array
  | object _ => .object

theorem object_or_ne (v : Json) : (∃ members, v = .object members) ∨ v.kind ≠ .object := by
  cases v <;> simp [kind]

mutual

/-- How many containers are nested in a value, at most: none in a scalar, one
in an empty array. -/
def depth : Json → Nat
  | array items => depthItems items + 1
  | object members => depthMembers members + 1
  | _ => 0

def depthItems : List Json → Nat
  | [] => 0
  | item :: rest => max item.depth (depthItems rest)

/-- The greatest depth among the values of members. -/
def depthMembers : List (String × Json) → Nat
  | [] => 0
  | (_, item) :: rest => max item.depth (depthMembers rest)

end

end Json

end JsonRecords
