import JsonRecords.Record.Basic

/-!
# Neutral type expressions

A notation of its own for types, tied to no language: `string`, `number`,
`boolean`, `any`, `array<T>` and the names of records.
-/

namespace JsonRecords

namespace Neutral

/-- A type for a kind about which nothing else is known. -/
def plain : Kind → String
  | .string => "string"
  | .number => "number"
  | .boolean => "boolean"
  | .array => "array<any>"
  | .object => "any"
  | .null => "any"

/-- The type expression for a kind and what is known beyond it. -/
def typeExpr : TypeSpelling
  | .object, .record name => name
  | .array, .record name => "array<" ++ name ++ ">"
  | .array, .element kind => "array<" ++ plain kind ++ ">"
  | kind, _ => plain kind

end Neutral

end JsonRecords
