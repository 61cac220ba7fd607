import JsonRecords.Json.Encode
import JsonRecords.Record.Basic
import JsonRecords.Target.Identifier

/-!
# TypeScript interfaces

Every record becomes an exported interface. A property whose name is no
identifier is written as a quoted key, so properties keep their names.
-/

namespace JsonRecords

namespace TypeScript

def interfaceName (name : String) : String :=
  if isIdentifier name then name else sanitize name

def propertyKey (name : String) : String :=
  if isIdentifier name then name else Encode.quoted name

/-- A type for a kind about which nothing else is known. -/
def plain : Kind → String
  | .string => "string"
  | .number => "number"
  | .boolean => "boolean"
  | .array => "any[]"
  | .object => "any"
  | .null => "any"

/-- The type expression for a kind and what is known beyond it. -/
def typeExpr : TypeSpelling
  | .object, .record name => interfaceName name
  | .array, .record name => interfaceName name ++ "[]"
  | .array, .element kind => plain kind ++ "[]"
  | kind, _ => plain kind

def propertyLine (f : FieldDecl) : String :=
  "  " ++ propertyKey f.name ++ ": " ++ f.typeExpr ++ ";\n"

def interfaceText (r : RecordDecl) : String :=
  "export interface " ++ interfaceName r.name ++ " \x7b\n" ++
    String.join (r.fields.map propertyLine) ++ "\x7d\n"

/-- The source text for records, a blank line between them. -/
def render (rs : List RecordDecl) : String :=
  "\n".intercalate (rs.map interfaceText)

end TypeScript

end JsonRecords
