import JsonRecords.Json.Encode
import JsonRecords.Record.Basic
import JsonRecords.Target.Scope

/-!
# Rust structs

Every record becomes a struct that can be read from and written as JSON. A
field whose identifier is not its name carries the name as an attribute.
-/

namespace JsonRecords

namespace Rust

def keywords : List String := [
  "as", "async", "await", "break", "const", "continue", "crate", "dyn", "else", "enum",
  "extern", "false", "fn", "for", "if", "impl", "in", "let", "loop", "match", "mod", "move",
  "mut", "pub", "ref", "return", "self", "Self", "static", "struct", "super", "trait", "true",
  "type", "unsafe", "use", "where", "while", "abstract", "become", "box", "do", "final",
  "macro", "override", "priv", "try", "typeof", "unsized", "virtual", "yield"]

def structName (name : String) : String :=
  if isIdentifier name && !keywords.contains name then name else sanitize name ++ "_"

/-- The identifier asked for a field, and whether it differs from the name. -/
def fieldIdentifier (name : String) : String × Bool :=
  if keywords.contains name || name == "_" then (name ++ "_", true)
  else if isIdentifier name then (name, false)
  else (sanitize name, true)

/-- A type for a kind about which nothing else is known. -/
def plain : Kind → String
  | .string => "String"
  | .number => "f64"
  | .boolean => "bool"
  | .array => "Vec<serde_json::Value>"
  | .object => "serde_json::Value"
  | .null => "serde_json::Value"

/-- The type expression for a kind and what is known beyond it. -/
def typeExpr : TypeSpelling
  | .object, .record name => structName name
  | .array, .record name => "Vec<" ++ structName name ++ ">"
  | .array, .element kind => "Vec<" ++ plain kind ++ ">"
  | kind, _ => plain kind

def header : String :=
  "#![allow(non_camel_case_types, non_snake_case)]\n\nuse serde::\x7bDeserialize, Serialize\x7d;\n"

/-- The attribute that gives a field its name in JSON. -/
def renameLine (name : String) : String :=
  "    #[serde(rename = " ++ Encode.quoted name ++ ")]\n"

def fieldLine (ident typeExpr : String) : String :=
  "    pub " ++ ident ++ ": " ++ typeExpr ++ ",\n"

/-- The lines of fields, each under an identifier of its own. -/
def fieldLines (scope : Scope) : List FieldDecl → String
  | [] => ""
  | f :: rest =>
    let (base, renamed) := fieldIdentifier f.name
    let (ident, scope) := scope.claim base
    (if renamed || ident != base then renameLine f.name else "") ++
      fieldLine ident f.typeExpr ++ fieldLines scope rest

def structText (r : RecordDecl) : String :=
  "\n#[derive(Debug, Clone, Serialize, Deserialize)]\n" ++
    "pub struct " ++ structName r.name ++ " \x7b\n" ++
    fieldLines .empty r.fields ++ "\x7d\n"

def render (rs : List RecordDecl) : String :=
  header ++ String.join (rs.map structText)

end Rust

end JsonRecords
