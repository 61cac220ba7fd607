import JsonRecords.Record.Basic
import JsonRecords.Target.Scope

/-!
# Python dataclasses

Every record becomes a class with annotated fields. Annotations are not
evaluated when the module is loaded, so a record may name one that is declared
further down.
-/

namespace JsonRecords

namespace Python

def keywords : List String := [
  "False", "None", "True", "and", "as", "assert", "async", "await", "break", "class",
  "continue", "def", "del", "elif", "else", "except", "finally", "for", "from", "global",
  "if", "import", "in", "is", "lambda", "nonlocal", "not", "or", "pass", "raise", "return",
  "try", "while", "with", "yield"]

def identifier (name : String) : String :=
  if keywords.contains name then "_" ++ name
  else if isIdentifier name then name
  else sanitize name

/-- A type for a kind about which nothing else is known. -/
def plain : Kind → String
  | .string => "str"
  | .number => "Union[int, float]"
  | .boolean => "bool"
  | .array => "list"
  | .object => "object"
  | .null => "object"

/-- The type expression for a kind and what is known beyond it. -/
def typeExpr : TypeSpelling
  | .object, .record name => identifier name
  | .array, .record name => "list[" ++ identifier name ++ "]"
  | .array, .element kind => "list[" ++ plain kind ++ "]"
  | kind, _ => plain kind

def header : String :=
  "from __future__ import annotations\n\nfrom dataclasses import dataclass\nfrom typing import Union\n"

def fieldLine (ident typeExpr : String) : String :=
  "    " ++ ident ++ ": " ++ typeExpr ++ "\n"

/-- The lines of fields, each under an identifier of its own. -/
def fieldLines (scope : Scope) : List FieldDecl → String
  | [] => ""
  | f :: rest =>
    let (ident, scope) := scope.claim (identifier f.name)
    fieldLine ident f.typeExpr ++ fieldLines scope rest

def classText (r : RecordDecl) : String :=
  let name := identifier r.name
  "\n\n@dataclass\nclass " ++ name ++ ":\n    \"\"\"" ++ name ++ " dataclass\"\"\"\n" ++
    (if r.fields.isEmpty then "" else "\n") ++ fieldLines .empty r.fields

def render (rs : List RecordDecl) : String :=
  header ++ String.join (rs.map classText)

end Python

end JsonRecords
