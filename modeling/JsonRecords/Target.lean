import JsonRecords.Record.Generate
import JsonRecords.Schema.Inference
import JsonRecords.Target.Neutral
import JsonRecords.Target.Python
import JsonRecords.Target.Rust
import JsonRecords.Target.TypeScript

/-!
# Target languages

A target spells types and renders records in one language. `generate` takes
samples to source text.
-/

namespace JsonRecords

inductive Target where
  | python
  | typeScript
  | rust
deriving DecidableEq, Repr

namespace Target

/-- All targets, in the order in which messages list them. -/
def all : List Target :=
  [python, typeScript, rust]

def name : Target → String
  | python => "python"
  | typeScript => "typescript"
  | rust => "rust"

def extension : Target → String
  | python => "py"
  | typeScript => "ts"
  | rust => "rs"

def ofName? (n : String) : Option Target :=
  all.find? (fun t => t.name = n)

def available : String :=
  ", ".intercalate (all.map name)

def typeExpr : Target → TypeSpelling
  | python => Python.typeExpr
  | typeScript => TypeScript.typeExpr
  | rust => Rust.typeExpr

def render : Target → List RecordDecl → String
  | python => Python.render
  | typeScript => TypeScript.render
  | rust => Rust.render

@[simp] theorem ofName?_name (t : Target) : ofName? t.name = some t := by
  cases t <;> decide

end Target

/-- The records of samples. -/
def generateRecords (samples : List Json) (naming : Naming) (spell : TypeSpelling) :
    List RecordDecl :=
  (Schema.infer samples).records naming spell

/-- The source text for samples. -/
def generate (samples : List Json) (naming : Naming) (target : Target) : String :=
  target.render (generateRecords samples naming target.typeExpr)

end JsonRecords
