import JsonRecords.Error
import JsonRecords.Text.Quoted

/-!
# Log lines

Lines about the progress of a run. Warnings are always shown, everything else
on request, each level with those before it.
-/

namespace JsonRecords

namespace Log

/-- How important a line is, from always shown to most detailed. -/
inductive Level where
  | warn
  | info
  | debug
  | trace
deriving DecidableEq, Repr

namespace Level

def rank : Level → Nat
  | warn => 0
  | info => 1
  | debug => 2
  | trace => 3

def word : Level → String
  | warn => "WARN"
  | info => "INFO"
  | debug => "DEBUG"
  | trace => "TRACE"

/-- The level that a request for log lines asks for. -/
def ofRequest : String → Level
  | "json2dataclass=info" => info
  | "json2dataclass=debug" => debug
  | "json2dataclass=trace" => trace
  | _ => warn

end Level

/-- A line: its level, the part of the program it comes from, what happened
and the particulars, each with its text. -/
structure Line where
  level : Level
  origin : String
  event : String
  particulars : List (String × String)

namespace Line

def text (l : Line) : String :=
  l.level.word ++ " " ++ l.origin ++ ": " ++ l.event ++
    String.join (l.particulars.map fun p => " " ++ p.1 ++ "=" ++ p.2)

end Line

def shown (level : Level) (lines : List Line) : List Line :=
  lines.filter fun l => l.level.rank ≤ level.rank

def command : String := "json2dataclass"

def reading : String := "json2dataclass::input"

def inference : String := "json2dataclass::schema::builder"

def generation : String := "json2dataclass::codegen::generator"

def deepInput : Line :=
  ⟨.debug, reading, "input nested too deeply for simd-json, using serde_json", []⟩

def noDocuments : Line :=
  ⟨.warn, command, "no JSON documents found in input", []⟩

def remark : Remark → Line
  | .conflict c =>
    let kinds := [("kept", c.kept.word), ("ignored", c.ignored.word)]
    if c.path.endsInElement then
      ⟨.debug, inference, "conflicting element kind ignored, first observation wins",
        ("path", c.path.text) :: kinds⟩
    else
      ⟨.debug, inference, "conflicting kind ignored, first observation wins",
        ("path", Quoted.quote c.path.text) :: kinds⟩
  | .skipped index kind =>
    ⟨.trace, inference, "skipping non-object top-level element",
      [("index", toString index), ("kind", kind.word)]⟩
  | .scalar kind =>
    ⟨.debug, inference, "top-level scalar carries no fields, nothing merged",
      [("kind", kind.word)]⟩

def conflict (c : Schema.Conflict) : Line :=
  ⟨.warn, command, "field seen with more than one type, keeping the first",
    [("path", c.path.text), ("kept", c.kept.word), ("ignored", c.ignored.word)]⟩

def inferred (i : Inference) : Line :=
  ⟨.debug, inference, "schema inference finished",
    [("documents", toString i.documents), ("fields", toString i.schema.children.length),
      ("conflicts", toString i.conflicts.length)]⟩

/-- Says that a record with a number of fields is finished. -/
def finished (r : String × Nat) : Line :=
  ⟨.debug, generation, "class emitted",
    [("class", Quoted.quote r.1), ("fields", toString r.2)]⟩

def generated (documents records : Nat) (target : Target) : Line :=
  ⟨.info, command, "generated",
    [("documents", toString documents), ("classes", toString records),
      ("backend", Quoted.quote target.name)]⟩

end Log

end JsonRecords
