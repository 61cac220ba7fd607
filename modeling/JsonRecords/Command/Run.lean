import JsonRecords.Command.Log
import JsonRecords.Command.Options
import JsonRecords.Output.Write
import JsonRecords.Record.Codec

/-!
# A run of the command

A run reads samples, infers a schema, makes up records and writes them out.
Everything is a function of the options, the standard input and the tree of
files; nothing is written unless all that could fail before has succeeded.
-/

namespace JsonRecords

namespace Command

/-- A failure as it is told to the user: the sentence, and those of its causes
from near to far. -/
structure Report where
  headline : String
  causes : List String
deriving DecidableEq, Repr

namespace Report

/-- The report of an error, under a headline of its own if one is given. -/
def ofError (headline : Option String) (e : Error) : Report :=
  match headline with
  | none => ⟨e.message, e.cause?.toList⟩
  | some h => ⟨h, e.message :: e.cause?.toList⟩

/-- Causes, numbered from zero. -/
def numbered (n : Nat) : List String → List String
  | [] => []
  | c :: rest => s!"    {n}: {c}" :: numbered (n + 1) rest

/-- The lines of a report. Several causes are numbered, one alone is not. -/
def lines (r : Report) : List String :=
  s!"Error: {r.headline}" ::
    match r.causes with
    | [] => []
    | [c] => ["", "Caused by:", s!"    {c}"]
    | cs => "" :: "Caused by:" :: numbered 0 cs

end Report

/-- What was made of samples: the log on the way, and the text to write or a
report of what went wrong. -/
structure Product where
  log : List Log.Line
  result : Except Report String

def output (o : Options) (target : Target) (records : List RecordDecl) : String :=
  if o.dump then Encode.pretty (RecordDecl.listToJson records) else target.render records

def fromDocuments (o : Options) (target : Target) (documents : List Json) :
    List Log.Line × String :=
  let inference := Inference.start.addAll documents
  let records := inference.schema.records o.naming target.typeExpr
  let log :=
    (if documents.isEmpty then [Log.noDocuments] else []) ++
      inference.remarks.map Log.remark ++ inference.conflicts.map Log.conflict ++
      [Log.inferred inference] ++ (inference.schema.finishedRecords o.naming).map Log.finished ++
      [Log.generated documents.length records.length target]
  (log, output o target records)

/-- Makes the output from the text that was read, or from the reason why it
could not be read. -/
def fromText (o : Options) (target : Target) (text : Except String Bytes) : Product :=
  let format : Format := if o.lines then .lines else .json
  let deep := match format, text with
    | .json, .ok s => if Document.isDeep s then [Log.deepInput] else []
    | _, _ => []
  match Document.readAll format text with
  | .error e => ⟨deep, .error (.ofError (some "Failed to read JSON input") e)⟩
  | .ok documents =>
    let (log, text) := fromDocuments o target documents
    ⟨deep ++ log, .ok text⟩

def openFailure (path cause : String) : Report :=
  ⟨s!"Failed to open {path}", [cause]⟩

/-- The text that options name: that of a file, or the standard input. A
directory can be opened, but not read. -/
def source (o : Options) (stdin : Bytes) (files : FileTree) :
    Except Report (Except String Bytes) :=
  match o.input with
  | none => .ok (.ok stdin)
  | some path =>
    match files.open? path with
    | .error fault => .error (openFailure path fault.message)
    | .ok .directory => .ok (.error FileFault.isDirectory.message)
    | .ok (.file content) => .ok (.ok content)

/-- What a run leaves behind. -/
structure Outcome where
  exitCode : Nat
  stdout : Bytes
  log : List Log.Line
  report : Option Report
  files : FileTree

def failure (log : List Log.Line) (report : Report) (files : FileTree) : Outcome :=
  ⟨1, [], log, some report, files⟩

/-- Writes the text of a product to where options ask for it. -/
def deliver (o : Options) (log : List Log.Line) (text : String) (files : FileTree) : Outcome :=
  match o.output with
  | none => ⟨0, terminated (Utf8.ofString text), log, none, files⟩
  | some path =>
    match files.writeSource path (Utf8.ofString text) with
    | (files, .error e) => failure log (.ofError none e) files
    | (files, .ok ()) => ⟨0, [], log, none, files⟩

def run (o : Options) (stdin : Bytes) (files : FileTree) : Outcome :=
  match Target.ofName o.target with
  | .error e => failure [] (.ofError none e) files
  | .ok target =>
    match source o stdin files with
    | .error report => failure [] report files
    | .ok text =>
      let product := fromText o target text
      match product.result with
      | .error report => failure product.log report files
      | .ok text => deliver o product.log text files

/-- The lines of an outcome on the error stream, with log lines up to a
level. -/
def Outcome.messages (level : Log.Level) (r : Outcome) : List String :=
  (Log.shown level r.log).map Log.Line.text ++ (r.report.map Report.lines).getD []

end Command

end JsonRecords
