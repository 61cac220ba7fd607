import JsonRecords.Document
import JsonRecords.Output.FileTree
import JsonRecords.Target

/-!
# Errors

Inference and generation never fail; reading samples, writing source text and
choosing a target can. An error has a sentence and, mostly, a cause with a
sentence of its own.
-/

namespace JsonRecords

inductive Error where
  | io (cause : String)
  | utf8 (fault : Utf8.Fault)
  | json (text : Bytes) (fault : Fault)
  | jsonLine (fault : Document.LineFault Fault)
  | write (path : String) (fault : FileFault)
  | unknownTarget (name : String)

namespace Error

def cause? : Error → Option String
  | io cause => some cause
  | utf8 fault => some fault.message
  | json text fault => some (fault.message text)
  | jsonLine fault => some (fault.cause.message (Utf8.encode fault.text))
  | write _ fault => some fault.message
  | unknownTarget _ => none

def message (e : Error) : String :=
  let cause := e.cause?.getD ""
  match e with
  | io _ => s!"Failed to read input: {cause}"
  | utf8 _ => s!"Input is not valid UTF-8: {cause}"
  | json _ _ => s!"Failed to parse JSON: {cause}"
  | jsonLine fault => s!"Failed to parse JSON on line {fault.line}: {cause}"
  | write path _ => s!"Failed to write {path}: {cause}"
  | unknownTarget name => s!"Unknown backend '{name}' (available: {Target.available})"

end Error

inductive Format where
  | json
  | lines
deriving DecidableEq, Repr

namespace Document

def parse (text : Bytes) : Except Error Json :=
  (decode text).mapError (.json text)

def parseLines (text : List Char) : Except Error (List Json) :=
  (decodeLines decodeLine text).mapError .jsonLine

def parseAll (format : Format) (text : Bytes) : Except Error (List Json) :=
  match format with
  | .json => (parse text).map fun v => [v]
  | .lines =>
    match Utf8.decode text with
    | .error fault => .error (.utf8 fault)
    | .ok cs => parseLines cs

/-- The documents of a text, or what kept it from being read to its end. -/
def readAll (format : Format) (text : Except String Bytes) : Except Error (List Json) :=
  match text with
  | .error cause => .error (.io cause)
  | .ok text => parseAll format text

end Document

def Target.ofName (n : String) : Except Error Target :=
  match ofName? n with
  | some t => .ok t
  | none => .error (.unknownTarget n)

end JsonRecords
