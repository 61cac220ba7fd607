import JsonRecords.Json.Decode
import JsonRecords.Json.Nesting
import JsonRecords.Text.Lines

/-!
# Sample documents

Samples are read as one JSON document or as one document a line. A single
document may nest up to 128 containers; one nested deeper, by a scan of its
brackets, is held to the limit of 127 that also holds for a line, and so is one
that cannot be decoded, which then says where it goes wrong.
-/

namespace JsonRecords

namespace Document

inductive Outline where
  | object (fields : Nat)
  | array (length : Nat)
  | scalar (kind : Kind)
deriving DecidableEq, Repr

def outline : Json → Outline
  | .object members => .object members.length
  | .array items => .array items.length
  | v => .scalar v.kind

/-- How many containers may nest before the scan of brackets takes notice. -/
def scanLimit : Nat := 128

/-- How many containers may nest where a limit is kept. -/
def depthLimit : Nat := 127

/-- Whether brackets nest too deep for a document to be decoded without a
limit. -/
def isDeep (text : Bytes) : Bool :=
  Nesting.exceeds scanLimit text

/-- Decodes a text that holds one document. Without a limit there are as many
levels as bytes. -/
def decode (text : Bytes) : Except Fault Json :=
  if isDeep text then Json.decode depthLimit text
  else
    match Json.decode text.length text with
    | .ok v => .ok v
    | .error _ => Json.decode depthLimit text

def decodeLine (line : List Char) : Except Fault Json :=
  Json.decode depthLimit (Utf8.encode line)

/-- A line that was refused, by its number counted from one. -/
structure LineFault (ε : Type) where
  line : Nat
  text : List Char
  cause : ε

/-- Decodes the lines that hold more than blanks, with any decoder for one
line; `number` is the number of the first line. -/
def decodeLinesFrom {ε α : Type} (decodeLine : List Char → Except ε α) (number : Nat) :
    List (List Char) → Except (LineFault ε) (List α)
  | [] => .ok []
  | line :: rest =>
    let text := Lines.trim line
    if text.isEmpty then decodeLinesFrom decodeLine (number + 1) rest
    else
      match decodeLine text with
      | .error cause => .error ⟨number, text, cause⟩
      | .ok v => do
        let vs ← decodeLinesFrom decodeLine (number + 1) rest
        return v :: vs

def decodeLines {ε α : Type} (decodeLine : List Char → Except ε α) (text : List Char) :
    Except (LineFault ε) (List α) :=
  decodeLinesFrom decodeLine 1 (Lines.split text)

end Document

end JsonRecords
