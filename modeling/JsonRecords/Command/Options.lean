import JsonRecords.Record.Basic

/-!
# Command-line options

Arguments are read from left to right. A request for help ends the reading at
once, and so does the first argument that is out of place.
-/

namespace JsonRecords

structure Options where
  input : Option String
  lines : Bool
  target : String
  rootName : Option String
  separator : Option String
  output : Option String
  dump : Bool
deriving DecidableEq, Repr

def Options.naming (o : Options) : Naming :=
  ⟨o.rootName.getD Naming.standard.rootName, o.separator.getD Naming.standard.separator⟩

namespace CommandLine

inductive Setting where
  | target
  | rootName
  | separator
  | output
deriving DecidableEq, Repr

inductive Switch where
  | lines
  | dump
  | help
deriving DecidableEq, Repr

def setting? : String → Option Setting
  | "backend" => some .target
  | "root-name" => some .rootName
  | "separator" => some .separator
  | "out" => some .output
  | _ => none

def switch? : String → Option Switch
  | "ndjson" => some .lines
  | "dump-schema" => some .dump
  | "help" => some .help
  | _ => none

structure Draft where
  input : Option String
  lines : Bool
  dump : Bool
  target : Option String
  rootName : Option String
  separator : Option String
  output : Option String

namespace Draft

def empty : Draft :=
  ⟨none, false, false, none, none, none, none⟩

def finish (d : Draft) : Options :=
  ⟨d.input, d.lines, d.target.getD "python", d.rootName, d.separator, d.output, d.dump⟩

def value? (d : Draft) : Setting → Option String
  | .target => d.target
  | .rootName => d.rootName
  | .separator => d.separator
  | .output => d.output

/-- Gives a setting its value: only once, and no empty one where a path is
asked for. -/
def set (d : Draft) (s : Setting) (value : String) : Option Draft :=
  if (d.value? s).isSome then none
  else
    match s with
    | .target => some { d with target := some value }
    | .rootName => some { d with rootName := some value }
    | .separator => some { d with separator := some value }
    | .output => if value = "" then none else some { d with output := some value }

/-- Takes an argument that is no option: the only one, and not empty. -/
def addInput (d : Draft) (path : String) : Option Draft :=
  if d.input.isSome || path == "" then none else some { d with input := some path }

end Draft

/-- What comes of a command line. -/
inductive Request where
  | run (options : Options)
  | help
  | misuse
deriving DecidableEq, Repr

/-- Whether an argument is taken for an option, and so for no value. -/
def isOption (arg : String) : Bool :=
  arg.toList.head? = some '-' && arg != "-"

/-- The name of a long option and the value attached to it. -/
def splitLong (body : List Char) : String × Option String :=
  let name := String.ofList (body.takeWhile (· ≠ '='))
  match body.dropWhile (· ≠ '=') with
  | [] => (name, none)
  | _ :: value => (name, some (String.ofList value))

def letter? : Char → Option Setting
  | 'b' => some .target
  | 'o' => some .output
  | _ => none

/-- The value attached to a letter: what follows it, an equals sign in between
left out. -/
def attached? : List Char → Option String
  | [] => none
  | '=' :: cs => some (String.ofList cs)
  | cs => some (String.ofList cs)

inductive Token where
  | file (path : String)
  | setting (s : Setting) (attached : Option String)
  | switch (s : Switch)
  | endOfOptions
  | unknown

def token (arg : String) : Token :=
  match arg.toList with
  | '-' :: '-' :: [] => .endOfOptions
  | '-' :: '-' :: body =>
    let (name, value) := splitLong body
    match setting? name, switch? name, value with
    | some s, _, _ => .setting s value
    | none, some s, none => .switch s
    | _, _, _ => .unknown
  | '-' :: 'h' :: _ => .switch .help
  | '-' :: c :: rest =>
    match letter? c with
    | some s => .setting s (attached? rest)
    | none => .unknown
  | _ => .file arg

/-- Reads arguments after which no option can follow. -/
def files (d : Draft) : List String → Request
  | [] => .run d.finish
  | arg :: rest =>
    match d.addInput arg with
    | some d => files d rest
    | none => .misuse

def read (d : Draft) : List String → Request
  | [] => .run d.finish
  | arg :: rest =>
    match token arg with
    | .unknown => .misuse
    | .endOfOptions => files d rest
    | .file path =>
      match d.addInput path with
      | some d => read d rest
      | none => .misuse
    | .switch .help => .help
    | .switch .lines => if d.lines then .misuse else read { d with lines := true } rest
    | .switch .dump => if d.dump then .misuse else read { d with dump := true } rest
    | .setting s (some value) =>
      match d.set s value with
      | some d => read d rest
      | none => .misuse
    | .setting s none =>
      match rest with
      | [] => .misuse
      | value :: rest =>
        if isOption value then .misuse
        else
          match d.set s value with
          | some d => read d rest
          | none => .misuse

def request (args : List String) : Request :=
  read .empty args

def help : String :=
  "Generate record types from sample JSON

Usage: json2dataclass [OPTIONS] [FILE]

Arguments:
  [FILE]  Input file (use stdin if omitted)

Options:
      --ndjson                 Process newline-delimited JSON (one document per line)
  -b, --backend <BACKEND>      Target language backend (python, typescript, rust) [default: python]
      --root-name <ROOT_NAME>  Class name of the top-level document (default: \"root\")
      --separator <SEPARATOR>  Separator between parent and field names in nested class names (default: \"_\")
  -o, --out <OUT>              Output file (stdout if omitted)
      --dump-schema            Print the generated class list as JSON instead of source code
  -h, --help                   Print help
"

end CommandLine

end JsonRecords
