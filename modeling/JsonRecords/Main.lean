import JsonRecords.Command.Run

/-!
# The command

Reads arguments, files and the standard input, and writes what a run of the
command makes of them.
-/

namespace JsonRecords

namespace Main

def sentence : IO.Error → String
  | .alreadyExists _ code details => s!"{details} (os error {code})"
  | .noFileOrDirectory _ code details => s!"{details} (os error {code})"
  | .inappropriateType _ code details => s!"{details} (os error {code})"
  | .permissionDenied _ code details => s!"{details} (os error {code})"
  | .resourceExhausted _ code details => s!"{details} (os error {code})"
  | .invalidArgument _ code details => s!"{details} (os error {code})"
  | .otherError code details => s!"{details} (os error {code})"
  | e => toString e

partial def readToEnd (stream : IO.FS.Stream) (done : ByteArray) : IO ByteArray := do
  let chunk ← stream.read 65536
  if chunk.isEmpty then return done else readToEnd stream (done ++ chunk)

/-- The outcome of an action on files, a failure told by its sentence. -/
def attempt {α : Type} (action : IO α) : IO (Except String α) := do
  match ← action.toBaseIO with
  | .ok v => return .ok v
  | .error e => return .error (sentence e)

/-- The text that options name, or the report of a path that cannot be
opened. -/
def source (o : Options) : IO (Except Command.Report (Except String Bytes)) := do
  match o.input with
  | none =>
    let text ← attempt (do readToEnd (← IO.getStdin) .empty)
    return .ok (text.map ByteArray.toList)
  | some path =>
    match ← attempt (IO.FS.Handle.mk path .read) with
    | .error cause => return .error (Command.openFailure path cause)
    | .ok handle =>
      let text ← attempt handle.readBinToEnd
      return .ok (text.map ByteArray.toList)

/-- The report of a path that could not be written. -/
def writeFailure (path cause : String) : Command.Report :=
  ⟨s!"Failed to write {path}: {cause}", [cause]⟩

/-- Writes source text to a path, and reports what kept it from being
written. -/
def writeSource (path : String) (text : Bytes) : IO (Option Command.Report) := do
  let above := (FilePath.parent? path).getD ""
  let made ← attempt (do unless above = "" do IO.FS.createDirAll above)
  match made with
  | .error cause => return some (writeFailure above cause)
  | .ok () =>
    match ← attempt (IO.FS.writeBinFile path ⟨(terminated text).toArray⟩) with
    | .error cause => return some (writeFailure path cause)
    | .ok () => return none

def tell (line : String) : IO Unit := do
  (← IO.getStderr).putStrLn line

/-- Tells a report and gives the exit code of a failure. -/
def fail (r : Command.Report) : IO UInt32 := do
  r.lines.forM tell
  return 1

def run (o : Options) : IO UInt32 := do
  match Target.ofName o.target with
  | .error e => fail (.ofError none e)
  | .ok target =>
    match ← source o with
    | .error report => fail report
    | .ok text =>
      let product := Command.fromText o target text
      let level := Log.Level.ofRequest ((← IO.getEnv "RUST_LOG").getD "")
      (Log.shown level product.log).forM fun l => tell l.text
      match product.result with
      | .error report => fail report
      | .ok text =>
        match o.output with
        | none =>
          let stdout ← IO.getStdout
          stdout.write ⟨(terminated (Utf8.ofString text)).toArray⟩
          stdout.flush
          return 0
        | some path =>
          match ← writeSource path (Utf8.ofString text) with
          | none => return 0
          | some report => fail report

end Main

end JsonRecords

/-- Generates record types from samples, as the arguments ask. -/
def main (args : List String) : IO UInt32 := do
  match JsonRecords.CommandLine.request args with
  | .help => do
    IO.print JsonRecords.CommandLine.help
    return 0
  | .misuse => do
    JsonRecords.Main.tell "error: unusable arguments, try '--help'"
    return 2
  | .run options => JsonRecords.Main.run options
