import JsonRecords.Error
import JsonRecords.Output.Sink

/-!
# Writing to a path

Source text written to a path goes into a file of its own, whose directories
are made if they are missing.
-/

namespace JsonRecords

/-- Writes source text to a path. The error names the directory if that could
not be made, and the path otherwise. -/
def FileTree.writeSource (t : FileTree) (path : String) (source : Bytes) :
    FileTree × Except Error Unit :=
  let above := (FilePath.parent? path).getD ""
  match makeDirectories (FilePath.segments path).length t above with
  | (t, .error fault) => (t, .error (.write above fault))
  | (t, .ok ()) =>
    match t.writeFile path (terminated source) with
    | .error fault => (t, .error (.write path fault))
    | .ok t => (t, .ok ())

end JsonRecords
