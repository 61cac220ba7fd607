/-!
# Paths

A path is a text with names between slashes. Empty names and single points
name nothing of their own, except for a point that begins a relative path.
-/

namespace JsonRecords

namespace FilePath

/-- The segments of a text whose first one has begun with `done`, last
character first. -/
def segmentsFrom (done : List Char) : List Char → List String
  | [] => [String.ofList done.reverse]
  | c :: cs =>
    if c = '/' then String.ofList done.reverse :: segmentsFrom [] cs
    else segmentsFrom (c :: done) cs

def segments (path : String) : List String :=
  segmentsFrom [] path.toList

def isAbsolute (path : String) : Bool :=
  path.toList.head? = some '/'

/-- Drops, from segments in reverse order, those that name nothing of their
own: empty ones and single points, but not a point that begins a relative
path. -/
def dropIdle (absolute : Bool) : List String → List String
  | [] => []
  | [s] => if s = "" ∨ (absolute ∧ s = ".") then [] else [s]
  | s :: rest => if s = "" ∨ s = "." then dropIdle absolute rest else s :: rest

/-- The path of the directory that a path lies in. The top and the empty path
have none. -/
def parent? (path : String) : Option String :=
  let absolute := isAbsolute path
  let names := if absolute then (segments path).drop 1 else segments path
  match dropIdle absolute names.reverse with
  | [] => none
  | _ :: rest =>
    let above := "/".intercalate (dropIdle absolute rest).reverse
    some (if absolute then "/" ++ above else above)

/-- A path without the slashes at its end, unless there is nothing else to
it. -/
def stem (path : String) : String :=
  match path.toList.reverse.dropWhile (· = '/') with
  | [] => path
  | cs => String.ofList cs.reverse

/-- Whether a last name stands for a directory by itself. -/
def isDirectoryName (name : String) : Bool :=
  name = "" || name = "." || name = ".."

end FilePath

end JsonRecords
