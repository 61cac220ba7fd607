import JsonRecords.Keyed
import JsonRecords.Output.Path
import JsonRecords.Text.Utf8

/-!
# Trees of files

A file tree holds directories and regular files, and the place of the
directory in which relative paths start. Every operation walks a path name by
name from the top and fails for the reasons a file system gives. What stands at
a place is told by `get?`; `entryAt_put` says what a single change does to it.
-/

namespace JsonRecords

/-- Why an operation on files fails. -/
inductive FileFault where
  | notFound
  | taken
  | notDirectory
  | isDirectory
  | nameTooLong
  | nulInName
deriving DecidableEq, Repr

def FileFault.message : FileFault → String
  | notFound => "No such file or directory (os error 2)"
  | taken => "File exists (os error 17)"
  | notDirectory => "Not a directory (os error 20)"
  | isDirectory => "Is a directory (os error 21)"
  | nameTooLong => "File name too long (os error 36)"
  | nulInName => "file name contained an unexpected NUL byte"

/-- What stands under a name: a directory with its entries, or a file. -/
inductive Node where
  | directory (entries : List (String × Node))
  | file (content : Bytes)

abbrev Folder := List (String × Node)

/-- What stands at a place, whatever a directory holds. -/
inductive Entry where
  | directory
  | file (content : Bytes)
deriving DecidableEq, Repr

/-- The names that lead to an entry, from the top. -/
abbrev Place := List String

def Node.entry : Node → Entry
  | directory _ => .directory
  | file content => .file content

namespace Folder

/-- The entry at a place below a folder; the folder itself stands at the empty
one. -/
def entryAt : Folder → Place → Option Entry
  | _, [] => some .directory
  | entries, name :: rest =>
    match Keyed.get? name entries with
    | none => none
    | some (.file content) => if rest.isEmpty then some (.file content) else none
    | some (.directory below) => entryAt below rest

/-- Puts a node at a place, provided that the names before the last one lead
to a directory. -/
def put (node : Node) : Place → Folder → Folder
  | [], entries => entries
  | [name], entries => Keyed.set name node entries
  | name :: rest, entries =>
    match Keyed.get? name entries with
    | some (.directory below) => Keyed.set name (.directory (put node rest below)) entries
    | _ => entries

theorem put_cons (node : Node) (name next : String) (rest : Place) (entries below : Folder)
    (h : Keyed.get? name entries = some (.directory below)) :
    put node (name :: next :: rest) entries =
      Keyed.set name (.directory (put node (next :: rest) below)) entries := by
  simp [put, h]

def isLeaf : Node → Bool
  | .directory entries => entries.isEmpty
  | .file _ => true

/-- Below a node without entries nothing stands but the node itself. -/
theorem entryAt_of_isLeaf (name : String) (node : Node) (entries : Folder) (rest : Place)
    (hg : Keyed.get? name entries = some node) (hn : isLeaf node = true) :
    entryAt entries (name :: rest) = if rest = [] then some node.entry else none := by
  cases node with
  | file content => cases rest <;> simp [entryAt, hg, Node.entry]
  | directory below =>
      obtain rfl : below = [] := by simpa [isLeaf] using hn
      cases rest <;> simp [entryAt, hg, Node.entry]

/-- What stands where after a node without entries has been put into an
existing directory, at a name that no directory had: the node at its place,
and everything else as before. -/
theorem entryAt_put (node : Node) (names : Place) (name : String) (entries : Folder)
    (other : Place) (hn : isLeaf node = true) (hd : entryAt entries names = some .directory)
    (hf : entryAt entries (names ++ [name]) ≠ some .directory) :
    entryAt (put node (names ++ [name]) entries) other =
      if other = names ++ [name] then some node.entry else entryAt entries other := by
  induction names generalizing entries other with
  | nil =>
      cases other with
      | nil => simp [entryAt]
      | cons first rest =>
          by_cases h : name = first
          · subst h
            have hg : Keyed.get? name (put node [name] entries) = some node := by
              simp [put, Keyed.get?_set]
            rw [List.nil_append, entryAt_of_isLeaf name node _ rest hg hn]
            by_cases hr : rest = []
            · simp [hr]
            · have hnone : entryAt entries (name :: rest) = none := by
                simp only [entryAt]
                split
                · rfl
                · simp [hr]
                · rename_i below hb
                  simp [entryAt, hb] at hf
              simp [hr, hnone]
          · have h' : ¬ first = name := fun e => h e.symm
            simp [put, entryAt, Keyed.get?_set, h, h']
  | cons head tail ih =>
      cases hg : Keyed.get? head entries with
      | none => simp [entryAt, hg] at hd
      | some found =>
          cases found with
          | file content => cases tail <;> simp [entryAt, hg] at hd
          | directory below =>
              have hd' : entryAt below tail = some .directory := by simpa [entryAt, hg] using hd
              have hf' : entryAt below (tail ++ [name]) ≠ some .directory := by
                simpa [entryAt, hg] using hf
              have hp : put node (head :: (tail ++ [name])) entries =
                  Keyed.set head (.directory (put node (tail ++ [name]) below)) entries := by
                cases tail <;> exact put_cons node head _ _ entries below hg
              cases other with
              | nil => simp [entryAt]
              | cons first rest =>
                  rw [List.cons_append, hp]
                  by_cases h : head = first
                  · subst h
                    simp [entryAt, Keyed.get?_set, hg, ih below rest hd' hf']
                  · have h' : ¬ first = head := fun e => h e.symm
                    simp [entryAt, Keyed.get?_set, h, h']

end Folder

/-- Directories and files from the top, and the place in which relative paths
start. -/
structure FileTree where
  entries : Folder
  home : Place

namespace FileTree

/-- Nothing but an empty directory at a place, in which relative paths
start. -/
def bare (home : Place) : FileTree :=
  ⟨home.foldr (fun name below => [(name, .directory below)]) [], home⟩

def get? (t : FileTree) (place : Place) : Option Entry :=
  Folder.entryAt t.entries place

def put (t : FileTree) (place : Place) (node : Node) : FileTree :=
  { t with entries := Folder.put node place t.entries }

@[simp] theorem get?_top (t : FileTree) : t.get? [] = some .directory := by
  simp [get?, Folder.entryAt]

/-! ## Walks -/

/-- A directory reached by a walk, and the names that led to it with the
directories they were looked up in, latest first. -/
structure Spot where
  entries : Folder
  above : List (String × Folder)

def Spot.place (s : Spot) : Place :=
  (s.above.map Prod.fst).reverse

def Spot.up (s : Spot) : Spot :=
  match s.above with
  | [] => s
  | (_, entries) :: above => ⟨entries, above⟩

def nameLimit : Nat := 255

def pathLimit : Nat := 4095

def Spot.lookup (s : Spot) (name : String) : Except FileFault (Option Node) :=
  if nameLimit < name.utf8ByteSize then .error .nameTooLong else .ok (Keyed.get? name s.entries)

/-- One name further, which must be that of a directory. -/
def Spot.step (s : Spot) (name : String) : Except FileFault Spot := do
  if name = "" ∨ name = "." then return s
  else if name = ".." then return s.up
  else
    match ← s.lookup name with
    | none => throw .notFound
    | some (.file _) => throw .notDirectory
    | some (.directory below) => return ⟨below, (name, s.entries) :: s.above⟩

/-- Walks through names that must all be those of directories. -/
def Spot.walk (s : Spot) : List String → Except FileFault Spot
  | [] => .ok s
  | name :: rest => do (← s.step name).walk rest

def top (t : FileTree) : Spot :=
  ⟨t.entries, []⟩

/-- The names that a path leads through from the top. -/
def names (t : FileTree) (path : String) : List String :=
  (if FilePath.isAbsolute path then [] else t.home) ++ FilePath.segments path

/-- Refuses a path that no file system takes, whatever it holds: one with a
NUL character, one that is too long and the empty one. -/
def checkPath (path : String) : Except FileFault Unit :=
  if path.toList.contains '\x00' then .error .nulInName
  else if pathLimit < path.utf8ByteSize then .error .nameTooLong
  else if path = "" then .error .notFound
  else .ok ()

/-- The directory a path's last name is looked up in, and that name. -/
def locate (t : FileTree) (path : String) : Except FileFault (Spot × String) := do
  let names := t.names path
  let spot ← t.top.walk names.dropLast
  return (spot, names.getLast?.getD "")

def isDirectory (t : FileTree) (path : String) : Bool :=
  match checkPath path, t.top.walk (t.names path) with
  | .ok (), .ok _ => true
  | _, _ => false

/-! ## Operations -/

def makeDirectory (t : FileTree) (path : String) : Except FileFault FileTree := do
  checkPath path
  let (spot, name) ← t.locate (FilePath.stem path)
  if FilePath.isDirectoryName name then throw .taken
  else
    match ← spot.lookup name with
    | some _ => throw .taken
    | none => return t.put (spot.place ++ [name]) (.directory [])

/-- Makes a directory and, where they are missing, those above it. The tree is
returned also on failure, since directories above may have been made. `steps`
bounds the number of those. -/
def makeDirectories : (steps : Nat) → FileTree → String → FileTree × Except FileFault Unit
  | steps, t, path =>
    if path = "" then (t, .ok ())
    else
      match t.makeDirectory path with
      | .ok t => (t, .ok ())
      | .error .notFound =>
        match steps, FilePath.parent? path with
        | n + 1, some above =>
          match makeDirectories n t above with
          | (t, .error fault) => (t, .error fault)
          | (t, .ok ()) =>
            match t.makeDirectory path with
            | .ok t => (t, .ok ())
            | .error fault => (t, if t.isDirectory path then .ok () else .error fault)
        | _, _ => (t, .error .notFound)
      | .error fault => (t, if t.isDirectory path then .ok () else .error fault)

/-- Creates a file, or replaces the content of one. A path with a slash at its
end asks for a directory. -/
def writeFile (t : FileTree) (path : String) (content : Bytes) : Except FileFault FileTree := do
  checkPath path
  let stem := FilePath.stem path
  let (spot, name) ← t.locate stem
  if FilePath.isDirectoryName name || stem != path then throw .isDirectory
  else
    match ← spot.lookup name with
    | some (.directory _) => throw .isDirectory
    | _ => return t.put (spot.place ++ [name]) (.file content)

def open? (t : FileTree) (path : String) : Except FileFault Entry := do
  checkPath path
  let (spot, name) ← t.locate path
  if FilePath.isDirectoryName name then return .directory
  else
    match ← spot.lookup name with
    | some node => return node.entry
    | none => throw .notFound

end FileTree

end JsonRecords
