import CachedWorkflow.Pipeline.Library

/-!
# File trees

The files below a working directory, as the file system of a POSIX machine without links shows them. A
directory exists if a file is in it or if it has been made. Of what is outside of the working directory
nothing is known: nothing can be read there, and what is written there leaves no trace.
-/

namespace CachedWorkflow

/-- The files below a working directory. A file or directory is named by the steps that lead to it. -/
structure FileTree where
  /-- The files with their bytes. -/
  files : List (List Text × List UInt8) := []
  directories : List (List Text) := []
  deriving Repr

namespace FileTree

/-- A directory: the one that the steps lead to, or one outside of the tree. -/
abbrev Place := Option (List Text)

/-- What a path leads to. -/
inductive Target where
  | directory (place : Place)
  /-- What has, or would have, the name in a directory. -/
  | entry (place : Place) (name : Text)
  deriving Repr

/-- The greatest length of a name in bytes. -/
def maxNameLength : Nat := 255

/-- The greatest length of a path in bytes. -/
def maxPathLength : Nat := 4095

variable (tree : FileTree)

/-- Whether there is a directory. -/
def hasDirectory (steps : List Text) : Bool :=
  steps.isEmpty || tree.directories.any steps.isPrefixOf
    || tree.files.any fun file => steps.isPrefixOf file.1 && steps.length < file.1.length

/-- The bytes of a file. -/
def bytes? (steps : List Text) : Option (List UInt8) := tree.files.lookup steps

/-- Takes one step from a directory into another. -/
def enter (place : Place) (step : Text) : Except FileFault Place :=
  match place with
  | none => .ok none
  | some dir =>
    if step = ['.', '.'] then .ok (if dir.isEmpty then none else some dir.dropLast)
    else if maxNameLength < Text.byteLength step then .error .nameTooLong
    else if tree.hasDirectory (dir ++ [step]) then .ok (some (dir ++ [step]))
    else if (tree.bytes? (dir ++ [step])).isSome then .error .notADirectory
    else .error .noSuchFile

/-- Whether a path ends with a part that only directories have: nothing, a dot, or two dots. -/
def endsInDirectory (path : Text) : Bool :=
  let (part, others) := Path.splitSlashes path
  match (part :: others).getLast? with
  | some last => Path.isIdle last || last == ['.', '.']
  | none => true

/-- Follows steps from where a path begins. Not every text is a path. -/
def walk (path : Text) (steps : List Text) : Except FileFault Place :=
  if path.contains '\x00' then .error .invalidName
  else if path.isEmpty then .error .noSuchFile
  else if maxPathLength < Text.byteLength path then .error .nameTooLong
  else steps.foldlM tree.enter (if Path.isAbsolute path then none else some [])

/-- Follows a path. -/
def locate (path : Text) : Except FileFault Target := do
  let steps := Path.steps path
  if endsInDirectory path then return .directory (← tree.walk path steps)
  else
    let place ← tree.walk path steps.dropLast
    let name := steps.getLast?.getD []
    if maxNameLength < Text.byteLength name then .error .nameTooLong
    else return .entry place name

/-! ## Reading -/

/-- The bytes of the file at a path. -/
def read (path : Text) : Except FileFault (List UInt8) := do
  match ← tree.locate path with
  | .directory _ => .error .isADirectory
  | .entry none _ => .error .noSuchFile
  | .entry (some dir) name =>
    if tree.hasDirectory (dir ++ [name]) then .error .isADirectory
    else
      match tree.bytes? (dir ++ [name]) with
      | some bytes => .ok bytes
      | none => .error .noSuchFile

/-- The text of the file at a path. -/
def readText (path : Text) : Except Error Text :=
  match tree.read path with
  | .error fault => .error (.unreadable path (.file fault))
  | .ok bytes =>
    match String.fromUTF8? ⟨bytes.toArray⟩ with
    | some text => .ok text.toList
    | none => .error (.unreadable path .notUtf8)

/-- Files are only found at paths that are not too long. -/
theorem byteLength_le_of_readText {path text : Text} (h : tree.readText path = .ok text) :
    Text.byteLength path ≤ maxPathLength := by
  refine Nat.le_of_not_lt fun hlong => ?_
  have hwalk (steps : List Text) : ∃ fault, tree.walk path steps = .error fault := by
    unfold walk
    split
    · exact ⟨_, rfl⟩
    · split
      · exact ⟨_, rfl⟩
      · exact ⟨_, rfl⟩
  have hread : ∃ fault, tree.read path = .error fault := by
    unfold read locate
    split
    · obtain ⟨fault, hfault⟩ := hwalk (Path.steps path)
      exact ⟨fault, by simp [hfault, bind, Except.bind]⟩
    · obtain ⟨fault, hfault⟩ := hwalk (Path.steps path).dropLast
      exact ⟨fault, by simp [hfault, bind, Except.bind]⟩
  obtain ⟨fault, hfault⟩ := hread
  simp [readText, hfault] at h

/-- The documents in the files of the tree. Placeholders mean nothing to a file system, so that a file may
have several names. -/
def library : Library where
  load path := do parseDocument path (← tree.readText path)
  finite := by
    obtain ⟨paths, hpaths⟩ := Text.exists_forall_mem_of_length_le maxPathLength
    refine ⟨paths.map Path.normalize, fun {path document} h => ?_⟩
    cases htext : tree.readText path with
    | error error => simp [htext, bind, Except.bind] at h
    | ok text =>
      refine List.mem_map.mpr ⟨path, hpaths path ?_, rfl⟩
      exact Nat.le_trans path.length_le_byteLength (tree.byteLength_le_of_readText htext)

/-! ## Writing -/

/-- Whether a path leads to a directory of the tree. -/
def isDirectory (path : Text) : Bool :=
  match tree.locate path with
  | .ok (.directory _) => true
  | .ok (.entry (some dir) name) => tree.hasDirectory (dir ++ [name])
  | _ => false

/-- Makes the directory at a path, inside of one that exists. -/
def makeDirectory (path : Text) : Except FileFault FileTree := do
  match ← tree.locate path with
  | .directory _ => .error .fileExists
  | .entry none _ => .ok tree
  | .entry (some dir) name =>
    let steps := dir ++ [name]
    if tree.hasDirectory steps || (tree.bytes? steps).isSome then .error .fileExists
    else .ok { tree with directories := steps :: tree.directories }

/-- Makes the directory at a path, unless it exists. -/
def ensureDirectory (path : Text) : Except FileFault FileTree :=
  match tree.makeDirectory path with
  | .ok tree => .ok tree
  | .error fault => if tree.isDirectory path then .ok tree else .error fault

/-- Makes the directory at a path and those that it is in, as far as they do not exist. -/
def ensureDirectories (tree : FileTree) (path : Text) : Except FileFault FileTree :=
  if path.isEmpty then .ok tree
  else
    match tree.ensureDirectory path with
    | .error .noSuchFile =>
      if (Path.parent path).length < path.length then
        match ensureDirectories tree (Path.parent path) with
        | .ok tree => tree.ensureDirectory path
        | .error fault => .error fault
      else .error .noSuchFile
    | result => result
termination_by path.length

/-- Writes a file at a path. A path with a slash at its end leads to no file. -/
def write (path : Text) (bytes : List UInt8) : Except FileFault FileTree := do
  let trimmed := Path.trimSlashes path
  if trimmed ≠ path ∧ !endsInDirectory trimmed then
    let _ ← tree.walk path (Path.steps path).dropLast
    .error .isADirectory
  else
    match ← tree.locate path with
    | .directory _ => .error .isADirectory
    | .entry none _ => .ok tree
    | .entry (some dir) name =>
      let steps := dir ++ [name]
      if tree.hasDirectory steps then .error .isADirectory
      else .ok { tree with files := (steps, bytes) :: tree.files.filter (·.1 ≠ steps) }

end FileTree

end CachedWorkflow
