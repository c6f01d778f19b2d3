import CachedWorkflow.Path
import CachedWorkflow.Template.Token

/-!
# Sparse checkout

The patterns of a sparse checkout that holds the declared paths of a job. The files at the root are
always there. A directory on the way to a declared path is there with its files but without the
directories in it. A path that ends with a slash is there as a whole.
-/

namespace CachedWorkflow

/-- A sparse checkout that is being put together. -/
structure Cone where
  /-- The patterns, of which the last one that matches decides. -/
  patterns : List Text
  /-- The directories that are there as a whole. -/
  whole : List Text
  deriving DecidableEq, Repr

namespace Cone

/-- The checkout of the files at the root. -/
def root : Cone := ⟨["/*", "!/*/"], []⟩

/-- The pattern that includes a directory. -/
def includePattern (dir : Text) : Text := "/" ++ dir ++ "/"

/-- The pattern that excludes the directories in a directory. -/
def excludePattern (dir : Text) : Text := "!" ++ includePattern dir ++ "*/"

/-- Whether the directory is, or is in, a directory that is there as a whole. -/
def covers (cone : Cone) (dir : Text) : Bool :=
  cone.whole.any fun w => dir == w || (w ++ "/").isPrefixOf dir

/-- Removes the patterns that only concern what is in the directory. -/
def dropBelow (dir : Text) (patterns : List Text) : List Text :=
  let below := includePattern dir
  patterns.filter fun p =>
    !(below.isPrefixOf p && p != below) && !(("!" ++ below).isPrefixOf p)

/-- Includes a single directory, whose parent is there already: as a whole, or with its files
only. -/
def addSingle (cone : Cone) (dir : Text) (asWhole : Bool) : Cone :=
  let cone := if asWhole then ⟨dropBelow dir cone.patterns, cone.whole ++ [dir]⟩ else cone
  if cone.patterns.contains (includePattern dir) then cone
  else
    { cone with
      patterns := cone.patterns ++ [includePattern dir]
        ++ (if asWhole then [] else [excludePattern dir]) }

/-- Includes a directory and, before it, the directories that it is in. Going up from a relative path ends
where nothing is left. Going up from an absolute path stays at the slash, where the recursion would go on for
ever: there the cone is returned as it is. -/
def addDir (cone : Cone) (dir : Text) (asWhole : Bool) : Cone :=
  if dir = ['.'] ∨ dir = [] ∨ cone.covers dir then cone
  else if _ : (Path.dirname dir).length < dir.length then
    (cone.addDir (Path.dirname dir) false).addSingle dir asWhole
  else cone
termination_by dir.length

/-- Includes a declared path: a directory as a whole if it ends with a slash, and otherwise the
directory that it is in. -/
def addPath (cone : Cone) (path : Text) : Cone :=
  let normal := Path.normalize path
  if path.getLast? = some '/' then cone.addDir normal true
  else cone.addDir (Path.dirname normal) false

end Cone

/-- The patterns of the sparse checkout for the declared paths; `none` if everything is needed, which
is also assumed of a path with a placeholder. -/
def sparsePatterns (paths : List Text) : Option (List Text) :=
  if paths.any fun p => Template.hasOpening p || Path.normalize p == ['.'] then none
  else some (paths.foldl Cone.addPath Cone.root).patterns

end CachedWorkflow
