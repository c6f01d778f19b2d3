import CachedWorkflow.Text

/-!
# Paths

Paths of a repository, relative or absolute, whose segments are divided by slashes. A path may hold
placeholders, which only get their value on the machine that runs the job: a slash between an
opening (a dollar sign and two braces) and the next two closing braces divides nothing. After an
opening that is never closed nothing divides any more.
-/

namespace CachedWorkflow.Path

/-- Splits a path that begins inside or outside a placeholder: its first segment and the others. -/
def segmentsFrom : (inside : Bool) → Text → Text × List Text
  | false, '$' :: '{' :: '{' :: rest =>
    let (segment, others) := segmentsFrom true rest
    ('$' :: '{' :: '{' :: segment, others)
  | false, '/' :: rest =>
    let (segment, others) := segmentsFrom false rest
    ([], segment :: others)
  | true, '}' :: '}' :: rest =>
    let (segment, others) := segmentsFrom false rest
    ('}' :: '}' :: segment, others)
  | inside, c :: rest =>
    let (segment, others) := segmentsFrom inside rest
    (c :: segment, others)
  | _, [] => ([], [])

/-- The segments of a path, one more than it has dividing slashes. -/
def segments (path : Text) : List Text :=
  let (segment, others) := segmentsFrom false path
  segment :: others

/-- Whether a path begins at the root. -/
def isAbsolute (path : Text) : Bool := path.head? == some '/'

/-- Takes one more segment into account. The segments so far are listed last first. Two dots undo
the last segment; where there is nothing to undo they are kept, or dropped at the root. -/
def push (absolute : Bool) (stack : List Text) (segment : Text) : List Text :=
  if segment = [] ∨ segment = ['.'] then stack
  else if segment = ['.', '.'] then
    match stack with
    | [] => if absolute then [] else [segment]
    | last :: below =>
      if last = ['.', '.'] then if absolute then stack else segment :: stack else below
  else segment :: stack

/-- The normal form of a path: no empty segments, no dots, and two dots at most at the beginning of
a relative path. The path of the directory itself is a dot. -/
def normalize (path : Text) : Text :=
  let absolute := isAbsolute path
  let parts := ((segments path).foldl (push absolute) []).reverse
  let joined := List.intercalate "/" parts
  if absolute then '/' :: joined else if joined.isEmpty then "." else joined

/-- Drops the slashes at the end of a text. -/
def trimSlashes (text : Text) : Text := (text.reverse.dropWhile (· = '/')).reverse

/-- The part of a path before its last dividing slash, without slashes at the end unless it has
nothing else; empty if no slash divides the path. -/
def dirname (path : Text) : Text :=
  let head := (segments path).dropLast.flatMap (· ++ ['/'])
  let trimmed := trimSlashes head
  if trimmed.isEmpty then head else trimmed

/-! ## Directories of files -/

/-- Splits a text at every slash. -/
def splitSlashes : Text → Text × List Text
  | [] => ([], [])
  | c :: rest =>
    let (part, others) := splitSlashes rest
    if c = '/' then ([], part :: others) else (c :: part, others)

/-- Whether a part of a path means nothing: it is empty, or a single dot. -/
def isIdle (part : Text) : Bool := part == [] || part == ['.']

/-- The steps of a path of a file system, where a placeholder has no meaning of its own: what stands
between slashes, without empty parts and dots. -/
def steps (path : Text) : List Text :=
  let (part, others) := splitSlashes path
  (part :: others).filter fun part => !isIdle part

/-- The directory that a file is in: the path up to its last part, without slashes and dots at the
end. It is empty for a path with a single part. -/
def parent (path : Text) : Text :=
  let (first, others) := splitSlashes path
  match others.reverse.dropWhile isIdle with
  | [] => []
  | _ :: before =>
    let before := before.dropWhile isIdle
    if before.isEmpty && first.isEmpty then "/"
    else List.intercalate "/" (first :: before.reverse)

/-- The path that `target` stands for inside the directory `dir`. An absolute path stands for
itself. -/
def resolve (dir target : Text) : Text :=
  if isAbsolute target || dir.isEmpty then target
  else if dir.getLast? == some '/' then dir ++ target
  else dir ++ "/" ++ target

end CachedWorkflow.Path
