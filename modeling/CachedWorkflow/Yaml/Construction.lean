import CachedWorkflow.Yaml.Node
import CachedWorkflow.Yaml.Plain

/-!
# Values of nodes

What the nodes of a document stand for. An alias stands for the value of another node, which is built
again for every alias. Collections do not nest deeper than `maxNesting`, and there is a limit on how
many aliases are followed, so that a small text cannot stand for an endless value.
-/

namespace CachedWorkflow.Yaml

/-- How deep collections nest. -/
def maxNesting : Nat := 128

/-- The value of a scalar that has no tag. -/
def untaggedScalar (text : Text) (plain : Bool) : Option Value :=
  if plain then ofPlain? text else some (.string text)

/-- The value of a scalar. The tags of YAML itself ask for a kind of value; other tags that are not
local ask for a string. A local tag that is no text means nothing. -/
def scalarValue (tag : Option Tag) (text : Text) (plain : Bool) : Option Value :=
  match tag with
  | none => untaggedScalar text plain
  | some tag =>
    if tag.isLocal then
      match tag.localName? with
      | some name => (untaggedScalar text plain).map (.tagged name)
      | none => untaggedScalar text plain
    else if tag = Tag.standard "bool" then (boolWord? text).map .bool
    else if tag = Tag.standard "int" then (longInteger? text).bind integerValue?
    else if tag = Tag.standard "float" then double? text
    else if tag = Tag.standard "null" then if isNullWord text then some .null else none
    else some (.string text)

/-- Gives a collection the name of its tag, if the tag is local. -/
def nameCollection (tag : Option Tag) (value : Value) : Value :=
  match tag.bind Tag.localName? with
  | some name => .tagged name value
  | none => value

/-- Adds an entry to a mapping. No key stands there twice. -/
def addEntry (entries : List (Value × Value)) (entry : Value × Value) :
    Option (List (Value × Value)) :=
  if hasKey entries entry.1 then none else some (entries ++ [entry])

/-- A computation that may follow a number of aliases. -/
abbrev Construct := StateT Nat Option

namespace Building

variable (b : Building)

/-- The node that an alias with the given number refers to. -/
def target? (number : Nat) : Option Node := do b.anchored.lookup (← b.starts.lookup number)

/-- Follows an alias. -/
def follow (number : Nat) : Construct Node := do
  match ← get with
  | 0 => failure
  | left + 1 =>
    set left
    b.target? number

/-- The value of a node whose collections nest at most as deep as `depth`. -/
def valueOf : (depth : Nat) → Node → Construct Value := fun depth node => do
  let node ← match node with
    | .alias number => b.follow number
    | node => pure node
  match node with
  | .alias _ => failure
  | .scalar tag text plain => (scalarValue tag text plain : Option Value)
  | .sequence tag items =>
    match depth with
    | 0 => failure
    | depth + 1 => return nameCollection tag (.sequence (← items.mapM (valueOf depth)))
  | .mapping tag entries =>
    match depth with
    | 0 => failure
    | depth + 1 =>
      let entries ← entries.mapM fun (key, value) => do
        return (← valueOf depth key, ← valueOf depth value)
      return nameCollection tag (.mapping (← (entries.foldlM addEntry [] : Option _)))

/-- The value of the document with the given root. A hundred aliases may be followed for every step of
the walk over its nodes. -/
def valueOfRoot (root : Node) : Option Value :=
  ((b.valueOf maxNesting root).run (b.size * 100)).map Prod.fst

end Building

end CachedWorkflow.Yaml
