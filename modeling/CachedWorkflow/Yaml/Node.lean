import CachedWorkflow.Yaml.Lexeme

/-!
# Nodes of a YAML document

The lexemes of a text form a tree of nodes. An alias refers to the node with its anchor. Nodes with an
anchor are numbered, and an alias holds the number that its anchor had when the alias was met; what the
number stands for is only known at the end of the document.
-/

namespace CachedWorkflow.Yaml

/-- A node of a document. -/
inductive Node where
  /-- A scalar; only a plain one can be anything but a string. -/
  | scalar (tag : Option Tag) (text : Text) (plain : Bool)
  | sequence (tag : Option Tag) (items : List Node)
  | mapping (tag : Option Tag) (entries : List (Node × Node))
  /-- A reference to the node with the given number. -/
  | alias (number : Nat)
  deriving Repr, Inhabited

/-- A node that is not written down. -/
def Node.absent : Node := .scalar none [] true

/-- The state of building a tree of nodes. -/
structure Building where
  /-- The lexemes that are still to be taken in. -/
  lexemes : List Lexeme
  /-- The handles of tags and what they stand for. -/
  handles : List (Text × Tag) := []
  /-- The numbers of the anchors that have been met. -/
  numbers : List (Text × Nat) := []
  /-- For every number, how many anchored nodes began before the last one with it. -/
  starts : List (Nat × Nat) := []
  /-- How many anchored nodes have begun. -/
  begun : Nat := 0
  /-- The anchored nodes, with how many had begun before each. -/
  anchored : List (Nat × Node) := []
  /-- The number of steps that it takes to walk over all nodes, in which a collection counts twice. -/
  size : Nat := 0

/-- A computation that builds nodes or fails. -/
abbrev Build := StateT Building Option

namespace Building

/-- The next lexeme. -/
def peek : Build (Option Lexeme) := do return (← get).lexemes.head?

/-- Takes in the next lexeme. -/
def advance : Build Unit := modify fun b => { b with lexemes := b.lexemes.tail }

/-- Counts steps of the walk over all nodes. -/
def count (n : Nat) : Build Unit := modify fun b => { b with size := b.size + n }

/-- Changes the value of a key of a list of pairs, or adds the pair. -/
def assign {α β : Type} [BEq α] (key : α) (value : β) : List (α × β) → List (α × β)
  | [] => [(key, value)]
  | pair :: rest => if pair.1 == key then (key, value) :: rest else pair :: assign key value rest

/-- Notes that the node with an anchor begins. Its number is that of the different anchors so far. -/
def beginAnchor (name : Text) : Build Nat := do
  let b ← get
  let number := b.numbers.length
  set { b with
    numbers := assign name number b.numbers
    starts := assign number b.begun b.starts
    begun := b.begun + 1 }
  return b.begun

/-- Notes the node whose anchor was the one to begin after `start` others. -/
def endAnchor (start : Option Nat) (node : Node) : Build Node := do
  match start with
  | none => return node
  | some start =>
    modify fun b => { b with anchored := (start, node) :: b.anchored }
    return node

/-- What a tag stands for once its handle is resolved. -/
def resolveTag (handle : Text) (suffix : Tag) : Build Tag := do
  if handle.isEmpty then return suffix
  else
    match (← get).handles.lookup handle with
    | some expansion => return expansion ++ suffix
    | none => failure

/-- Takes in an anchor, if there is one. -/
def readAnchor : Build (Option Nat) := do
  match ← peek with
  | some (.anchor name) => advance; return some (← beginAnchor name)
  | _ => return none

/-- Takes in a tag, if there is one. -/
def readTag : Build (Option (Text × Tag)) := do
  match ← peek with
  | some (.tag handle suffix) => advance; return some (handle, suffix)
  | _ => return none

/-- Takes in an anchor and a tag, in either order. -/
def readProperties : Build (Option Nat × Option Tag) := do
  let before ← readAnchor
  let tag ← readTag
  let start ← match before with
    | some start => pure (some start)
    | none => if tag.isSome then readAnchor else pure none
  match tag with
  | none => return (start, none)
  | some (handle, suffix) => return (start, some (← resolveTag handle suffix))

/-- A node that is not written down. -/
def absentNode : Build Node := do
  count 1
  return .absent

/-- Whether the next lexeme is one of the given ones. -/
def nextIn (lexemes : List Lexeme) : Build Bool := do
  match ← peek with
  | some l => return l ∈ lexemes
  | none => return false

mutual

/-- Builds the node at the next lexeme. Block collections only stand where `block` holds; where
`indentless` holds too, a sequence may stand without an indentation of its own. Each lexeme allows for
a few steps, so `depth` bounds the recursion. -/
def node : (depth : Nat) → (block indentless : Bool) → Build Node
  | 0, _, _ => failure
  | depth + 1, block, indentless => do
    if let some (.alias name) ← peek then
      match (← get).numbers.lookup name with
      | none => failure
      | some number =>
        advance
        count 1
        return .alias number
    let (start, tag) ← readProperties
    let result ← match ← peek with
      | some .entry =>
        if indentless then
          count 2
          pure (.sequence tag (← indentlessItems depth))
        else bare start tag
      | some (.scalar text plain) =>
        advance
        count 1
        pure (.scalar tag text plain)
      | some .flowSequenceStart =>
        advance
        count 2
        pure (.sequence tag (← flowItems depth true))
      | some .flowMappingStart =>
        advance
        count 2
        pure (.mapping tag (← flowEntries depth true))
      | some .sequenceStart =>
        if block then
          advance
          count 2
          pure (.sequence tag (← blockItems depth))
        else bare start tag
      | some .mappingStart =>
        if block then
          advance
          count 2
          pure (.mapping tag (← blockEntries depth))
        else bare start tag
      | _ => bare start tag
    endAnchor start result

/-- A node that has an anchor or a tag only. -/
def bare (start : Option Nat) (tag : Option Tag) : Build Node := do
  if start.isNone && tag.isNone then failure
  else
    count 1
    return .scalar tag [] true

/-- Builds the items of a block sequence, up to its end. -/
def blockItems : (depth : Nat) → Build (List Node)
  | 0 => failure
  | depth + 1 => do
    match ← peek with
    | some .blockEnd => advance; return []
    | some .entry =>
      advance
      let item ← if ← nextIn [.entry, .blockEnd] then absentNode else node depth true false
      return item :: (← blockItems depth)
    | _ => failure

/-- Builds the items of a sequence that is indented as the mapping that it is in. -/
def indentlessItems : (depth : Nat) → Build (List Node)
  | 0 => failure
  | depth + 1 => do
    match ← peek with
    | some .entry =>
      advance
      let item ← if ← nextIn [.entry, .key, .value, .blockEnd] then absentNode
        else node depth true false
      return item :: (← indentlessItems depth)
    | _ => return []

/-- Builds the entries of a block mapping, up to its end. -/
def blockEntries : (depth : Nat) → Build (List (Node × Node))
  | 0 => failure
  | depth + 1 => do
    match ← peek with
    | some .blockEnd => advance; return []
    | some .key =>
      advance
      let key ← if ← nextIn [.key, .value, .blockEnd] then absentNode else node depth true true
      let value ← match ← peek with
        | some .value => do
          advance
          if ← nextIn [.key, .value, .blockEnd] then absentNode else node depth true true
        | _ => absentNode
      return (key, value) :: (← blockEntries depth)
    | _ => failure

/-- Builds the items of a flow sequence, up to its end. An item may be a single pair. -/
def flowItems : (depth : Nat) → (first : Bool) → Build (List Node)
  | 0, _ => failure
  | depth + 1, first => do
    if ← nextIn [.flowSequenceEnd] then
      advance
      return []
    if !first then
      if ← nextIn [.flowEntry] then advance else failure
    match ← peek with
    | some .flowSequenceEnd => advance; return []
    | some .key =>
      advance
      count 2
      let key ← if ← nextIn [.value, .flowEntry, .flowSequenceEnd] then do
          advance
          absentNode
        else node depth false false
      let value ← match ← peek with
        | some .value => do
          advance
          if ← nextIn [.flowEntry, .flowSequenceEnd] then absentNode else node depth false false
        | _ => absentNode
      return .mapping none [(key, value)] :: (← flowItems depth false)
    | _ =>
      let item ← node depth false false
      return item :: (← flowItems depth false)

/-- Builds the entries of a flow mapping, up to its end. -/
def flowEntries : (depth : Nat) → (first : Bool) → Build (List (Node × Node))
  | 0, _ => failure
  | depth + 1, first => do
    if ← nextIn [.flowMappingEnd] then
      advance
      return []
    if !first then
      if ← nextIn [.flowEntry] then advance else failure
    match ← peek with
    | some .flowMappingEnd => advance; return []
    | some .key =>
      advance
      let key ← if ← nextIn [.value, .flowEntry, .flowMappingEnd] then absentNode
        else node depth false false
      let value ← match ← peek with
        | some .value => do
          advance
          if ← nextIn [.flowEntry, .flowMappingEnd] then absentNode else node depth false false
        | _ => absentNode
      return (key, value) :: (← flowEntries depth false)
    | _ =>
      let key ← node depth false false
      let value ← absentNode
      return (key, value) :: (← flowEntries depth false)

end

/-- Takes in the directives before a document; there is one version at most, and no handle is
declared twice. -/
def readDirectives : (directives : Nat) → (version : Bool) → List (Text × Tag) →
    Build (List (Text × Tag))
  | 0, _, handles => return handles
  | n + 1, version, handles => do
    match ← peek with
    | some (.version major minor) =>
      if version || major ≠ 1 || (minor ≠ 1 && minor ≠ 2) then failure
      else
        advance
        readDirectives n true handles
    | some (.handle name expansion) =>
      if (handles.lookup name).isSome then failure
      else
        advance
        readDirectives n version ((name, expansion) :: handles)
    | _ => return handles

/-- The handles that every document knows. -/
def standardHandles : List (Text × Tag) :=
  [("!", Tag.ofText "!"), ("!!", Tag.standard [])]

/-- Whether the next lexeme belongs to what is around documents. The end of the text does. -/
def betweenDocuments : Build Bool := do
  match ← peek with
  | none | some .documentStart | some .documentEnd | some (.version ..) | some (.handle ..) =>
    return true
  | _ => return false

/-- Builds the only document of a text; `none` stands for a text without any. -/
def document (depth : Nat) : Build (Option Node) := do
  match ← peek with
  | none => return none
  | some _ =>
    let explicit ← nextIn [.documentStart]
    let directives := match ← peek with
      | some (.version ..) | some (.handle ..) => true
      | _ => false
    let handles ← readDirectives depth false []
    modify fun b => { b with handles := handles ++ standardHandles }
    let root ← if explicit || directives then do
        if ← nextIn [.documentStart] then advance else failure
        if ← betweenDocuments then absentNode else node depth true false
      else node depth true false
    modify fun b => { b with lexemes := b.lexemes.dropWhile (· == .documentEnd) }
    if (← get).lexemes.isEmpty then return some root else failure

end Building

end CachedWorkflow.Yaml
