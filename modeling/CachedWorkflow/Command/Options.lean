import CachedWorkflow.Text

/-!
# Arguments of the command

The command takes the path of a pipeline, the path of the workflow to write, and options. Options may
stand anywhere before a double dash. Arguments are taken in from left to right, and the first one that
asks for help, for the version or for something unknown settles what the command does.
-/

namespace CachedWorkflow

/-- What a run of the compiler is asked to do. -/
structure Options where
  input : Text
  /-- The path of the workflow; without one it goes to the standard output. -/
  output : Option Text := none
  /-- Whether to write the pipeline in normal form, without compiling it. -/
  preprocessOnly : Bool := false
  config : Option Text := none
  verbose : Bool := false
  deriving DecidableEq, Repr

/-- What the arguments of the command ask for. -/
inductive Request where
  | compile (options : Options)
  | version
  | help
  | misuse
  deriving DecidableEq, Repr

namespace Request

/-- The options that have been taken in so far, with the paths in the order in which they came. -/
structure Partial where
  /-- The path of the pipeline, and that of the workflow. -/
  paths : List Text := []
  preprocessOnly : Bool := false
  config : Option Text := none
  verbose : Bool := false

/-- The next step of taking in arguments: to go on, or to stop with a request. -/
abbrev Step := Except Request Partial

namespace Partial

variable (p : Partial)

/-- Takes in a path. There are two at most, and none is empty. -/
def addPath (path : Text) : Step :=
  if path.isEmpty || 2 ≤ p.paths.length then .error .misuse
  else .ok { p with paths := p.paths ++ [path] }

/-- Takes in the path of the configuration, which is given once. -/
def addConfig (path : Text) : Step :=
  if path.isEmpty || p.config.isSome then .error .misuse else .ok { p with config := some path }

/-- Takes in the request not to compile, which is made once. -/
def addPreprocessOnly : Step :=
  if p.preprocessOnly then .error .misuse else .ok { p with preprocessOnly := true }

/-- Takes in the request for details, which is made once. -/
def addVerbose : Step :=
  if p.verbose then .error .misuse else .ok { p with verbose := true }

/-- Takes in one of several options that share a dash. -/
def addLetter (letter : Char) : Step :=
  match letter with
  | 'E' => p.addPreprocessOnly
  | 'v' => p.addVerbose
  | 'V' => .error .version
  | 'h' => .error .help
  | _ => .error .misuse

/-- Takes in an option with a long name that has no value. -/
def addNamed (name : Text) : Step :=
  if name = "preprocess-only" then p.addPreprocessOnly
  else if name = "verbose" then p.addVerbose
  else if name = "version" then .error .version
  else if name = "help" then .error .help
  else .error .misuse

/-- What is asked for once all arguments are taken in. -/
def finish : Request :=
  match p.paths with
  | [] => .misuse
  | input :: rest =>
    .compile
      { input
        output := rest.head?
        preprocessOnly := p.preprocessOnly
        config := p.config
        verbose := p.verbose }

end Partial

/-- Whether an argument can be a value: it does not begin with a dash, or is a dash. -/
def isValue (argument : Text) : Bool := argument.head? != some '-' || argument == ['-']

/-- Takes in all arguments. -/
def takeIn (p : Partial) : List Text → Step
  | [] => .ok p
  | ['-', '-'] :: rest => rest.foldlM Partial.addPath p
  | ('-' :: '-' :: option) :: rest =>
    let name := option.takeWhile (· != '=')
    match option.drop name.length with
    | _ :: value => do
      if name = "config" then takeIn (← p.addConfig value) rest else .error .misuse
    | [] =>
      if name = "config" then
        match rest with
        | value :: rest => do
          if isValue value then takeIn (← p.addConfig value) rest else .error .misuse
        | [] => .error .misuse
      else do takeIn (← p.addNamed name) rest
  | ('-' :: letter :: letters) :: rest => do
    takeIn (← (letter :: letters).foldlM Partial.addLetter p) rest
  | path :: rest => do takeIn (← p.addPath path) rest

/-- What a list of arguments asks for. -/
def ofArguments (arguments : List Text) : Request :=
  match takeIn {} arguments with
  | .ok p => p.finish
  | .error request => request

end Request

end CachedWorkflow
