import CachedWorkflow.Command.Run

/-!
# The command

Reads the files that a run needs, and prints or writes what the run leaves behind.
-/

namespace CachedWorkflow

/-- The fault of a failed operation on files. -/
def faultOf : IO.Error → FileFault
  | .noFileOrDirectory .. => .noSuchFile
  | .alreadyExists .. => .fileExists
  | .inappropriateType _ code _ =>
    if code = 21 || code = 0 - 21 then .isADirectory else .notADirectory
  | .invalidArgument _ code _ =>
    if code = 36 || code = 0 - 36 then .nameTooLong else .invalidName
  | error => .other error.toString.toList

/-- The text of a file. -/
def readFile (path : Text) : IO (Except ReadFault Text) := do
  try
    let bytes ← IO.FS.readBinFile (String.ofList path)
    match String.fromUTF8? bytes with
    | some text => return .ok text.toList
    | none => return .error .notUtf8
  catch error => return .error (.file (faultOf error))

/-- Reads pipelines and those that they call, as far as they have not been read. -/
partial def readPipelines (readings : List (Text × Except ReadFault Text)) :
    List Text → IO (List (Text × Except ReadFault Text))
  | [] => return readings
  | path :: rest =>
    if (readings.lookup path).isSome then readPipelines readings rest
    else do
      let reading ← readFile path
      let called := match reading with
        | .ok text => ((Yaml.read text).map (calledPaths path)).getD []
        | .error _ => []
      readPipelines ((path, reading) :: readings) (called ++ rest)

/-- Makes a directory, unless it exists. -/
def makeDirectory (path : Text) : IO Unit := do
  try IO.FS.createDir (String.ofList path)
  catch
    | .alreadyExists .. => IO.FS.createDirAll (String.ofList path)
    | error => throw error

/-- Makes a directory and those that it is in, as far as they do not exist. -/
partial def makeDirectories (path : Text) : IO Unit := do
  if !path.isEmpty then
    try makeDirectory path
    catch
      | .noFileOrDirectory .. =>
        makeDirectories (Path.parent path)
        makeDirectory path
      | error => throw error

/-- Writes the workflow, and makes the directory for it. -/
def writeFile (path text : Text) : IO (Except Failure Unit) := do
  let dir := Path.parent path
  try makeDirectories dir
  catch error => return .error (.directory dir (faultOf error))
  try
    IO.FS.writeFile (String.ofList path) (String.ofList text)
    return .ok ()
  catch error => return .error (.workflow path (faultOf error))

/-- Runs the compiler. -/
def Options.runOnFiles (options : Options) : IO (Except Failure Unit) := do
  let config ← match options.config with
    | some path => readFile path
    | none => pure (.ok [])
  let readText := fun path => config.mapError (.unreadable path)
  let library := Library.ofReadings (← readPipelines [] [options.input])
  match options.workflow readText library with
  | .error error => return .error (.pipeline error)
  | .ok text =>
    match options.output with
    | some path => writeFile path text
    | none =>
      IO.print (String.ofList text)
      return .ok ()

/-- How the command is used. -/
def usage : String :=
  "usage: cixx [-E | --preprocess-only] [--config FILE] [-v | --verbose] INPUT [OUTPUT]"

end CachedWorkflow

open CachedWorkflow in
/-- Runs the command with the given arguments. -/
def main (arguments : List String) : IO UInt32 := do
  match Request.ofArguments (arguments.map String.toList) with
  | .compile options =>
    match ← options.runOnFiles with
    | .ok () => return 0
    | .error failure =>
      IO.eprint (String.ofList failure.report)
      return 1
  | .version =>
    IO.print (String.ofList versionText)
    return 0
  | .help =>
    IO.println usage
    return 0
  | .misuse =>
    IO.eprintln usage
    return 2
