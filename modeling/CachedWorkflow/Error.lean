import CachedWorkflow.Json.Basic

/-!
# Errors

What can be wrong with a pipeline. An error is a cause with the data that a reader needs to find the
place; its wording is in `Error.message` and `Error.fix`, and nowhere else.
-/

namespace CachedWorkflow

/-- The kinds of document values. -/
inductive Kind where
  | null
  | bool
  | number
  | string
  | array
  | object
  deriving DecidableEq, Repr

/-- The name of a kind. -/
def Kind.name : Kind → Text
  | .null => "null"
  | .bool => "bool"
  | .number => "number"
  | .string => "string"
  | .array => "array"
  | .object => "object"

/-- The kind of a value. -/
def Json.kind : Json → Kind
  | .null => .null
  | .bool _ => .bool
  | .number _ => .number
  | .string _ => .string
  | .array _ => .array
  | .object _ => .object

/-- What a place of a document must hold. -/
inductive Expectation where
  | object
  | array
  | string
  | bool
  | stringOrBool
  deriving DecidableEq, Repr

/-- The expectation as a phrase. -/
def Expectation.phrase : Expectation → Text
  | .object => "an object"
  | .array => "an array"
  | .string => "a string"
  | .bool => "a bool"
  | .stringOrBool => "a string or bool"

/-- Why a text is no usable job identifier. -/
inductive JobIdFault where
  | empty
  | malformed
  /-- The identifier is the one of the initialization job. -/
  | reserved
  deriving DecidableEq, Repr

/-- The reason as a phrase. -/
def JobIdFault.reason : JobIdFault → Text
  | .empty => "cannot be empty"
  | .malformed =>
    "must start with a letter or '_' and contain only letters, digits, '-' or '_'"
  | .reserved => "reserved for the initialization job"

/-- Why a file or a directory could not be used. -/
inductive FileFault where
  | noSuchFile
  | fileExists
  | notADirectory
  | isADirectory
  | nameTooLong
  /-- The path holds a character that no path may hold. -/
  | invalidName
  /-- Any other fault, in the words of the operating system. -/
  | other (reason : Text)
  deriving DecidableEq, Repr

/-- The reason as a phrase. -/
def FileFault.reason : FileFault → Text
  | .noSuchFile => "No such file or directory (os error 2)"
  | .fileExists => "File exists (os error 17)"
  | .notADirectory => "Not a directory (os error 20)"
  | .isADirectory => "Is a directory (os error 21)"
  | .nameTooLong => "File name too long (os error 36)"
  | .invalidName => "file name contained an unexpected NUL byte"
  | .other reason => reason

/-- Why a document could not be read. -/
inductive ReadFault where
  | file (fault : FileFault)
  | notUtf8
  /-- The collection of documents in memory has none under this path. -/
  | noSuchDocument
  deriving DecidableEq, Repr

/-- The reason as a phrase. -/
def ReadFault.reason : ReadFault → Text
  | .file fault => fault.reason
  | .notUtf8 => "stream did not contain valid UTF-8"
  | .noSuchDocument => "no such document"

/-- What can be wrong with a pipeline. -/
inductive Error where
  | unreadable (path : Text) (fault : ReadFault)
  /-- The text at `path` is no YAML document. -/
  | unparsable (path : Text)
  /-- A place of a document holds a value of the wrong kind. -/
  | wrongKind (location : Text) (expected : Expectation) (found : Kind)
  | missingField (location field : Text)
  | invalidJobId (id : Text) (fault : JobIdFault)
  /-- A placeholder of the template is not closed. -/
  | malformedTemplate (template : Text)
  | unknownDependency (job dependency : Text)
  /-- Each element of the list needs or uses the next one; the last element is the first again. -/
  | cycle (chain : List Text)
  | notAPipelineJob (job : Text)
  /-- A call site does not provide a required input. -/
  | missingInput (job input pipeline : Text)
  | invalidConfiguration (path : Text)
  deriving DecidableEq, Repr

/-- The message of an error, with its code. -/
def Error.message : Error → Text
  | .unreadable path fault => "CIXX-001: Failed to read '" ++ path ++ "': " ++ fault.reason
  | .unparsable path => "CIXX-002: Failed to parse '" ++ path ++ "'"
  | .wrongKind location expected found =>
    "CIXX-010: Expected " ++ expected.phrase ++ " at '" ++ location ++ "' but found " ++ found.name
  | .missingField location field =>
    "CIXX-011: Missing required property '" ++ field ++ "' at '" ++ location ++ "'"
  | .invalidJobId id fault => "CIXX-012: Invalid job ID '" ++ id ++ "': " ++ fault.reason
  | .malformedTemplate template => "CIXX-020: Incomplete expression in: " ++ template
  | .unknownDependency job dependency =>
    "CIXX-030: Job '" ++ job ++ "' needs unknown job '" ++ dependency ++ "'"
  | .cycle chain => "CIXX-031: Cycle detected in needs: " ++ List.intercalate " → " chain
  | .notAPipelineJob job => "CIXX-032: Job '" ++ job ++ "' is not a pipeline job of this workflow"
  | .missingInput job input pipeline =>
    "CIXX-040: Job '" ++ job ++ "' does not provide required input '" ++ input ++ "' of '"
      ++ pipeline ++ "'"
  | .invalidConfiguration path => "CIXX-050: Invalid configuration '" ++ path ++ "'"

/-- What to do about an error. -/
def Error.fix : Error → Text
  | .unreadable .. => "Check file path and permissions"
  | .unparsable .. => "Check YAML syntax: indentation and quoting"
  | .wrongKind .. => "Fix the value at the reported location to have the expected type"
  | .missingField .. => "Add the missing property to the job"
  | .invalidJobId .. =>
    "Job IDs start with a letter or '_' and contain only letters, digits, '-' or '_'"
  | .malformedTemplate .. =>
    "Close every '$\x7b\x7b' with '\x7d\x7d' and every quote inside expressions with \"'\""
  | .unknownDependency .. =>
    "Verify the job exists in the workflow or in an expanded cixx-uses pipeline"
  | .cycle .. => "Remove the circular dependency - jobs cannot (transitively) need themselves"
  | .notAPipelineJob .. =>
    "Only jobs with 'steps' are assembled; build the graph from the same workflow"
  | .missingInput .. => "Pass the input in the job's 'with:' block or give it a default"
  | .invalidConfiguration .. => "Check the TOML syntax and key names"

end CachedWorkflow
