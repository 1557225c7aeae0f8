/-
# The command

Arguments and environment give a request, the request is checked, and the conversion happens.
What is read and written is decided elsewhere; here files are opened and messages printed.

The content of files is asked for by a function that knows the files read so far.  When it is
asked for another one, that file is read and the request is planned again from the start.
-/
import BlockDoc.Command.Arguments
import BlockDoc.Command.Convert

namespace BlockDoc.Main

open BlockDoc.Command

/-- How the command is used. -/
def usage : String :=
  "Convert block documents between archive, binary and text forms\n\n" ++
  "Usage: [OPTIONS] <COMMAND> <INPUT> <OUTPUT>\n\n" ++
  "Commands:\n" ++
  "  unpack  Decrypt an archive into a text dump\n" ++
  "  pack    Build an archive from a text dump [--seed <SEED>]\n" ++
  "  decode  Convert a binary document into a text dump [--grouped]\n" ++
  "  encode  Convert a text dump into a binary document [--grouped]\n" ++
  "  code    Split a brace-structured code listing into a text dump\n\n" ++
  "Options:\n" ++
  "  --encoding <ENCODING>    Encoding of text dumps and code listings\n" ++
  "  --log-level <LOG_LEVEL>  How much is to be logged\n" ++
  "  -h, --help               Print help\n" ++
  "  -V, --version            Print version"

/-- The version of the program. -/
def version : String := "0.2.0"

/-- The words for a command line that gives no request. -/
def usageMessage : UsageError → String
  | .helpOnMissing => usage
  | .help => usage
  | .version => version
  | .invalidSubcommand => "unrecognized subcommand"
  | .missingSubcommand => "a subcommand is required but was not given"
  | .unknownArgument => "unexpected argument found"
  | .missingRequired => "the required arguments were not provided"
  | .invalidValue => "a value is required but none was supplied"
  | .valueValidation => "invalid value for an option"
  | .conflict => "an option cannot be used multiple times"
  | .tooManyValues => "unexpected value for an option"

/-- The cause of a failed file operation. -/
def failureOf : IO.Error → IoFailure
  | .noFileOrDirectory _ _ _ => .notFound
  | .inappropriateType _ 20 _ => .notADirectory
  | .inappropriateType _ 21 _ => .isADirectory
  | e => .other (toString e)

/-- The content of a file. -/
def contentOf (path : String) : IO (Except IoFailure Bytes) := do
  try
    let bytes ← IO.FS.readBinFile path
    return .ok bytes.toList
  catch e => return .error (failureOf e)

/-- Whether a path leads to something. -/
def isPresent (path : String) : IO Bool := do
  try
    let _ ← IO.FS.realPath path
    return true
  catch _ => return false

/-- The files that were read so far. -/
abbrev Known := List (String × Except IoFailure Bytes)

/-- Read a file if it is known. -/
def Known.read (known : Known) (path : String) : Except IoFailure Bytes :=
  (known.lookup path).getD (.error (.unread path))

/-- The file that was asked for without being known. -/
def unread? : ConvertError → Option String
  | .convert _ (.io (.unread path)) => some path
  | .read _ (.unread path) => some path
  | _ => none

/-- Plan a request, reading the files that it asks for. -/
partial def planWith (known : Known) (c : Config) :
    IO (Except ConvertError (Document × Emission)) := do
  match plan known.read c with
  | .ok r => return .ok r
  | .error e => match unread? e with
    | none => return .error e
    | some path => do
      let content ← contentOf path
      planWith ((path, content) :: known) c

/-- Write what an emission says to a file. -/
def emit (path : String) (e : Emission) : IO (Except Error Unit) := do
  match e.content? with
  | none => return e.result
  | some bytes =>
    try
      IO.FS.writeBinFile path ⟨bytes.toArray⟩
      return e.result
    catch failure => return .error (.io (failureOf failure))

/-- Fulfil a request, or say why that is not possible. -/
def fulfil (c : Config) : IO (Except String Unit) := do
  let present ← isPresent c.input
  match c.validate fun _ => present with
  | .error e => return .error e.message
  | .ok _ => match ← planWith [] c with
    | .error e => return .error e.message
    | .ok (_, e) => match ← emit c.output e with
      | .error e => return .error (ConvertError.convert c.output e).message
      | .ok _ => return .ok ()

/-- Print a message for a command line that gives no request; the exit code. -/
def complain (e : UsageError) : IO UInt32 := do
  if e = .help || e = .version then
    IO.println (usageMessage e)
    return 0
  else
    IO.eprintln ("error: " ++ usageMessage e)
    return 2

/-- Do what a command line asks for; the exit code. -/
def start (args : List String) : IO UInt32 := do
  let env : Environment := {
    encoding? := ← IO.getEnv "RSCRIPT_ENCODING"
    logLevel? := ← IO.getEnv "RSCRIPT_LOG_LEVEL"
    seed? := ← IO.getEnv "RSCRIPT_SEED" }
  match parseArguments env args with
  | .error e => complain e
  | .ok c => match ← fulfil c with
    | .ok _ => return 0
    | .error message =>
      IO.eprintln ("Error: " ++ message)
      return 1

end BlockDoc.Main

/-- The entry point. -/
def main (args : List String) : IO UInt32 := BlockDoc.Main.start args
