import UnrollAsm.CommandLine.Job

/-!
# The Program

The command line on the disk of the machine: options are read, the job is run,
events up to the chosen level go to the standard error output, and the exit
code says whether the job succeeded. How tables are drawn is left open.

## Main definitions

* `Machine.program`: The program.
-/

namespace UnrollAsm

namespace Machine

/-- The error of the machine as one of the errors that jobs know. The machine
    may report its code with either sign. -/
def fileError : IO.Error → FileError
  | .noFileOrDirectory .. | .noSuchThing .. => .notFound
  | .alreadyExists .. => .alreadyExists
  | .inappropriateType _ code details =>
    if code = 20 ∨ code = -20 then .notDirectory
    else if code = 21 ∨ code = -21 then .isDirectory
    else .other details
  | .invalidArgument _ code details =>
    if code = 36 ∨ code = -36 then .nameTooLong else .other details
  | e => .other (toString e)

/-- An operation of the machine on a path, with its error as a value. -/
def attempt {α : Type} (p : Path) (operation : String → IO α) : IO (Except FileError α) := do
  if p.hasNul then return .error .nulInName
  try
    return .ok (← operation p.text)
  catch e =>
    return .error (fileError e)

/-- What stands at a path: a file can be read, and a directory says that it is
    one. -/
def info (p : Path) : IO (Except FileError FileInfo) := do
  match ← attempt p fun name => IO.FS.readBinFile name with
  | .ok content => return .ok (.file content.size)
  | .error .isDirectory => return .ok .directory
  | .error e => return .error e

instance : FileSystem IO where
  info := info
  read p := attempt p fun name => IO.FS.readBinFile name
  createDirectory p := attempt p fun name => IO.FS.createDir name
  write p content := attempt p fun name => IO.FS.writeBinFile name content

/-- The text that explains the options. -/
def usage : String :=
  "Usage: unroll-asm [OPTIONS] --file <FILE>\n\n" ++
  "Options:\n" ++
  "  -f, --file <FILE>            Assembly source file (.asm)\n" ++
  "  -c, --config <CONFIG>        Hardware configuration (.cfg) [default: ./config.cfg]\n" ++
  "  -o, --output <OUTPUT>        Machine code output file (.vmc)\n" ++
  "  -l, --log-level <LOG_LEVEL>  Level of detail of the log [default: WARN]\n" ++
  "  -h, --help                   Print help\n" ++
  "  -V, --version                Print version\n"

/-- What the program says about arguments that it refuses. -/
def complaint : UsageError → String
  | .missingOption => "the option --file is required"
  | .unknownArgument => "unexpected argument"
  | .repeatedOption => "an option is given more than once"
  | .invalidValue => "an option needs a value"
  | .invalidLevel => "the log level is not one of error, warn, info, debug, trace"
  | .unneededValue => "a value for an option that takes none"
  | .helpRequested | .versionRequested => ""

/-- Answers a request, or complains about the arguments. -/
def refuse (e : UsageError) : IO UInt32 := do
  match e with
  | .helpRequested =>
    IO.print usage
    return 0
  | .versionRequested =>
    IO.println "unroll-asm 0.1.0"
    return 0
  | e =>
    IO.eprintln s!"error: {complaint e}"
    IO.eprint usage
    return 2

/-- The program: reads its options, runs the job, and reports. -/
def program (drawing : Drawing) (arguments : List String) : IO UInt32 := do
  match Options.parse arguments with
  | .error e => refuse e
  | .ok options =>
    let (outcome, log) ← (Job.run drawing (some options.level) options : IO _)
    for (level, message) in worded drawing options.level log do
      IO.eprintln s!"{level.label} {message}"
    match outcome with
    | .ok () => return 0
    | .error e =>
      IO.eprintln s!"ERROR {e.message}"
      return 1

end Machine

end UnrollAsm
