import UnrollAsm.Files.Path
import UnrollAsm.Session.Event

/-!
# Command Line Options

The arguments of the program. There are four options, each with a value, and
the two requests for help and for the version; there are no other arguments. A
value may be attached to its option or follow it as an argument of its own, but
an argument that looks like an option is never taken for a value.

A value that follows its option is looked at only when the next option comes or
the arguments end. Until then an unknown argument is reported first.

## Main definitions

* `Options`: The values of the options.
* `UsageError`: Why arguments are refused.
* `Argument`, `Argument.of`: The shape of an argument.
* `Options.parse`: Reads the arguments.
-/

namespace UnrollAsm

/-- Why arguments are refused. The requests for help and for the version end
    the program in the same way. -/
inductive UsageError where
  /-- An option that has to be there is missing. -/
  | missingOption
  | unknownArgument
  | repeatedOption
  /-- A value is missing, or is not a path. -/
  | invalidValue
  | invalidLevel
  /-- A value attached to a request that takes none. -/
  | unneededValue
  | helpRequested
  | versionRequested
  deriving DecidableEq, Repr

/-- The options that take a value. -/
inductive OptionName where
  | file
  | config
  | output
  | logLevel
  deriving DecidableEq, Repr

/-- What an argument that starts with a dash asks for. -/
inductive Flag where
  | option (name : OptionName)
  | help
  | version
  deriving DecidableEq, Repr

/-- The flag with a long name. -/
def Flag.ofLong? : String → Option Flag
  | "file" => some (option .file)
  | "config" => some (option .config)
  | "output" => some (option .output)
  | "log-level" => some (option .logLevel)
  | "help" => some help
  | "version" => some version
  | _ => none

/-- The flag with a short name. -/
def Flag.ofShort? : Char → Option Flag
  | 'f' => some (option .file)
  | 'c' => some (option .config)
  | 'o' => some (option .output)
  | 'l' => some (option .logLevel)
  | 'h' => some help
  | 'V' => some version
  | _ => none

/-- The shape of an argument. -/
inductive Argument where
  /-- Two dashes, after which no options are expected. -/
  | divider
  /-- A flag, known or not, with what is attached to it. -/
  | flag (flag : Option Flag) (attached : Option String)
  | plain (text : String)

/-- What is attached to a short flag. An equals sign in front is dropped. -/
def attachedValue : List Char → Option String
  | [] => none
  | '=' :: value => some (String.ofList value)
  | value => some (String.ofList value)

/-- The shape of a given argument. -/
def Argument.of (text : String) : Argument :=
  match text.toList with
  | ['-', '-'] => divider
  | '-' :: '-' :: rest =>
    let name := String.ofList (rest.takeWhile (· ≠ '='))
    let attached := match rest.dropWhile (· ≠ '=') with
      | [] => none
      | _ :: value => some (String.ofList value)
    flag (Flag.ofLong? name) attached
  | '-' :: c :: rest =>
    match Flag.ofShort? c with
    | some (.option name) => flag (some (.option name)) (attachedValue rest)
    | known => flag known none
  | _ => plain text

/-- The level that a text names, by its number or by its name in any case. -/
def Level.parse? (text : String) : Option Level :=
  let digits := match text.toList with
    | '+' :: rest => rest
    | cs => cs
  match Text.natural? digits with
  | some n => all.find? fun level => level.rank = n
  | none =>
    let upper := String.ofList (text.toList.map Char.toUpper)
    all.find? fun level => level.label = upper

/-- The values of the options. -/
structure Options where
  file : Path
  config : Path
  output : Option Path
  level : Level

namespace Options

/-- The configuration that is read unless the user names another. -/
def defaultConfig : Path := ⟨.dot, ["config.cfg"]⟩

/-- The level up to which events are shown unless the user names another. -/
def defaultLevel : Level := .warn

/-- The options read so far. The last one may still lack its value, and its
    value has not been looked at. -/
structure Draft where
  file : Option Path
  config : Option Path
  output : Option Path
  level : Option Level
  pending : Option (OptionName × Option String)

/-- A value that is set once. -/
def once {α : Type} (old : Option α) (value : Except UsageError α) :
    Except UsageError (Option α) :=
  if old.isSome then .error .repeatedOption else value.map some

/-- Reads a path, which must not be empty. -/
def readPath (text : String) : Except UsageError Path :=
  if text = "" then .error .invalidValue else .ok (.parse text)

/-- Reads a level. -/
def readLevel (text : String) : Except UsageError Level :=
  match Level.parse? text with
  | some level => .ok level
  | none => .error .invalidLevel

/-- Gives an option its value. -/
def assign (d : Draft) (name : OptionName) : Option String → Except UsageError Draft
  | none => .error .invalidValue
  | some value =>
    match name with
    | .file => do return { d with file := ← once d.file (readPath value) }
    | .config => do return { d with config := ← once d.config (readPath value) }
    | .output => do return { d with output := ← once d.output (readPath value) }
    | .logLevel => do return { d with level := ← once d.level (readLevel value) }

/-- Gives the option that is still pending its value. -/
def settle (d : Draft) : Except UsageError Draft :=
  match d.pending with
  | none => .ok d
  | some (name, value) => assign { d with pending := none } name value

/-- The effect of a flag. -/
def applyFlag (d : Draft) : Flag → Option String → Except UsageError Draft
  | .option name, some value => do
    let d ← settle d
    assign d name (some value)
  | .option name, none => do
    let d ← settle d
    return { d with pending := some (name, none) }
  | .help, none => do
    let _ ← settle d
    throw .helpRequested
  | .version, none => do
    let _ ← settle d
    throw .versionRequested
  | _, some _ => .error .unneededValue

/-- Reads arguments on top of those read so far. -/
def readArguments (d : Draft) : List String → Except UsageError Draft
  | [] => settle d
  | argument :: rest =>
    match Argument.of argument with
    | .divider => if rest.isEmpty then settle d else .error .unknownArgument
    | .flag none _ => .error .unknownArgument
    | .flag (some flag) attached => do
      let d ← applyFlag d flag attached
      readArguments d rest
    | .plain text =>
      match d.pending with
      | some (name, none) => readArguments { d with pending := some (name, some text) } rest
      | _ => .error .unknownArgument

/-- Reads the arguments of the program, without its name. -/
def parse (arguments : List String) : Except UsageError Options := do
  let d ← readArguments ⟨none, none, none, none, none⟩ arguments
  match d.file with
  | none => throw .missingOption
  | some file =>
    return { file
             config := d.config.getD defaultConfig
             output := d.output
             level := d.level.getD defaultLevel }

end Options

end UnrollAsm
