import UnrollAsm.Files.Path

/-!
# File Systems

The few operations on files that the command line needs, for any kind of
effect. The program is written against these operations, so that it runs on the
disk of a machine and equally on a disk that is a value.

## Main definitions

* `FileError`: Why an operation on files failed.
* `FileInfo`: What stands at a path.
* `FileSystem`: The operations.
* `FileSystem.createDirectories`: Creates a directory and what is missing above it.
-/

namespace UnrollAsm

/-- Why an operation on files failed. -/
inductive FileError where
  | notFound
  | alreadyExists
  | notDirectory
  | isDirectory
  | nameTooLong
  /-- A name holds the character that ends names. -/
  | nulInName
  /-- The content is not text. -/
  | notText
  /-- Anything else that a machine may report. -/
  | other (text : String)
  deriving DecidableEq, Repr

/-- The wording of a failed operation. -/
def FileError.text : FileError → String
  | notFound => "No such file or directory (os error 2)"
  | alreadyExists => "File exists (os error 17)"
  | notDirectory => "Not a directory (os error 20)"
  | isDirectory => "Is a directory (os error 21)"
  | nameTooLong => "File name too long (os error 36)"
  | nulInName => "file name contained an unexpected NUL byte"
  | notText => "stream did not contain valid UTF-8"
  | other text => text

/-- What stands at a path. -/
inductive FileInfo where
  | directory
  | file (size : Nat)
  deriving DecidableEq, Repr

/-- Operations on files. -/
class FileSystem (m : Type → Type) where
  /-- What stands at a path. -/
  info : Path → m (Except FileError FileInfo)
  /-- The content of a file. -/
  read : Path → m (Except FileError ByteArray)
  /-- Creates a directory in an existing one. -/
  createDirectory : Path → m (Except FileError Unit)
  /-- Creates a file, or replaces its content. -/
  write : Path → ByteArray → m (Except FileError Unit)

namespace FileSystem

variable {m : Type → Type} [Monad m] [FileSystem m]

/-- Something stands at the path. -/
def pathExists (p : Path) : m Bool := do
  return (← info p).isOk

/-- A directory stands at the path. -/
def isDirectory (p : Path) : m Bool := do
  match ← info p with
  | .ok .directory => return true
  | _ => return false

/-- Creates a directory. It is no failure if the directory exists already. -/
def ensureDirectory (p : Path) : m (Except FileError Unit) := do
  match ← createDirectory p with
  | .ok () => return .ok ()
  | .error e => return if ← isDirectory p then .ok () else .error e

/-- Creates a directory and whatever is missing above it. -/
def createDirectories (p : Path) : m (Except FileError Unit) := do
  if p.isEmpty then return .ok ()
  match ← createDirectory p with
  | .ok () => return .ok ()
  | .error .notFound =>
    match h : p.parent? with
    | none => return .error (.other "failed to create whole tree")
    | some parent =>
      have := Path.weight_of_parent? h
      match ← createDirectories parent with
      | .ok () => ensureDirectory p
      | .error e => return .error e
  | .error e => return if ← isDirectory p then .ok () else .error e
termination_by p.weight

/-- The content of a file as text. -/
def readText (p : Path) : m (Except FileError String) := do
  match ← read p with
  | .error e => return .error e
  | .ok bytes =>
    match String.fromUTF8? bytes with
    | some text => return .ok text
    | none => return .error .notText

end FileSystem

end UnrollAsm
