import UnrollAsm.CommandLine.Options
import UnrollAsm.Files.FileSystem
import UnrollAsm.Session.Assembler

/-!
# The Job of the Command Line

One run of the program: check the inputs, read the target, prepare the place of
the output, assemble the source, and write the listing. The output file is
opened only after assembly has succeeded, so a mistake in the source never
costs an earlier listing; a missing directory for the output, however, is
created before the source is read.

A job may have a listener, who hears its events up to a level and has a drawing
for their tables. An event that is heard but cannot be told breaks the job off.

## Main definitions

* `JobError`: Why a job failed.
* `JobM`: Actions of a job.
* `Job.run`: Carries out a job.
-/

namespace UnrollAsm

/-- Why a job failed. -/
inductive JobError where
  | wrongExtension (path : Path) (expected : String)
  | cannotOpen (path : Path) (error : FileError)
  | notRegular (path : Path)
  | emptyInput (path : Path)
  | wrongOutput (path : Path)
  | noOutput
  /-- Something is wrong with the text of an input. -/
  | rejected (path : Path) (diagnostic : Diagnostic)
  | file (error : FileError)
  /-- A promise was broken while assembling. -/
  | broken (fault : Fault)

/-- The wording of a failed job. -/
def JobError.message : JobError → String
  | wrongExtension path expected => s!"`{path.text}` is not a .{expected} file"
  | cannotOpen path error => s!"Cannot open `{path.text}`: {error.text}"
  | notRegular path => s!"`{path.text}` is not a regular file"
  | emptyInput path => s!"`{path.text}` is empty"
  | wrongOutput path => s!"Output file `{path.text}` must have the extension .vmc"
  | noOutput => "No output file given and the configuration sets no `General.Output`"
  | rejected path diagnostic => s!"{path.text}: {diagnostic.report.text}"
  | file error => error.text
  | broken _ => "Internal fault"

/-- An action of a job. It may fail, and it notes what happens. -/
abbrev JobM (m : Type → Type) := ExceptT JobError (StateT (Array Event) m)

namespace Job

variable {m : Type → Type} [Monad m]

/-- Notes events. -/
def note (events : List Event) : JobM m Unit :=
  modify fun log => log ++ events.toArray

/-- An operation on files, whose failure is named by the caller. -/
def file {α : Type} (name : FileError → JobError) (operation : m (Except FileError α)) :
    JobM m α := do
  match ← (liftM (liftM operation : StateT (Array Event) m _) : JobM m _) with
  | .ok a => return a
  | .error e => throw (name e)

/-- A question about files. -/
def query {α : Type} (operation : m α) : JobM m α :=
  liftM (liftM operation : StateT (Array Event) m α)

/-- The answer of a session, as heard at a level. -/
def reply {α : Type} (drawing : Drawing) (level : Option Level) (source : Path)
    (r : Reply α) : JobM m α := do
  let r := r.heardAt drawing level
  note r.log
  match r.answer with
  | .ok a => return a
  | .error (.refused diagnostic) => throw (.rejected source diagnostic)
  | .error (.fault fault) => throw (.broken fault)

variable [FileSystem m]

/-- Checks that an input is a regular file with the right extension that is not
    empty. -/
def checkInput (path : Path) (extension : String) : JobM m Unit := do
  if path.extension? ≠ some extension then throw (.wrongExtension path extension)
  match ← file (.cannotOpen path) (FileSystem.info path) with
  | .directory => throw (.notRegular path)
  | .file size => if size = 0 then throw (.emptyInput path)

/-- Checks the extension of the output and creates its directory. -/
def prepareOutput (path : Path) : JobM m Unit := do
  if path.extension? ≠ some "vmc" then throw (.wrongOutput path)
  if let some parent := path.parent? then
    if ¬ parent.isEmpty then
      if ¬ (← query (FileSystem.pathExists parent)) then
        note [.directoryCreated parent.text]
        file .file (FileSystem.createDirectories parent)
  if ← query (FileSystem.pathExists path) then
    note [.fileReplaced path.text]

/-- Reads the target. -/
def readTarget (path : Path) : JobM m Target := do
  let text ← file .file (FileSystem.readText path)
  match Target.parse text with
  | .ok target => return target
  | .error diagnostic => throw (.rejected path diagnostic)

/-- Reads and assembles the source. -/
def assembleSource (drawing : Drawing) (level : Option Level) (target : Target)
    (path : Path) : JobM m (List EmittedWord) := do
  let text ← file .file (FileSystem.readText path)
  let r := (Assembler.new target).parseSource text
  let _ ← reply drawing level path r
  reply drawing level path r.after.assemble

/-- The actions of a job. -/
def actions (drawing : Drawing) (level : Option Level) (options : Options) :
    JobM m Unit := do
  checkInput options.file "asm"
  checkInput options.config "cfg"
  let target ← readTarget options.config
  match options.output <|> target.output.map Path.parse with
  | none => throw .noOutput
  | some output =>
    prepareOutput output
    let words ← assembleSource drawing level target options.file
    file .file (FileSystem.write output (writtenListing words).toUTF8)
    note [.listingWritten words.length output.text]

/-- Carries out a job while somebody listens at a level, or nobody does. Returns
    its outcome and what happened. -/
def run (drawing : Drawing) (level : Option Level) (options : Options) :
    m (Except JobError Unit × List Event) := do
  let (outcome, log) ← (actions drawing level options).run.run #[]
  return (outcome, log.toList)

end Job

end UnrollAsm
