import UnrollAsm.Program.Instruction
import UnrollAsm.Target.Basic
import UnrollAsm.Text.Grid

/-!
# Listings

The words of an assembled program, each with the instruction it came from. A
listing has one line for every word: the word in quotes, and the text of the
source line as a comment. A disassembly shows the fields of every word and
looks its mnemonic up again in the target's tables.

## Main definitions

* `EmittedWord`: A word and where it came from.
* `EmittedWord.line`: One line of a listing.
* `listing`: The listing of a program.
* `writeListing`, `writtenListing`: The listing as it is written line by line.
* `disassembly`: The table of a program's words.
-/

namespace UnrollAsm

/-- A machine word with the class, the machine id and the line of the command
    it was encoded from. -/
structure EmittedWord where
  word : MachineWord
  cls : InstructionClass
  machineId : Nat
  source : SourceLine
  deriving DecidableEq, Repr

/-- One line of a listing, without its end. -/
def EmittedWord.line (w : EmittedWord) : String :=
  s!"\"{w.word.text}\", // {w.source.text}"

/-- The listing of a program: one line for every word. -/
def listing (words : List EmittedWord) : String :=
  String.join (words.map fun w => w.line ++ "\n")

/-- Writes the listing of a program line by line. -/
def writeListing {m : Type → Type} [Monad m] (put : String → m Unit)
    (words : List EmittedWord) : m Unit :=
  words.forM fun w => put (w.line ++ "\n")

/-- What has been written once a listing is complete. -/
def writtenListing (words : List EmittedWord) : String :=
  ((writeListing (fun line => modify (· ++ line)) words : StateM String Unit).run "").2

/-- The table of a program's words, taken apart by the target's layout. -/
def disassembly (target : Target) (words : List EmittedWord) : Grid where
  titles := [.right "#", .left "Word", .left "Mnemonic", .right "Address", .right "Line",
    .right "Place", .right "Id", .left "Source"]
  rows := words.zipIdx.map fun (w, index) =>
    let fields := w.word.decode target.layout
    let mnemonic := ((target.table w.cls).mnemonic? w.machineId).getD "?"
    [.right (toString index), .left w.word.text, .left mnemonic,
      .right (toString fields.address), .right (toString fields.line),
      .right (toString fields.place), .right (toString fields.machineId),
      .left s!"{Text.padStart 4 (toString w.source.number)}: {w.source.text}"]

end UnrollAsm
