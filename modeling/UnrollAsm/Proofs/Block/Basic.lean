import UnrollAsm.Diagnostic
import UnrollAsm.Statement.Parse
import UnrollAsm.Text.Lines

/-!
# Blocks

A program as its author sees it: statements in order, and inside every loop a
block of statements again. Lines are grouped into blocks by their reserved words
alone, before any name means anything, so the grouping knows nothing of scopes,
addresses or targets.

Lines come one after the other, and a loop is complete only at the line that
closes it. `Outline` is the program up to some line: the block being written,
and the loops around it that are still open, each with the block it will be
appended to.

## Main definitions

* `Clause`, `Block`: A statement with what it encloses, and clauses in order.
* `Outline`: The blocks of a program that is read up to some line.
* `Outline.add`, `Outline.addLines`: One more statement, or more lines.
* `Outline.close`: The whole program, provided that no loop is open.
* `Block.ofLines`: The block of numbered lines.
-/

namespace UnrollAsm

/-- A line that opens a loop. -/
structure LoopLine where
  source : SourceLine
  start : Operand
  stop : Operand
  step : Operand
  deriving DecidableEq, Repr

/-- A statement of a block, with the block inside it if it is a loop. -/
inductive Clause where
  | const (name : String) (value : Int32)
  | var (source : SourceLine) (name : String) (value : Operand)
  | command (source : SourceLine) (mnemonic : String) (operands : List Operand)
  | loop (line : LoopLine) (body : List Clause)

/-- Clauses in order: a program, or the body of a loop. -/
abbrev Block := List Clause

/-- A program up to some line: the block being written, and the loops around it
    that are still open, innermost first, each with the block it stands in. -/
structure Outline where
  block : Block
  around : List (LoopLine × Block)

namespace Outline

/-- The outline of no lines. -/
def empty : Outline := ⟨[], []⟩

/-- The outline with one more clause in the block being written. -/
def push (o : Outline) (c : Clause) : Outline :=
  { o with block := o.block ++ [c] }

/-- The outline with one more statement. -/
def add (o : Outline) (source : SourceLine) : Statement → Except Diagnostic Outline
  | .empty => .ok o
  | .const name value => .ok (o.push (.const name value))
  | .var name value => .ok (o.push (.var source name value))
  | .command mnemonic operands => .ok (o.push (.command source mnemonic operands))
  | .loop start stop step => .ok ⟨[], (⟨source, start, stop, step⟩, o.block) :: o.around⟩
  | .pool =>
    match o.around with
    | [] => .error (.onLine source.number (.syntactic .poolWithoutLoop))
    | (line, block) :: around => .ok ⟨block ++ [.loop line o.block], around⟩

/-- The outline with one more line. -/
def addLine (o : Outline) (line : Nat × String) : Except Diagnostic Outline := do
  let statement ← Statement.parse line.1 line.2
  o.add (.of line.1 line.2) statement

/-- The outline with more lines. -/
def addLines (o : Outline) (lines : List (Nat × String)) : Except Diagnostic Outline :=
  lines.foldlM addLine o

/-- The block of a whole program, in which no loop is left open. -/
def close (o : Outline) : Except Diagnostic Block :=
  match o.around with
  | [] => .ok o.block
  | (line, _) :: _ =>
    .error (.onLine line.source.number (.syntactic (.loopWithoutPool line.source.text)))

end Outline

/-- The block of numbered lines. -/
def Block.ofLines (lines : List (Nat × String)) : Except Diagnostic Block := do
  (← Outline.empty.addLines lines).close

end UnrollAsm
