import UnrollAsm.Session.Reading
import UnrollAsm.Session.Unrolling
import UnrollAsm.Text.Lines

/-!
# Assembler Sessions

A session holds a target and the program read so far. Programs may be read in
several calls; assembly happens once. The first error of a session is
remembered, and from then on every request to assemble is answered by it, since
the tree is incomplete or has been changed half-way. A program that has been
assembled yields no words a second time, because unrolling has used up the
initial values of its variables.

Events are told as they happen. A call that comes to an event which is heard
but cannot be told breaks off there; `Reply.heardAt` is the reply as a listener
sees it.

## Main definitions

* `Assembler`: The state of a session.
* `Reply`: The answer to a call, the session afterwards, and what happened.
* `Reply.heardAt`: The reply to a call while somebody listens.
* `Assembler.parse`, `Assembler.parseSource`: Reads lines, or a text.
* `Assembler.assemble`: Unrolls the program.
* `Assembler.valueOf?`: The value of a symbol visible at the root.
-/

namespace UnrollAsm

/-- The state of a session. -/
structure Assembler where
  target : Target
  tree : ScopeTree
  /-- The program has been assembled. -/
  assembled : Bool
  /-- The first error of the session. -/
  failure : Option Diagnostic

/-- The answer to a call, the session after it, and what happened. -/
structure Reply (α : Type) where
  answer : Except Failure α
  after : Assembler
  log : List Event

/-- The reply to a call while somebody listens at a level. The call breaks off
    at the first event that is heard but cannot be told. -/
def Reply.heardAt {α : Type} (drawing : Drawing) (level : Option Level) (r : Reply α) :
    Reply α :=
  if r.log.all (Event.isTellable drawing level) then r
  else
    { r with
      answer := .error (.fault .undrawable)
      log := r.log.takeWhile (Event.isTellable drawing level) }

namespace Assembler

/-- A session before anything has been read. -/
def new (target : Target) : Assembler :=
  ⟨target, .empty, false, none⟩

/-- The session with a failure remembered, unless there was one before. -/
def remember (a : Assembler) : Failure → Assembler
  | .refused diagnostic => { a with failure := a.failure <|> some diagnostic }
  | .fault _ => a

/-- Reads numbered lines. The answer is the number of statements. -/
def parse (a : Assembler) (lines : List (Nat × String)) : Reply Nat :=
  match Reading.run a.target a.tree lines with
  | (.ok count, work) =>
    { answer := .ok count
      after := { a with tree := work.tree }
      log := work.log.toList ++
        [.programRead count work.tree.size work.tree.symbolCount, .treeBuilt work.tree] }
  | (.error failure, work) =>
    { answer := .error failure
      after := { a with tree := work.tree }.remember failure
      log := work.log.toList }

/-- Reads the lines of a text, numbered from one. -/
def parseSource (a : Assembler) (text : String) : Reply Nat :=
  a.parse (Text.numbered text)

/-- Unrolls the program and clears its instructions. The answer is the list of
    words. -/
def unroll (a : Assembler) : Reply (List EmittedWord) :=
  match Unrolling.run a.target a.tree with
  | (.ok (), work) =>
    let words := work.own.toList
    { answer := .ok words
      after := { a with tree := work.tree.clear, assembled := true }
      log := work.log.toList ++
        [.programAssembled words.length, .disassembled (disassembly a.target words),
          .symbolsSettled work.tree.symbolTable,
          .instructionsCleared work.tree.pendingCount] }
  | (.error failure, work) =>
    { answer := .error failure
      after := { a with tree := work.tree }.remember failure
      log := work.log.toList }

/-- Assembles the program: at most once, and never after an error. -/
def assemble (a : Assembler) : Reply (List EmittedWord) :=
  match a.failure with
  | some diagnostic => ⟨.error (.refused diagnostic), a, [.assemblyRefused]⟩
  | none => if a.assembled then ⟨.ok [], a, [.assembledBefore]⟩ else a.unroll

/-- The value of the symbol that is visible at the root under a name. -/
def valueOf? (a : Assembler) (name : String) : Except Fault (Option Int32) := do
  match ← a.tree.find .root name with
  | none => return none
  | some address => return (← a.tree.item address).symbol?.map Symbol.value

end Assembler

end UnrollAsm
