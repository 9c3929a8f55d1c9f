import UnrollAsm.Program.Evaluate
import UnrollAsm.Session.Pass

/-!
# Unrolling a Program

The second pass walks the tree in source order. A command is encoded under the
current values of its operands, arithmetic and resets update variables, and a
loop marker runs the body of its loop once for every trip. The bounds of a loop
are read when it is entered, and its stop and step again after every trip,
because the body may have changed what stands behind them.

The walk goes down the nesting of loops, and every scope is nested less deeply
than there are scopes; the number of scopes therefore bounds the depth of the
walk. A run of a loop ends because every trip uses up some of the room that is
left to its index.

## Main definitions

* `UnrollM`: Actions of the pass, which keeps the words emitted so far.
* `Unrolling.perform`: Carries out an instruction.
* `Unrolling.runTrips`, `Unrolling.runLoop`: Runs a loop.
* `Unrolling.walk`: Carries out the items of a scope.
* `Unrolling.run`: Unrolls the program in a tree.
-/

namespace UnrollAsm

/-- An action of the pass. Beside the tree it keeps the words emitted so far. -/
abbrev UnrollM := PassM (Array EmittedWord)

namespace Unrolling

open PassM

/-- Appends a word to the output. -/
def emit (word : EmittedWord) : UnrollM Unit := do
  setOwn fun words => words.push word
  note (.wordEmitted word)

/-- Carries out an instruction. -/
def perform (target : Target) (i : Instruction) : UnrollM Unit :=
  let line := i.source.number
  match i.action with
  | .emit command => do
    let word ← ask fun t => t.encode target line command
    emit ⟨word, command.instructionClass, command.machineId, i.source⟩
  | .fold op first second => do
    let value ← change fun t => t.fold op first second line
    note (.folded line op first value)
  | .reset source written => do
    let value ← change fun t => t.reset source written line
    note (.variableReset line written value)
  | .cleared => throw (.fault (.clearedInstruction i))

/-- Puts the header of a loop into the tree. -/
def setHeader (body : ScopeId) (header : LoopHeader) : UnrollM Unit :=
  change fun t => .ok ((), t.setHeader body header)

/-- Runs the body of a loop until the loop ends. Returns the number of trips,
    given the number of the trip about to start. -/
def runTrips (walkBody : UnrollM Unit) (body : ScopeId) (header : LoopHeader) (trip : Nat) :
    UnrollM Nat := do
  note (.tripStarted body trip header.current)
  walkBody
  -- The body may have changed the symbols behind the stop and the step.
  let bounds ← ask fun t => t.boundsOf header
  match h : header.advance bounds.stop bounds.step with
  | .error diagnostic => throw (.refused diagnostic)
  | .ok (false, next) =>
    setHeader body next
    return trip
  | .ok (true, next) =>
    setHeader body next
    runTrips walkBody body next (trip + 1)
termination_by header.room
decreasing_by exact LoopHeader.room_of_advance h

/-- The number of trips of a loop with fixed bounds. -/
def expectedTrips (bounds : Bounds) : Except Failure Nat :=
  match bounds.tripCount? with
  | some trips => .ok trips
  | none => .error (.fault (.endlessTrips bounds))

/-- Runs a loop, given how to walk a scope. -/
def runLoop (walkScope : ScopeId → UnrollM Unit) (body : ScopeId) : UnrollM Unit := do
  let scope ← ask fun t => orFault (t.scope body)
  match scope.header with
  | none => throw (.fault (.notALoop body))
  | some header =>
    let bounds ← ask fun t => t.boundsOf header
    let header ← ofExcept (orRefuse (header.begin bounds))
    setHeader body header
    let expected ← ofExcept (expectedTrips bounds)
    note (.loopEntered body bounds expected)
    let trips ← runTrips (walkScope body) body header 1
    note (.loopLeft body trips)

/-- Carries out an item, given how to walk a scope. -/
def carryOut (target : Target) (walkScope : ScopeId → UnrollM Unit) : Item → UnrollM Unit
  | .symbol _ => pure ()
  | .instruction i => perform target i
  | .loop body => runLoop walkScope body

/-- Carries out the items of a scope in order, down to a depth of nesting. -/
def walk (target : Target) : (depth : Nat) → ScopeId → UnrollM Unit
  | 0, s => throw (.fault (.endlessNesting s))
  | depth + 1, s => do
    let scope ← ask fun t => orFault (t.scope s)
    scope.items.toList.forM (carryOut target (walk target depth))

/-- Unrolls the program in a tree. The words are what the pass keeps. -/
def run (target : Target) (tree : ScopeTree) :
    Except Failure Unit × Work (Array EmittedWord) :=
  (walk target tree.size .root).start tree #[]

end Unrolling

end UnrollAsm
