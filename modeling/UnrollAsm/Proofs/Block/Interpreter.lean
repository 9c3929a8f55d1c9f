import UnrollAsm.Program.Header
import UnrollAsm.Proofs.Block.Basic
import UnrollAsm.Report.Listing
import UnrollAsm.Word.Encode

/-!
# Interpreting Blocks

What a program means, told without a scope tree. Clauses run in order. An
environment has one frame for every block being executed, innermost first, and
a frame lists what the lines executed so far have declared there. A name denotes
the earliest declaration in the innermost frame that has one. Entering a block
opens an empty frame and leaving it drops the frame, on every trip of a loop
anew; so a name never denotes a line further down, or the same line on an
earlier trip.

The index of a loop is an integer here, not a 32-bit value. It cannot overflow,
and the question whether the stop is still ahead has an exact answer. Since the
stop is a 32-bit value and the step keeps its sign, the index runs out of room
after finitely many trips; that is what `roomFor` measures.

## Main definitions

* `Env`, `Env.find?`, `Env.declare`, `Env.assign`: Declarations in force.
* `Run`: The environment and the words emitted so far.
* `Arithmetic.exact`: An operation on integers.
* `Run.setVar`, `Run.fold`, `Run.emit`: The effect of a line.
* `Run.trips`: The trips of a loop.
* `Clause.exec`, `Block.exec`: The effect of a clause or a block.
* `interpret`: The words of a program, and what is declared at its end.

## Theorems

* `roomFor_lt`: Every further trip of a loop uses up some room.
-/

namespace UnrollAsm

/-- What one block has declared so far. -/
abbrev Frame := List Symbol

/-- Gives the symbol called `name` another value. -/
def Frame.assign (name : String) (v : Int32) : Frame → Frame
  | [] => []
  | s :: rest => if s.name = name then { s with value := v } :: rest else s :: assign name v rest

/-- The declarations in force: a frame for every block being executed, innermost
    first. -/
abbrev Env := List Frame

namespace Env

/-- The symbol that a name denotes. -/
def find? (env : Env) (name : String) : Option Symbol :=
  env.findSome? fun frame => frame.find? fun s => s.name = name

/-- Declares a symbol in the innermost block. -/
def declare (s : Symbol) : Env → Env
  | [] => [[s]]
  | frame :: outer => (frame ++ [s]) :: outer

/-- Gives the symbol that a name denotes another value. -/
def assign (name : String) (v : Int32) : Env → Env
  | [] => []
  | frame :: outer =>
    if frame.any fun s => s.name = name then frame.assign name v :: outer
    else frame :: assign name v outer

/-- The symbol that an operand denotes. A literal is its own constant. -/
def denote (env : Env) (line : Nat) : Operand → Except Diagnostic Symbol
  | .literal v => .ok (.literal v)
  | .name name =>
    match env.find? name with
    | some s => .ok s
    | none => .error (.onLine line (.naming (.undeclared name)))

end Env

/-- An operation on integers. -/
def Arithmetic.exact : Arithmetic → Int → Int → Int
  | add, a, b | addImm, a, b => a + b
  | sub, a, b | subImm, a, b => a - b
  | mul, a, b | mulImm, a, b => a * b

/-- The stop is ahead of an index, in the direction of the step. -/
def Bounds.isAhead (b : Bounds) (index : Int) : Bool :=
  if b.step < 0 then b.stop.toInt < index else index < b.stop.toInt

/-- How far an index can move in the direction of a step. -/
def roomFor (index : Int) (step : Int32) : Nat :=
  if step < 0 then (index + 0x80000000).toNat else (0x80000000 - index).toNat

/-- Moving on uses up some room: the step is not zero and keeps its sign, and an
    index with the stop ahead of it is a value itself. -/
theorem roomFor_lt {index : Int} {step : Int32} {b : Bounds} (hzero : b.step ≠ 0)
    (hsign : decide (b.step < 0) = decide (step < 0))
    (hahead : b.isAhead (index + b.step.toInt) = true) :
    roomFor (index + b.step.toInt) b.step < roomFor index step := by
  have hne := LoopHeader.toInt_ne_zero hzero
  have hlo := b.stop.le_toInt
  have hhi := b.stop.toInt_lt
  rw [decide_eq_decide] at hsign
  unfold roomFor
  unfold Bounds.isAhead at hahead
  by_cases hneg : b.step < 0
  · rw [if_pos hneg, decide_eq_true_eq] at hahead
    rw [if_pos hneg, if_pos (hsign.1 hneg)]
    have := LoopHeader.neg_iff_toInt_neg.1 hneg
    omega
  · rw [if_neg hneg, decide_eq_true_eq] at hahead
    rw [if_neg hneg, if_neg (mt hsign.2 hneg)]
    have := mt LoopHeader.neg_iff_toInt_neg.2 hneg
    omega

/-- An execution: what is declared, and the words emitted so far. -/
structure Run where
  env : Env
  words : List EmittedWord

namespace Run

/-- The effect of a variable line: the variable that the name denotes takes the
    value. If the name denotes nothing, or a constant, the line declares it. -/
def setVar (r : Run) (line : Nat) (name : String) (value : Operand) : Except Diagnostic Run := do
  let s ← r.env.denote line value
  if (r.env.find? name).any Symbol.isVar then
    return { r with env := r.env.assign name s.value }
  else
    return { r with env := r.env.declare ⟨.var, name, s.value⟩ }

/-- The effect of an arithmetic line: its first operand has to be a variable,
    and takes the result modulo `2 ^ 32`. -/
def fold (r : Run) (line : Nat) (op : Arithmetic) (first second : Operand) :
    Except Diagnostic Run := do
  let target ← r.env.denote line first
  if ¬ target.isVar then
    throw (.onLine line (.typing (.notVariable (.symbol target))))
  else
    let operand ← r.env.denote line second
    if operand.isVar ∧ op.requiresConst then
      throw (.onLine line (.typing (.notConstant op (.symbol operand))))
    else
      let result := Int32.ofInt (op.exact target.value.toInt operand.value.toInt)
      return { r with env := r.env.assign target.name result }

/-- The word of a mnemonic under the values of its operands. -/
def word (target : Target) (line : Nat) (id : Nat) :
    InstructionClass → List Int32 → Except Diagnostic MachineWord
  | .noOperand, [] => located (encodeNone id)
  | .oneOperand, [cacheLine] => do
    located (encodeOne target.layout (← cache .oneOperand) id cacheLine)
  | .twoOperand, [memory, cacheLine] => do
    located (encodeTwo target (← cache .twoOperand) id memory cacheLine)
  | .threeOperand, [memory, cacheLine, place] => do
    located (encodeThree target (← cache .threeOperand) id memory cacheLine place)
  | cls, _ => .error (.onLine line (.config (.unlisted id cls)))
where
  located (result : Except RangeCause MachineWord) : Except Diagnostic MachineWord :=
    result.mapError fun cause => .onLine line (.range cause)
  cache (cls : InstructionClass) : Except Diagnostic Cache :=
    (target.cache cls id).mapError fun cause => .onLine line (.config cause)

/-- The effect of a line that emits a word. -/
def emit (r : Run) (target : Target) (source : SourceLine) (cls : InstructionClass) (id : Nat)
    (operands : List Operand) : Except Diagnostic Run := do
  let symbols ← operands.mapM (r.env.denote source.number)
  let word ← word target source.number id cls (symbols.map Symbol.value)
  return { r with words := r.words ++ [⟨word, cls, id, source⟩] }

/-- The effect of a mnemonic with its operands. -/
def command (r : Run) (target : Target) (source : SourceLine) (mnemonic : String)
    (operands : List Operand) : Except Diagnostic Run :=
  match target.resolve? mnemonic with
  | none => .error (.onLine source.number (.syntactic (.unknownMnemonic mnemonic)))
  | some (.arithmetic, _) =>
    match Arithmetic.ofMnemonic? mnemonic, operands with
    | some op, [first, second] => r.fold source.number op first second
    | _, _ => .error (.onLine source.number (.config (.noOperation mnemonic)))
  | some (cls, id) => r.emit target source cls id operands

/-- The values of the operands of a loop. -/
def bounds (r : Run) (line : LoopLine) : Except Diagnostic Bounds := do
  let start ← r.env.denote line.source.number line.start
  let stop ← r.env.denote line.source.number line.stop
  let step ← r.env.denote line.source.number line.step
  return ⟨start.value, stop.value, step.value⟩

/-- One trip: the body runs in a frame of its own. -/
def trip (body : Run → Except Diagnostic Run) (r : Run) : Except Diagnostic Run := do
  let r ← body { r with env := [] :: r.env }
  return { r with env := r.env.tail }

/-- The trips of a loop from an index on, the latest step being given. After a
    trip, stop and step are read again; the step must not be zero or change its
    sign, and the loop goes on while the stop is ahead of the moved index. -/
def trips (line : LoopLine) (body : Run → Except Diagnostic Run) (index : Int) (step : Int32)
    (r : Run) : Except Diagnostic Run := do
  let r ← trip body r
  let b ← r.bounds line
  if b.step = 0 then
    throw (.onLine line.source.number (.range .zeroStep))
  else if decide (b.step < 0) ≠ decide (step < 0) then
    throw (.onLine line.source.number (.range (.stepReversed step b.step)))
  else if b.isAhead (index + b.step.toInt) then
    trips line body (index + b.step.toInt) b.step r
  else
    return r
termination_by roomFor index step
decreasing_by
  rename_i hzero hsign hahead
  exact roomFor_lt hzero (Decidable.not_not.1 hsign) hahead

end Run

mutual

/-- The effect of a clause. -/
def Clause.exec (target : Target) : Clause → Run → Except Diagnostic Run
  | .const name value, r => .ok { r with env := r.env.declare ⟨.const, name, value⟩ }
  | .var source name value, r => r.setVar source.number name value
  | .command source mnemonic operands, r => r.command target source mnemonic operands
  | .loop line body, r => do
    let b ← r.bounds line
    b.check.mapError fun cause => .onLine line.source.number (.range cause)
    Run.trips line (Block.exec target body) b.start.toInt b.step r

/-- The effect of clauses in order. -/
def Block.exec (target : Target) : List Clause → Run → Except Diagnostic Run
  | [], r => .ok r
  | c :: rest, r => do
    let r ← c.exec target r
    Block.exec target rest r

end

/-- Executes a program from nothing: the words, and what is declared at its end. -/
def interpret (target : Target) (lines : List (Nat × String)) : Except Diagnostic Run := do
  Block.exec target (← Block.ofLines lines) ⟨[[]], []⟩

end UnrollAsm
