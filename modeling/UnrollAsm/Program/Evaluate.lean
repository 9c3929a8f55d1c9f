import UnrollAsm.Program.ScopeTree
import UnrollAsm.Word.Encode

/-!
# Evaluation

What instructions do with the symbols of a tree. Arithmetic updates its first
operand, a reset copies a value into a variable, and a command reads the values
of its operands and becomes a machine word. Each of them checks everything
before it changes anything.

## Main definitions

* `ScopeTree.valueOf`: The value of the symbol at an address.
* `ScopeTree.boundsOf`, `ScopeTree.boundsAt`: The current bounds of a loop.
* `ScopeTree.fold`: Carries out an arithmetic operation.
* `ScopeTree.setValue`: Writes a value into a variable.
* `ScopeTree.reset`: Copies a value into a variable.
* `ScopeTree.encode`: The machine word of a command.
-/

namespace UnrollAsm

namespace ScopeTree

/-- Fails because of an operand of the wrong sort. -/
def typeError {α : Type} (line : Nat) (cause : TypeCause) : Except Failure α :=
  .error (.onLine line (.typing cause))

/-- The value of the symbol at an address. -/
def valueOf (t : ScopeTree) (a : Address) (line : Nat) : Except Failure Int32 := do
  match ← orFault (t.item a) with
  | .symbol symbol => return symbol.value
  | item => typeError line (.notSymbol item)

/-- The values of a loop's start, stop and step. -/
def boundsOf (t : ScopeTree) (h : LoopHeader) : Except Failure Bounds := do
  let start ← t.valueOf h.start h.source.number
  let stop ← t.valueOf h.stop h.source.number
  let step ← t.valueOf h.step h.source.number
  return ⟨start, stop, step⟩

/-- The values of the start, stop and step of the loop whose body a scope is. -/
def boundsAt (t : ScopeTree) (s : ScopeId) : Except Failure (Option Bounds) := do
  match (← orFault (t.scope s)).header with
  | none => return none
  | some header => return some (← t.boundsOf header)

/-- Replaces the variable `first` by the result of an operation on `first` and
    `second`. Returns the result. -/
def fold (t : ScopeTree) (op : Arithmetic) (first second : Address) (line : Nat) :
    Except Failure (Int32 × ScopeTree) := do
  match ← orFault (t.item first) with
  | .symbol target =>
    if ¬ target.isVar then typeError line (.notVariable (.symbol target))
    else
      match ← orFault (t.item second) with
      | .symbol operand =>
        if operand.isVar ∧ op.requiresConst then
          typeError line (.notConstant op (.symbol operand))
        else
          let result := op.apply target.value operand.value
          return (result, t.setItem first (.symbol { target with value := result }))
      | item => typeError line (.operandNotSymbol item)
  | item => typeError line (.notVariable item)

/-- Writes a value into the variable at an address. Returns the value it had;
    nothing is written to anything but a variable. -/
def setValue (t : ScopeTree) (a : Address) (value : Int32) :
    Except Fault (Option Int32 × ScopeTree) := do
  match (← t.item a).symbol? with
  | none => return (none, t)
  | some symbol =>
    match symbol.set? value with
    | none => return (none, t)
    | some updated => return (some symbol.value, t.setItem a (.symbol updated))

/-- Copies the value of `source` into the variable `target`. Returns it. -/
def reset (t : ScopeTree) (source target : Address) (line : Nat) :
    Except Failure (Int32 × ScopeTree) := do
  let value ← t.valueOf source line
  match ← orFault (t.item target) with
  | .symbol symbol =>
    match symbol.set? value with
    | some updated => return (value, t.setItem target (.symbol updated))
    | none => typeError line (.notResettable (.symbol symbol))
  | item => typeError line (.notResettable item)

/-- Attaches a line to what an encoder complains about. -/
def onLine {α : Type} (line : Nat) (result : Except RangeCause α) : Except Failure α :=
  result.mapError fun cause => .onLine line (.range cause)

/-- The cache that limits the operands of a command on a line. -/
def cacheFor (target : Target) (line : Nat) (command : Command) : Except Failure Cache :=
  (target.cache command.instructionClass command.machineId).mapError fun cause =>
    .onLine line (.config cause)

/-- The machine word of a command under the current values of its operands. -/
def encode (t : ScopeTree) (target : Target) (line : Nat) (command : Command) :
    Except Failure MachineWord := do
  match command with
  | .noOperand id => onLine line (encodeNone id)
  | .oneOperand cacheLine id =>
    let cache ← cacheFor target line command
    let cacheLine ← t.valueOf cacheLine line
    onLine line (encodeOne target.layout cache id cacheLine)
  | .twoOperand memory cacheLine id =>
    let cache ← cacheFor target line command
    let memory ← t.valueOf memory line
    let cacheLine ← t.valueOf cacheLine line
    onLine line (encodeTwo target cache id memory cacheLine)
  | .threeOperand memory cacheLine place id =>
    let cache ← cacheFor target line command
    let memory ← t.valueOf memory line
    let cacheLine ← t.valueOf cacheLine line
    let place ← t.valueOf place line
    onLine line (encodeThree target cache id memory cacheLine place)

/-- The machine word of an instruction, which has to be a command. -/
def encodeInstruction (t : ScopeTree) (target : Target) (i : Instruction) :
    Except Failure MachineWord :=
  match i.action with
  | .emit command => t.encode target i.source.number command
  | action => .error (.fault (.notEncodable action))

end ScopeTree

end UnrollAsm
