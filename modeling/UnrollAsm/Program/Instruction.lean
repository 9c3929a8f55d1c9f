import UnrollAsm.Program.Symbol
import UnrollAsm.Text.Blank

/-!
# Instructions

An instruction is what one source line asks for, with its operands already
resolved to the addresses of symbols. The symbols are read only when the
instruction is carried out, so the same instruction in a loop body can produce
a different word on every trip.

Commands produce a machine word. Arithmetic is carried out while assembling and
updates its first operand; a reset copies a value into a variable. Once a
program has been assembled its instructions are cleared.

## Main definitions

* `InstructionClass`: The five classes, each with its own mnemonic table.
* `Arithmetic`, `Arithmetic.apply`: Operations modulo `2 ^ 32`.
* `SourceLine`: The line an instruction came from.
* `Command`: An instruction that is encoded as a machine word.
* `Action`: What an instruction does.
* `Action.mapOperands`: Replaces operands slot by slot.
* `Instruction`: An action together with its scope and line.
-/

namespace UnrollAsm

/-- The classes of mnemonics. Tables are searched in this order. -/
inductive InstructionClass where
  | noOperand
  | oneOperand
  | twoOperand
  | threeOperand
  | arithmetic
  deriving DecidableEq, Repr

namespace InstructionClass

/-- All classes, in the order in which their tables are searched. -/
def all : List InstructionClass :=
  [noOperand, oneOperand, twoOperand, threeOperand, arithmetic]

/-- The number of operands that a mnemonic of the class takes. -/
def arity : InstructionClass → Nat
  | noOperand => 0
  | oneOperand => 1
  | twoOperand => 2
  | threeOperand => 3
  | arithmetic => 2

/-- The class under the name of the configuration section that lists it. -/
def heading : InstructionClass → String
  | noOperand => "NoOperator"
  | oneOperand => "OneOperator"
  | twoOperand => "TwoOperator"
  | threeOperand => "ThreeOperator"
  | arithmetic => "ArithOperator"

end InstructionClass

/-- Operations folded while assembling. The `imm` forms insist on a constant
    second operand. -/
inductive Arithmetic where
  | add
  | sub
  | mul
  | addImm
  | subImm
  | mulImm
  deriving DecidableEq, Repr

namespace Arithmetic

/-- All operations. -/
def all : List Arithmetic := [add, sub, mul, addImm, subImm, mulImm]

/-- The result of an operation, modulo `2 ^ 32`. -/
def apply : Arithmetic → Int32 → Int32 → Int32
  | add, a, b | addImm, a, b => a + b
  | sub, a, b | subImm, a, b => a - b
  | mul, a, b | mulImm, a, b => a * b

/-- The second operand has to be a constant. -/
def requiresConst : Arithmetic → Bool
  | add | sub | mul => false
  | addImm | subImm | mulImm => true

/-- The written name of an operation. -/
def mnemonic : Arithmetic → String
  | add => "ADD"
  | sub => "SUB"
  | mul => "MUL"
  | addImm => "ADDI"
  | subImm => "SUBI"
  | mulImm => "MULI"

/-- The operation with a given written name. -/
def ofMnemonic? (name : String) : Option Arithmetic :=
  all.find? fun op => op.mnemonic = name

end Arithmetic

/-- The number and the text of a source line. -/
structure SourceLine where
  number : Nat
  text : String
  deriving DecidableEq, Repr

/-- A source line keeps its text without the blanks around it. -/
def SourceLine.of (number : Nat) (text : String) : SourceLine :=
  ⟨number, Text.trim text⟩

/-- An instruction that becomes a machine word, with the addresses of its
    operands and the machine id of its mnemonic. -/
inductive Command where
  | noOperand (id : Nat)
  | oneOperand (line : Address) (id : Nat)
  | twoOperand (memory line : Address) (id : Nat)
  | threeOperand (memory line place : Address) (id : Nat)
  deriving DecidableEq, Repr

namespace Command

/-- The class whose table holds the command's mnemonic. -/
def instructionClass : Command → InstructionClass
  | noOperand _ => .noOperand
  | oneOperand .. => .oneOperand
  | twoOperand .. => .twoOperand
  | threeOperand .. => .threeOperand

/-- The machine id of the command's mnemonic. -/
def machineId : Command → Nat
  | noOperand id | oneOperand _ id | twoOperand _ _ id | threeOperand _ _ _ id => id

/-- The command with another machine id. -/
def withMachineId (id : Nat) : Command → Command
  | noOperand _ => noOperand id
  | oneOperand line _ => oneOperand line id
  | twoOperand memory line _ => twoOperand memory line id
  | threeOperand memory line place _ => threeOperand memory line place id

/-- The operands in source order. -/
def operands : Command → List Address
  | noOperand _ => []
  | oneOperand line _ => [line]
  | twoOperand memory line _ => [memory, line]
  | threeOperand memory line place _ => [memory, line, place]

/-- The command with each operand replaced, knowing its slot. -/
def mapOperands (f : Nat → Address → Address) : Command → Command
  | noOperand id => noOperand id
  | oneOperand line id => oneOperand (f 0 line) id
  | twoOperand memory line id => twoOperand (f 0 memory) (f 1 line) id
  | threeOperand memory line place id =>
    threeOperand (f 0 memory) (f 1 line) (f 2 place) id

/-- How a command is written in messages. -/
def text : Command → String
  | noOperand id => s!"NoOperand#{id}"
  | oneOperand line id => s!"OneOperand#{id}({line.text})"
  | twoOperand memory line id => s!"TwoOperand#{id}({memory.text}, {line.text})"
  | threeOperand memory line place id =>
    s!"ThreeOperand#{id}({memory.text}, {line.text}, {place.text})"

end Command

/-- What an instruction does when the program is unrolled. -/
inductive Action where
  /-- Encode a machine word. -/
  | emit (command : Command)
  /-- Replace `first` by the result of the operation on `first` and `second`. -/
  | fold (op : Arithmetic) (first second : Address)
  /-- Copy the value of `source` into the variable `target`. -/
  | reset (source target : Address)
  /-- Nothing any more: the program has been assembled. -/
  | cleared
  deriving DecidableEq, Repr

namespace Action

/-- The operands in source order. -/
def operands : Action → List Address
  | emit command => command.operands
  | fold _ first second => [first, second]
  | reset source target => [source, target]
  | cleared => []

/-- The action with each operand replaced, knowing its slot. -/
def mapOperands (f : Nat → Address → Address) : Action → Action
  | emit command => emit (command.mapOperands f)
  | fold op first second => fold op (f 0 first) (f 1 second)
  | reset source target => reset (f 0 source) (f 1 target)
  | cleared => cleared

/-- The class whose table holds the action's mnemonic. A reset has none. -/
def instructionClass? : Action → Option InstructionClass
  | emit command => some command.instructionClass
  | fold .. => some .arithmetic
  | reset .. | cleared => none

/-- The machine id of a command. -/
def machineId? : Action → Option Nat
  | emit command => some command.machineId
  | fold .. | reset .. | cleared => none

/-- The action produces a machine word. -/
def isCommand : Action → Bool
  | emit _ => true
  | fold .. | reset .. | cleared => false

/-- The action with the operand in one slot replaced, and the operand that
    stood there. Nothing happens if the slot does not exist or already holds
    the new operand. -/
def setOperand (action : Action) (slot : Nat) (new : Address) : Option Address × Action :=
  match action.operands[slot]? with
  | none => (none, action)
  | some old =>
    if old = new then (none, action)
    else (some old, action.mapOperands fun i a => if i = slot then new else a)

/-- The action with another machine id, and the id it had. Nothing happens
    if the action has no machine id or already has the new one. -/
def setMachineId (action : Action) (new : Nat) : Option Nat × Action :=
  match action with
  | emit command =>
    if command.machineId = new then (none, action)
    else (some command.machineId, emit (command.withMachineId new))
  | fold .. | reset .. | cleared => (none, action)

/-- How an action is written in messages. -/
def text : Action → String
  | emit command => command.text
  | fold op first second => s!"{op.mnemonic}({first.text}, {second.text})"
  | reset source target => s!"Reset({target.text} <- {source.text})"
  | cleared => "ε"

end Action

/-- One source statement in the scope it was read into. -/
structure Instruction where
  scope : ScopeId
  source : SourceLine
  action : Action
  deriving DecidableEq, Repr

namespace Instruction

/-- The instruction after its program has been assembled. -/
def clear (i : Instruction) : Instruction :=
  { i with action := .cleared }

/-- How an instruction is written in messages. -/
def text (i : Instruction) : String :=
  s!"{Text.padEnd 40 i.action.text} % line {i.source.number}: {i.source.text}"

end Instruction

end UnrollAsm
