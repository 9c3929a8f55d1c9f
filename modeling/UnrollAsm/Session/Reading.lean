import UnrollAsm.Program.Evaluate
import UnrollAsm.Session.Pass
import UnrollAsm.Statement.Parse

/-!
# Reading a Program

The first pass turns numbered lines into items of a scope tree. One scope is
the current one: declarations and instructions are appended to it, a loop makes
its body the current scope, and the end of the loop returns to the scope around
it. Operands are resolved to addresses on the spot, so a name has to be
declared above its use.

An integer literal stands for the constant named by its decimal text, which is
appended the first time the literal is used where no such constant is visible.
A variable line always appends a reset, whether it declares the variable or
finds one, so that the variable takes its value every time the line is reached.

Reading stops at the first mistake, and the tree keeps what was appended until
then.

## Main definitions

* `ReadM`: Actions of the pass, which keeps the current scope.
* `Reading.resolve`: The symbol that an operand stands for.
* `Reading.readStatement`: The effect of one statement.
* `Reading.readLine`, `Reading.readLines`: The effect of lines.
* `Reading.run`: Reads lines into a tree.
-/

namespace UnrollAsm

/-- An action of the pass. Beside the tree it keeps the current scope. -/
abbrev ReadM := PassM ScopeId

namespace Reading

open PassM

/-- The current scope. -/
def current : ReadM ScopeId :=
  own

/-- Makes a scope the current one. -/
def enter (s : ScopeId) : ReadM Unit :=
  setOwn fun _ => s

/-- Appends an item to the current scope. -/
def append (item : Item) : ReadM Address := do
  let s ← current
  change fun t => orFault (t.add s item)

/-- Appends an instruction to the current scope. -/
def appendAction (source : SourceLine) (action : Action) : ReadM Unit := do
  let s ← current
  let _ ← append (.instruction ⟨s, source, action⟩)

/-- The address of the symbol that is visible under a name. -/
def lookup (name : String) : ReadM (Option Address) := do
  let s ← current
  ask fun t => orFault (t.find s name)

/-- The symbol that an operand stands for. -/
def resolve (line : Nat) : Operand → ReadM Address
  | .literal value => do
    match ← lookup (Text.decimal value) with
    | some address => return address
    | none => append (.symbol (.literal value))
  | .name name => do
    match ← lookup name with
    | some address => return address
    | none => refuse line (.naming (.undeclared name))

/-- Declares a constant, whose name must be new in the current scope. -/
def declareConst (line : Nat) (name : String) (value : Int32) : ReadM Unit := do
  let s ← current
  match ← ask fun t => orFault (t.findLocal s name) with
  | some existing =>
    let item ← ask fun t => orFault (t.item existing)
    refuse line (.naming (.redeclared name item))
  | none =>
    let _ ← append (.symbol ⟨.const, name, value⟩)

/-- Declares a variable with the current value of a symbol. -/
def declareVar (line : Nat) (name : String) (source : Address) : ReadM Address := do
  let value ← ask fun t => t.valueOf source line
  append (.symbol ⟨.var, name, value⟩)

/-- The variable that a variable line writes to. A visible variable is written
    to; a constant of the same name is shadowed if it belongs to a scope
    further out, and is a mistake otherwise. -/
def targetVar (line : Nat) (name : String) (source : Address) : ReadM Address := do
  let s ← current
  match ← lookup name with
  | none => declareVar line name source
  | some address =>
    let item ← ask fun t => orFault (t.item address)
    if item.symbol?.any Symbol.isVar then return address
    else if address.scope = s then refuse line (.typing (.constantHere name))
    else declareVar line name source

/-- Opens a loop, whose operands must be valid bounds already. -/
def openLoop (source : SourceLine) (start stop step : Operand) : ReadM Unit := do
  let line := source.number
  let start ← resolve line start
  let stop ← resolve line stop
  let step ← resolve line step
  let startValue ← ask fun t => t.valueOf start line
  let stopValue ← ask fun t => t.valueOf stop line
  let stepValue ← ask fun t => t.valueOf step line
  let bounds : Bounds := ⟨startValue, stopValue, stepValue⟩
  let header ← ofExcept (orRefuse (LoopHeader.create start stop step bounds source))
  let s ← current
  let body ← change fun t => orFault (t.openLoop s header)
  note (.loopOpened line body bounds)
  enter body

/-- Closes the current loop. -/
def closeLoop (line : Nat) : ReadM Unit := do
  let s ← current
  match ← ask fun t => orFault (t.parent? s) with
  | some parent =>
    enter parent
    note (.loopClosed line s)
  | none => refuse line (.syntactic .poolWithoutLoop)

/-- The action of a mnemonic with resolved operands, if their number is right. -/
def action? (id : Nat) (mnemonic : String) :
    InstructionClass → List Address → Option Action
  | .noOperand, [] => some (.emit (.noOperand id))
  | .oneOperand, [line] => some (.emit (.oneOperand line id))
  | .twoOperand, [memory, line] => some (.emit (.twoOperand memory line id))
  | .threeOperand, [memory, line, place] => some (.emit (.threeOperand memory line place id))
  | .arithmetic, [first, second] =>
    (Arithmetic.ofMnemonic? mnemonic).map fun op => .fold op first second
  | _, _ => none

/-- Appends the instruction of a mnemonic with its operands. -/
def command (target : Target) (source : SourceLine) (mnemonic : String)
    (operands : List Operand) : ReadM Unit := do
  let line := source.number
  match target.resolve? mnemonic with
  | none => refuse line (.syntactic (.unknownMnemonic mnemonic))
  | some (cls, id) =>
    if operands.length ≠ cls.arity then
      refuse line (.syntactic (.mnemonicArity mnemonic cls operands.length))
    else
      let addresses ← operands.mapM (resolve line)
      match action? id mnemonic cls addresses with
      | some action => appendAction source action
      | none => refuse line (.config (.noOperation mnemonic))

/-- The effect of a statement. -/
def readStatement (target : Target) (source : SourceLine) : Statement → ReadM Unit
  | .empty => pure ()
  | .const name value => declareConst source.number name value
  | .var name value => do
    let value ← resolve source.number value
    let written ← targetVar source.number name value
    appendAction source (.reset value written)
  | .loop start stop step => openLoop source start stop step
  | .pool => closeLoop source.number
  | .command mnemonic operands => command target source mnemonic operands

/-- The effect of a line. Returns how many statements it holds. -/
def readLine (target : Target) (number : Nat) (text : String) : ReadM Nat := do
  let statement ← ofExcept (orRefuse (Statement.parse number text))
  note (.statementRead number statement)
  readStatement target (.of number text) statement
  return if statement = .empty then 0 else 1

/-- The effect of lines in a row. Returns how many statements they hold. -/
def readLines (target : Target) (lines : List (Nat × String)) : ReadM Nat :=
  lines.foldlM (fun count (number, text) => do return count + (← readLine target number text)) 0

/-- Checks that no loop is left open. -/
def finish : ReadM Unit := do
  let s ← current
  let scope ← ask fun t => orFault (t.scope s)
  match scope.header with
  | some header =>
    refuse header.source.number (.syntactic (.loopWithoutPool header.source.text))
  | none => pure ()

/-- Reads a whole program. Returns how many statements it holds. -/
def readProgram (target : Target) (lines : List (Nat × String)) : ReadM Nat := do
  let count ← readLines target lines
  finish
  return count

/-- Reads lines into a tree, starting at its root. -/
def run (target : Target) (tree : ScopeTree) (lines : List (Nat × String)) :
    Except Failure Nat × Work ScopeId :=
  (readProgram target lines).start tree .root

end Reading

end UnrollAsm
