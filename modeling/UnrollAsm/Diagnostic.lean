import UnrollAsm.Program.Item
import UnrollAsm.Statement.Basic

/-!
# Diagnostics

Everything that can be wrong with a program or a configuration, as a cause
rather than a text. Causes fall into five kinds, each with a stable number, and
a diagnostic attaches the line to which a cause belongs. The wording of every
message is here and nowhere else.

A fault is different in nature: it says that a caller broke a promise, by
naming a scope that does not exist, say. No program text and no configuration
leads to one while a program is read and unrolled; operations on bare scope
trees can, and so can drawing a table around a text that hides more than it
shows.

## Main definitions

* `ErrorKind`: The five kinds with their codes.
* `Cause`, `Cause.kind`, `Cause.message`: What is wrong, and how it is put.
* `Located`: Something together with the line it concerns.
* `Diagnostic`, `Report`: A located cause, and a located message.
* `Fault`, `Failure`: Broken promises, and either sort of failure.
-/

namespace UnrollAsm

/-- The kinds of errors that a user can make. -/
inductive ErrorKind where
  | syntactic
  | naming
  | typing
  | range
  | config
  deriving DecidableEq, Repr

namespace ErrorKind

/-- All kinds. -/
def all : List ErrorKind := [syntactic, naming, typing, range, config]

/-- The number under which a kind is reported. -/
def code : ErrorKind → Nat
  | syntactic => 100
  | naming => 200
  | typing => 300
  | range => 400
  | config => 500

/-- The name under which a kind is reported. -/
def label : ErrorKind → String
  | syntactic => "SyntaxError"
  | naming => "NameError"
  | typing => "TypeError"
  | range => "RangeError"
  | config => "ConfigError"

/-- The kind with a given number. -/
def ofCode? (n : Nat) : Option ErrorKind :=
  all.find? fun kind => kind.code = n

end ErrorKind

/-- A line or the sequence of lines does not have the shape of a program. -/
inductive SyntaxCause where
  /-- A line break inside a line. -/
  | untokenized (text : String)
  /-- A token that starts with a digit and is no integer. -/
  | digitLed (token : String)
  /-- Any other token that is neither an integer nor an identifier. -/
  | unexpected (token : String)
  /-- A reserved word where a name is declared. -/
  | reserved (keyword : Keyword)
  | keywordArity (keyword : Keyword) (expected given : Nat)
  | tooManyOperands (mnemonic : String) (most given : Nat)
  /-- A constant declared to be another name. -/
  | constFromName (name value : String)
  | poolWithoutLoop
  | loopWithoutPool (text : String)
  | unknownMnemonic (mnemonic : String)
  | mnemonicArity (mnemonic : String) (cls : InstructionClass) (given : Nat)
  deriving DecidableEq, Repr

/-- A name is missing, or is declared twice. -/
inductive NameCause where
  | undeclared (name : String)
  | redeclared (name : String) (existing : Item)
  deriving DecidableEq, Repr

/-- An operand of the wrong sort. -/
inductive TypeCause where
  | notVariable (operand : Item)
  | notConstant (op : Arithmetic) (operand : Item)
  | operandNotSymbol (operand : Item)
  | notSymbol (item : Item)
  | notResettable (target : Item)
  /-- A variable under the name of a constant of the same scope. -/
  | constantHere (name : String)
  deriving DecidableEq, Repr

/-- The part that an operand plays in a machine word. -/
inductive FieldRole where
  | address
  | line
  | place
  deriving DecidableEq, Repr

/-- The word for a part. -/
def FieldRole.label : FieldRole → String
  | address => "address"
  | line => "line"
  | place => "place"

/-- A value outside its field, its memory or its loop. -/
inductive RangeCause where
  | literalTooWide (text : String)
  | zeroStep
  /-- A negative step from a start below the stop. -/
  | stepsDownBelow (bounds : Bounds)
  /-- A positive step from a start above the stop. -/
  | stepsUpAbove (bounds : Bounds)
  | stepReversed (old new : Int32)
  | negative (role : FieldRole) (value : Int32)
  | beyondCache (role : FieldRole) (value limit : Nat)
  | beyondMemory (value limit : Nat)
  | addressTooWide (value : Nat)
  | fieldTooWide (packed : Nat)
  deriving DecidableEq, Repr

/-- A configuration entry that is malformed, missing, or does not fit. -/
inductive ConfigCause where
  | malformedEntry (text : String)
  | missing (key : String)
  | notUnsigned (key text : String)
  | noRoomForLine (opcodeBits placeBits : Nat)
  | wildcardTooWide (value placeBits : Nat)
  /-- A mnemonic in the arithmetic section that names no operation. -/
  | notArithmetic (mnemonic : String)
  | idTooWide (key : String) (id opcodeBits : Nat)
  | duplicate (mnemonic : String) (id : Nat) (cls : InstructionClass)
  /-- An entry past those that select a cache. -/
  | noCache (entry : Nat) (cls : InstructionClass)
  | unlisted (id : Nat) (cls : InstructionClass)
  /-- An arithmetic mnemonic met in a program that names no operation. -/
  | noOperation (mnemonic : String)
  deriving DecidableEq, Repr

/-- What is wrong. -/
inductive Cause where
  | syntactic (cause : SyntaxCause)
  | naming (cause : NameCause)
  | typing (cause : TypeCause)
  | range (cause : RangeCause)
  | config (cause : ConfigCause)
  deriving DecidableEq, Repr

/-- The wording of a syntax error. -/
def SyntaxCause.message : SyntaxCause → String
  | untokenized text => s!"Cannot tokenize `{text}`"
  | digitLed token => s!"Malformed identifier `{token}`: names cannot start with a digit"
  | unexpected token => s!"Unexpected token `{token}`"
  | reserved keyword => s!"`{keyword.text}` is a reserved word"
  | keywordArity keyword expected given =>
    s!"{keyword.text} takes {expected} operands but was given {given}"
  | tooManyOperands mnemonic most given =>
    s!"{mnemonic} has {given} operands; at most {most} are allowed"
  | constFromName name value => s!"CONST {name} requires an integer literal, found `{value}`"
  | poolWithoutLoop => "POOL without a matching LOOP"
  | loopWithoutPool text => s!"`{text}` has no matching POOL"
  | unknownMnemonic mnemonic => s!"Unknown mnemonic `{mnemonic}`"
  | mnemonicArity mnemonic cls given =>
    s!"{mnemonic} is a {cls.heading} instruction and takes {cls.arity} operands " ++
      s!"but was given {given}"

/-- The wording of a name error. -/
def NameCause.message : NameCause → String
  | undeclared name => s!"Name `{name}` is not declared"
  | redeclared name existing =>
    s!"`{name}` is already declared in this scope as `{existing.text}`"

/-- The wording of a type error. -/
def TypeCause.message : TypeCause → String
  | notVariable operand => s!"Operand {operand.description} is not a variable"
  | notConstant op operand =>
    s!"{op.mnemonic} expects a constant second operand, found {operand.description}"
  | operandNotSymbol operand => s!"Operand {operand.description} is not a symbol"
  | notSymbol item => s!"`{item.text}` is not a symbol"
  | notResettable target => s!"Cannot reset {target.description}: it is not a variable"
  | constantHere name => s!"`{name}` is a constant in this scope and cannot be a variable"

/-- The wording of a range error. -/
def RangeCause.message : RangeCause → String
  | literalTooWide text =>
    s!"Integer literal {text} does not fit in 32 bits [-2147483648, 2147483647]"
  | zeroStep => "Stepwidth of zero effects endless loop"
  | stepsDownBelow b =>
    s!"Start value {Text.decimal b.start} smaller than end value {Text.decimal b.stop} " ++
      s!"with negative stepwidth {Text.decimal b.step}"
  | stepsUpAbove b =>
    s!"Start value {Text.decimal b.start} greater than end value {Text.decimal b.stop} " ++
      s!"with positive stepwidth {Text.decimal b.step}"
  | stepReversed old new =>
    s!"Stepwidth changed from {Text.decimal old} to {Text.decimal new} " ++
      "while the loop was running"
  | negative role value => s!"Negative {role.label} {Text.decimal value}"
  | beyondCache role value limit =>
    s!"{role.label} {value} exceeds the number of available {role.label}s ({limit})"
  | beyondMemory value limit => s!"Address {value} exceeds the available memory ({limit})"
  | addressTooWide value => s!"Address {value} does not fit in 16 bits"
  | fieldTooWide packed =>
    s!"Packed instruction field 0x{String.ofList (Text.hex packed)} does not fit in 16 bits"

/-- The wording of a configuration error. -/
def ConfigCause.message : ConfigCause → String
  | malformedEntry text => s!"Malformed configuration entry `{text}`"
  | missing key => s!"Option `{key}` missing"
  | notUnsigned key text => s!"Option `{key}` is not an unsigned integer: `{text}`"
  | noRoomForLine opcodeBits placeBits =>
    s!"OpCodeSize ({opcodeBits}) and PlaceSize ({placeBits}) must leave room " ++
      "for a cache line in 16 bits"
  | wildcardTooWide value placeBits =>
    s!"Option `Assembler_Property.WildcardPlace` ({value}) does not fit " ++
      s!"in {placeBits} place bits"
  | notArithmetic mnemonic =>
    s!"`{mnemonic}` is not an arithmetic operation " ++
      "(expected one of ADD, SUB, MUL, ADDI, SUBI, MULI)"
  | idTooWide key id opcodeBits =>
    s!"Machine id of `{key}` ({id}) does not fit in {opcodeBits} opcode bits"
  | duplicate mnemonic id cls =>
    s!"Duplicate entry `{mnemonic} = {id}` in section `{cls.heading}`: " ++
      "mnemonics and machine ids must be unique"
  | noCache entry cls =>
    s!"Entry {entry} of section `{cls.heading}` has no cache category; " ++
      "cannot select number of cache lines"
  | unlisted id cls => s!"Machine id {id} is not listed in section `{cls.heading}`"
  | noOperation mnemonic => s!"`{mnemonic}` is not an arithmetic operation"

namespace Cause

/-- The kind under which a cause is reported. -/
def kind : Cause → ErrorKind
  | syntactic _ => .syntactic
  | naming _ => .naming
  | typing _ => .typing
  | range _ => .range
  | config _ => .config

/-- The wording of a cause. -/
def message : Cause → String
  | syntactic cause => cause.message
  | naming cause => cause.message
  | typing cause => cause.message
  | range cause => cause.message
  | config cause => cause.message

end Cause

/-- Something that may concern one line of a text. -/
structure Located (α : Type) where
  line : Option Nat
  what : α
  deriving DecidableEq, Repr

/-- Attaches a line to something that does not have one yet. -/
def Located.atLine {α : Type} (n : Nat) (x : Located α) : Located α :=
  { x with line := x.line <|> some n }

/-- A message of some kind. -/
structure Notice where
  kind : ErrorKind
  message : String
  deriving DecidableEq, Repr

/-- A message as it is shown to the user. -/
abbrev Report := Located Notice

/-- The full form of a report. -/
def Report.text (r : Report) : String :=
  let head := s!"Error {r.what.kind.code} ({r.what.kind.label})"
  match r.line with
  | some n => s!"{head} on line {n}: {r.what.message}"
  | none => s!"{head}: {r.what.message}"

/-- What is wrong, and on which line. -/
abbrev Diagnostic := Located Cause

namespace Diagnostic

/-- A diagnostic about one line. -/
def onLine (n : Nat) (cause : Cause) : Diagnostic :=
  ⟨some n, cause⟩

/-- A diagnostic about no line in particular. -/
def general (cause : Cause) : Diagnostic :=
  ⟨none, cause⟩

/-- The diagnostic as it is shown to the user. -/
def report (d : Diagnostic) : Report :=
  ⟨d.line, ⟨d.what.kind, d.what.message⟩⟩

end Diagnostic

/-- A promise that a caller did not keep. -/
inductive Fault where
  | noSuchScope (scope : ScopeId)
  | noSuchItem (address : Address)
  /-- Asked to carry out an instruction of an assembled program. -/
  | clearedInstruction (instruction : Instruction)
  /-- Asked to run a scope that has no loop header. -/
  | notALoop (scope : ScopeId)
  /-- Asked to encode something that is not a command. -/
  | notEncodable (action : Action)
  /-- Asked for the number of trips of a loop that never ends. -/
  | endlessTrips (bounds : Bounds)
  /-- A scope that is not nested in an older one was searched outwards. -/
  | endlessLookup (scope : ScopeId)
  /-- Loops nested deeper than there are scopes. -/
  | endlessNesting (scope : ScopeId)
  /-- The drawing of a table broke off. -/
  | undrawable
  deriving DecidableEq, Repr

/-- Why an operation did not finish. -/
inductive Failure where
  | refused (diagnostic : Diagnostic)
  | fault (fault : Fault)
  deriving DecidableEq, Repr

/-- A failure because of a mistake on a line. -/
def Failure.onLine (n : Nat) (cause : Cause) : Failure :=
  .refused (.onLine n cause)

/-- A result whose only failures are diagnostics. -/
def orRefuse {α : Type} (result : Except Diagnostic α) : Except Failure α :=
  result.mapError .refused

/-- A result whose only failures are faults. -/
def orFault {α : Type} (result : Except Fault α) : Except Failure α :=
  result.mapError .fault

end UnrollAsm
