import UnrollAsm.Diagnostic
import UnrollAsm.Statement.Token
import UnrollAsm.Text.Blank

/-!
# Reading a Statement

The first token decides: a reserved word takes a fixed number of operands, any
other identifier is a mnemonic with at most three. The number of operands is
checked before any of them is looked at, and the operands are then checked from
left to right, so of several mistakes in a line the first in this order is
reported.

## Main definitions

* `operand`: Reads a token as an integer or a name.
* `declaredName`: Reads a token as a name being declared.
* `ofTokens`: Reads the tokens of a line.
* `Statement.parse`: Reads a line.
-/

namespace UnrollAsm

namespace Statement

/-- The most operands that a command takes. -/
def maxOperands : Nat := 3

/-- What is wrong with a token that is neither an integer nor an identifier. -/
def malformed (token : String) : Cause :=
  if token.toList.head?.any Char.isDigit then .syntactic (.digitLed token)
  else .syntactic (.unexpected token)

/-- Reads a token as an integer or a name. -/
def operand (token : String) : Except Cause Operand :=
  match Text.integer? token.toList with
  | some n =>
    if fitsValue n then .ok (.literal (Int32.ofInt n))
    else .error (.range (.literalTooWide token))
  | none =>
    if isIdentifier token then .ok (.name token) else .error (malformed token)

/-- Reads a token as a name being declared, which must not be reserved. -/
def declaredName (token : String) : Except Cause String :=
  if isIdentifier token then
    match Keyword.ofToken? token with
    | some keyword => .error (.syntactic (.reserved keyword))
    | none => .ok token
  else .error (malformed token)

/-- What is wrong with a reserved word that has the wrong number of operands. -/
def wrongArity (keyword : Keyword) (expected : Nat) (arguments : List String) : Cause :=
  .syntactic (.keywordArity keyword expected arguments.length)

/-- Reads what follows a reserved word. -/
def ofKeyword : Keyword → List String → Except Cause Statement
  | .loop, [start, stop, step] => do
    return loop (← operand start) (← operand stop) (← operand step)
  | .loop, arguments => .error (wrongArity .loop 3 arguments)
  | .pool, [] => .ok pool
  | .pool, arguments => .error (wrongArity .pool 0 arguments)
  | .var, [name, value] => do
    return var (← declaredName name) (← operand value)
  | .var, arguments => .error (wrongArity .var 2 arguments)
  | .const, [name, value] => do
    let name ← declaredName name
    match ← operand value with
    | .literal value => return const name value
    | .name other => .error (.syntactic (.constFromName name other))
  | .const, arguments => .error (wrongArity .const 2 arguments)

/-- Reads what follows a mnemonic. -/
def ofMnemonic (mnemonic : String) (arguments : List String) : Except Cause Statement :=
  if ¬ isIdentifier mnemonic then .error (malformed mnemonic)
  else if arguments.length > maxOperands then
    .error (.syntactic (.tooManyOperands mnemonic maxOperands arguments.length))
  else do
    return command mnemonic (← arguments.mapM operand)

/-- Reads the tokens of a line. -/
def ofTokens : List String → Except Cause Statement
  | [] => .ok empty
  | head :: arguments =>
    match Keyword.ofToken? head with
    | some keyword => ofKeyword keyword arguments
    | none => ofMnemonic head arguments

/-- Reads a line of assembly. The number only marks what is reported. -/
def parse (number : Nat) (text : String) : Except Diagnostic Statement :=
  match tokens? text with
  | none => .error (.onLine number (.syntactic (.untokenized (Text.trim text))))
  | some tokens => (ofTokens tokens).mapError (.onLine number)

end Statement

end UnrollAsm
