import UnrollAsm.Text.Numeral

/-!
# Statements

One line of assembly, before anything is known about the names in it. A
statement declares a constant, declares or resets a variable, opens or closes a
loop, or is a command with up to three operands; a line may also hold nothing.

## Main definitions

* `Keyword`: The four reserved words.
* `Operand`: An integer literal or a name.
* `Statement`: What a line says.
* `Statement.outline`: The form in which statements appear in the log.
-/

namespace UnrollAsm

/-- The reserved words. -/
inductive Keyword where
  | var
  | const
  | loop
  | pool
  deriving DecidableEq, Repr

namespace Keyword

/-- All reserved words. -/
def all : List Keyword := [var, const, loop, pool]

/-- The spelling of a reserved word. -/
def text : Keyword → String
  | var => "VAR"
  | const => "CONST"
  | loop => "LOOP"
  | pool => "POOL"

/-- The reserved word that a token spells. -/
def ofToken? (token : String) : Option Keyword :=
  all.find? fun keyword => keyword.text = token

end Keyword

/-- An operand as it is written. -/
inductive Operand where
  | literal (value : Int32)
  | name (name : String)
  deriving DecidableEq, Repr

namespace Operand

/-- The operand in its canonical spelling. -/
def text : Operand → String
  | .literal v => Text.decimal v
  | .name n => n

/-- The operand as the log shows it. -/
def outline : Operand → String
  | .literal v => s!"Literal({Text.decimal v})"
  | .name n => s!"Name(\"{n}\")"

end Operand

/-- What a line of assembly says. -/
inductive Statement where
  /-- Nothing but blanks and a comment. -/
  | empty
  /-- Open a loop. -/
  | loop (start stop step : Operand)
  /-- Close the innermost loop. -/
  | pool
  /-- Give a variable a value, declaring it if need be. -/
  | var (name : String) (value : Operand)
  /-- Declare a constant. -/
  | const (name : String) (value : Int32)
  /-- Any other mnemonic with its operands. -/
  | command (mnemonic : String) (operands : List Operand)
  deriving DecidableEq, Repr

/-- The statement as the log shows it. -/
def Statement.outline : Statement → String
  | empty => "Empty"
  | loop start stop step =>
    s!"Loop \x7b start: {start.outline}, end: {stop.outline}, step: {step.outline} \x7d"
  | pool => "Pool"
  | var name value => s!"Variable \x7b name: \"{name}\", value: {value.outline} \x7d"
  | const name value => s!"Constant \x7b name: \"{name}\", value: {Text.decimal value} \x7d"
  | command mnemonic operands =>
    let list := ", ".intercalate (operands.map Operand.outline)
    s!"Command \x7b mnemonic: \"{mnemonic}\", operands: [{list}] \x7d"

end UnrollAsm
