import UnrollAsm.Text.Numeral

/-!
# Addresses and Symbols

Everything in a program lives in a numbered scope at a numbered position, and
an address is that pair of numbers. Items are appended and never removed, so an
address handed out once keeps its meaning.

A symbol is a named 32-bit integer. Constants never change; variables are
updated while the program is unrolled. An integer literal is the constant
named by its own decimal text, which no declared name can spell because names
do not start with a digit or a sign.

## Main definitions

* `ScopeId`, `Address`: Where something stands in a program.
* `fitsValue`: The integer is a 32-bit value.
* `Symbol`: A named constant or variable.
* `Symbol.literal`: The constant an integer literal stands for.
* `Symbol.set?`: A variable with a new value.
-/

namespace UnrollAsm

/-- The number of a scope. Scope zero is the root, the others are loop bodies. -/
abbrev ScopeId := Nat

namespace ScopeId

/-- The outermost scope. -/
def root : ScopeId := 0

/-- How a scope is called in messages. -/
def label (s : ScopeId) : String :=
  if s = root then "ROOT" else s!"LOOP[{s}]"

end ScopeId

/-- The position of an item: its scope, and its index among the scope's items. -/
structure Address where
  scope : ScopeId
  index : Nat
  deriving DecidableEq, Repr

/-- How an address is written in messages. -/
def Address.text (a : Address) : String :=
  s!"{a.scope.label}.{a.index}"

/-- The integer is one of the values that a symbol can have. -/
def fitsValue (n : Int) : Bool :=
  -0x80000000 ≤ n && n < 0x80000000

theorem fitsValue_iff {n : Int} :
    fitsValue n = true ↔ -0x80000000 ≤ n ∧ n < 0x80000000 := by
  unfold fitsValue
  rw [Bool.and_eq_true, decide_eq_true_eq, decide_eq_true_eq]

/-- Whether a symbol may be written to. -/
inductive SymbolKind where
  | const
  | var
  deriving DecidableEq, Repr

/-- The word for a kind of symbol. -/
def SymbolKind.label : SymbolKind → String
  | .const => "constant"
  | .var => "variable"

/-- A named 32-bit integer. -/
structure Symbol where
  kind : SymbolKind
  name : String
  value : Int32
  deriving DecidableEq, Repr

namespace Symbol

/-- The constant that an integer literal stands for. -/
def literal (v : Int32) : Symbol :=
  ⟨.const, Text.decimal v, v⟩

/-- The symbol is a variable. -/
def isVar (s : Symbol) : Bool :=
  s.kind = .var

/-- The symbol with another value, provided it is a variable. -/
def set? (s : Symbol) (v : Int32) : Option Symbol :=
  if s.isVar then some { s with value := v } else none

/-- How a symbol is written in messages. -/
def text (s : Symbol) : String :=
  let word := match s.kind with
    | .const => "CONST"
    | .var => "VAR"
  s!"{word} {s.name} = {Text.decimal s.value}"

end Symbol

end UnrollAsm
