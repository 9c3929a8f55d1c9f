import UnrollAsm.Program.Instruction

/-!
# Items and Loop Bounds

A scope is a list of items: symbols, instructions, and markers for the loops
nested in it. The bounds of a loop are the values of its three operands at some
moment; the body runs once and then again while the index, moved by the step,
has not reached the stop.

## Main definitions

* `Item`: One entry of a scope.
* `Bounds`: The start, stop and step of a loop.
* `Bounds.tripCount?`: How often a loop with fixed bounds runs its body.
-/

namespace UnrollAsm

/-- One entry of a scope. -/
inductive Item where
  | symbol (symbol : Symbol)
  | instruction (instruction : Instruction)
  /-- Marks where the loop with the given body opens. -/
  | loop (body : ScopeId)
  deriving DecidableEq, Repr

namespace Item

/-- The symbol that the item is, if it is one. -/
def symbol? : Item → Option Symbol
  | symbol s => some s
  | instruction _ | loop _ => none

/-- The item is the symbol called `name`. -/
def isNamed (name : String) : Item → Bool
  | symbol s => s.name = name
  | instruction _ | loop _ => false

/-- The item after its program has been assembled: instructions are cleared. -/
def clear : Item → Item
  | instruction i => instruction i.clear
  | item => item

/-- The item is an instruction that has not been cleared. -/
def isPending : Item → Bool
  | instruction i => i.action ≠ .cleared
  | symbol _ | loop _ => false

/-- How an item is written in messages. -/
def text : Item → String
  | symbol s => s.text
  | instruction i => i.text
  | loop body => body.label

/-- How an operand that turned out to be of the wrong sort is described. -/
def description : Item → String
  | symbol s => s!"{s.kind.label} `{s.name}`"
  | item => s!"`{item.text}`"

end Item

/-- The values of a loop's start, stop and step. -/
structure Bounds where
  start : Int32
  stop : Int32
  step : Int32
  deriving DecidableEq, Repr

namespace Bounds

/-- How far the stop is from the start. -/
def distance (b : Bounds) : Nat :=
  (b.stop.toInt - b.start.toInt).natAbs

/-- The number of trips while the bounds stay fixed: the distance divided by
    the step's width, rounded up, but at least one. There is no such number
    if the step is zero and the stop is elsewhere. -/
def tripCount? (b : Bounds) : Option Nat :=
  let width := b.step.toInt.natAbs
  if b.distance = 0 then some 1
  else if width = 0 then none
  else some ((b.distance + width - 1) / width)

/-- How bounds are written in messages. -/
def text (b : Bounds) : String :=
  s!"[{Text.decimal b.start}, {Text.decimal b.stop}) step {Text.decimal b.step}"

end Bounds

end UnrollAsm
