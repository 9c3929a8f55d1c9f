import UnrollAsm.Session.Event

/-!
# Passes

What the two passes over a program have in common. A pass works on a scope
tree, keeps something of its own beside it, and notes what happens. It may
fail at any point, and its state at that point survives, because a session
goes on with the tree that a failed pass leaves behind.

## Main definitions

* `Work`: The state of a pass.
* `PassM`: Actions of a pass.
* `PassM.ask`, `PassM.change`: Actions on the tree.
* `PassM.note`, `PassM.refuse`: Events and failures.
* `PassM.start`: Runs a pass on a tree.
-/

namespace UnrollAsm

/-- The state of a pass: the tree, what has happened, and what else the pass
    keeps. -/
structure Work (σ : Type) where
  tree : ScopeTree
  log : Array Event
  own : σ

/-- An action of a pass. The state survives a failure. -/
abbrev PassM (σ : Type) := ExceptT Failure (StateM (Work σ))

namespace PassM

variable {σ α : Type}

/-- Notes an event. -/
def note (event : Event) : PassM σ Unit :=
  modify fun w => { w with log := w.log.push event }

/-- Fails because of a mistake on a line. -/
def refuse (line : Nat) (cause : Cause) : PassM σ α :=
  throw (.onLine line cause)

/-- Asks something of the tree. -/
def ask (query : ScopeTree → Except Failure α) : PassM σ α := do
  ofExcept (query (← get).tree)

/-- Changes the tree. -/
def change (step : ScopeTree → Except Failure (α × ScopeTree)) : PassM σ α := do
  let (a, tree) ← ask step
  modify fun w => { w with tree := tree }
  return a

/-- What the pass keeps beside the tree. -/
def own : PassM σ σ := do
  return (← get).own

/-- Replaces what the pass keeps beside the tree. -/
def setOwn (f : σ → σ) : PassM σ Unit :=
  modify fun w => { w with own := f w.own }

/-- Runs a pass on a tree. Returns its outcome and its last state. -/
def start (pass : PassM σ α) (tree : ScopeTree) (own : σ) : Except Failure α × Work σ :=
  pass.run.run ⟨tree, #[], own⟩

end PassM

end UnrollAsm
