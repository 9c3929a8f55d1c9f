import Mathlib.Algebra.Group.Nat.Defs
import UnrollAsm.Proofs.Session.Calls

/-!
# Assembly Ends

Walking over a scope and running a loop call each other, and neither has a bound
that is known beforehand: the body of a loop may change the symbols behind the
loop's own end and step, so the number of trips is not known on entry. Two
measures make up for it. Nesting is bounded by the number of scopes, because
markers lead from older scopes to younger ones. And an entry of a loop is bounded
by the number of values that an index can have, because the index moves in one
direction only, whatever the body writes.

The depth that a walk is given stands for the first measure. It is never used up,
and giving more of it changes nothing, so it could as well be left out.

The values in a tree play no part in this. What is said about walks and loops
holds in every state whose tree has the skeleton of the program, with any values
of its variables and any state of its loops.

## Main definitions

* `Terminates`: Assembling a session comes to an end.

## Theorems

* `Healthy.terminates`: It does in a healthy session.
* `assemble_terminates`: It does after any calls.
-/

namespace UnrollAsm

open Unrolling

/-- Assembling the program of a session comes to an end, in words or in an error,
    and each measure of its recursion is bounded on its own. -/
structure Terminates (a : Assembler) : Prop where
  ends : (∃ words, a.assemble.answer = .ok words) ∨
    ∃ diagnostic, a.assemble.answer = .error (.refused diagnostic)
  /-- More depth than there are scopes makes no difference. -/
  depth : ∀ (w : Work (Array EmittedWord)) (depth : Nat), w.tree.skeleton = a.tree.skeleton →
    a.tree.size ≤ depth →
    (walk a.target depth .root).exec w = (walk a.target a.tree.size .root).exec w
  /-- An entry of a loop makes at most as many trips as an index has values. -/
  trips : ∀ (w : Work (Array EmittedWord)) (depth s c : Nat),
    w.tree.skeleton = a.tree.skeleton → a.tree.parentAt c = some s →
    tripsOf c ((runLoop (walk a.target depth) c).exec w).2.log ≤ tripsOf c w.log + 2 ^ 32
  /-- Walking over a scope leads to a state of the same kind. -/
  skeleton : ∀ (w : Work (Array EmittedWord)) (depth c : Nat),
    w.tree.skeleton = a.tree.skeleton →
    ((walk a.target depth c).exec w).2.tree.skeleton = a.tree.skeleton
  /-- Walking over the body of a loop changes no headers but those of loops inside. -/
  headers : ∀ (w : Work (Array EmittedWord)) (depth c r : Nat),
    w.tree.skeleton = a.tree.skeleton → ¬ Inside a.tree c r →
    ((walk a.target depth c).exec w).2.tree.headerAt r = w.tree.headerAt r
  /-- No loop is inside its own body. -/
  acyclic : ∀ c, ¬ Inside a.tree c c

theorem Healthy.walk_kept {a : Assembler} (h : Healthy a) (depth c : Nat)
    {w : Work (Array EmittedWord)} (hw : w.tree.skeleton = a.tree.skeleton) :
    Kept a.tree c w ((walk a.target depth c).exec w).2 := by
  have hkeeps : Keeps a.tree c w (walk a.target depth c) (walk a.target depth c) :=
    walk_keeps h.rooted (Or.inl rfl) hw
  exact hkeeps.kept

theorem Healthy.terminates {a : Assembler} (h : Healthy a) : Terminates a where
  ends := by
    have hfault := h.assemble.2
    rcases hanswer : a.assemble.answer with (d | f) | words
    · exact Or.inr ⟨d, rfl⟩
    · exact absurd hanswer (hfault f)
    · exact Or.inl ⟨words, rfl⟩
  depth := by
    intro w depth hw hsize
    -- The root has the lowest number, so each depth is enough for all the others.
    have hroot : (0 : Nat) < a.tree.size := h.rooted.nonempty
    have hkeeps : Keeps a.tree 0 w (walk a.target depth 0) (walk a.target a.tree.size 0) :=
      walk_keeps h.rooted (Or.inr ⟨hroot, by omega, by omega⟩) hw
    exact hkeeps.same
  trips := by
    intro w depth s c hw hc
    -- However deep the walk over the body may go, it keeps what is outside.
    have hbody : ∀ v : Work (Array EmittedWord), v.tree.skeleton = a.tree.skeleton →
        Keeps a.tree c v (walk a.target depth c) (walk a.target depth c) :=
      fun v hv => walk_keeps h.rooted (Or.inl rfl) hv
    exact (runLoop_starts hc (h.rooted.not_inside_self c) hbody hw).trips
  skeleton w depth c hw := (h.walk_kept depth c hw).skeleton
  headers w depth c r hw hr := (h.walk_kept depth c hw).headers r hr
  acyclic := h.rooted.not_inside_self

/-- Assembling comes to an end, whichever calls a session has had before. -/
theorem assemble_terminates (target : Target) (calls : List Call) :
    Terminates (history target calls) :=
  (healthy_history target calls).terminates

end UnrollAsm
