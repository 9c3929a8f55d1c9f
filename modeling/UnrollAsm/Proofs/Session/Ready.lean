import UnrollAsm.Proofs.Reading.WellFormed
import UnrollAsm.Proofs.Session.FailStop
import UnrollAsm.Proofs.Unrolling.Trace

/-!
# Sessions Ready to Be Assembled

A fresh session that has accepted some lines has a well-formed tree, and nothing
stands in the way of unrolling it. What assembling it comes to is then told by a
trace from the tree, with no words so far and nothing noted, or by the origin of
the failure.

## Main definitions

* `Ready`: A session whose tree can be unrolled.

## Theorems

* `ready_of_parse`: Accepting lines makes a fresh session ready.
* `Ready.assemble_ok`: A ready session that is assembled has gone through a trace.
* `Ready.assemble_error`: If it fails, there is an origin.
-/

namespace UnrollAsm

open PassM

/-- A session whose tree is well formed and has still to be unrolled. -/
structure Ready (target : Target) (a : Assembler) : Prop where
  target : a.target = target
  healthy : Healthy a
  failure : a.failure = none
  assembled : a.assembled = false
  wellFormed : WellFormed a.tree

section Parse

variable {target : Target} {lines : List (Nat × String)} {n : Nat}

-- The tree of a session after reading is that of the pass.
theorem tree_parse (a : Assembler) (lines : List (Nat × String)) :
    (a.parse lines).after.tree = (Reading.run a.target a.tree lines).2.tree := by
  unfold Assembler.parse
  rcases Reading.run a.target a.tree lines with ⟨(d | f) | n, w⟩
  · rfl
  · rfl
  · rfl

/-- What reading keeps holds of the tree of a fresh session that has read lines. -/
theorem Reading.Invariant.parse {P : ScopeTree → Nat → Prop}
    (hP : Reading.Invariant target P) (hempty : P .empty 0) (lines : List (Nat × String)) :
    ∃ s, P ((Assembler.new target).parse lines).after.tree s := by
  rw [tree_parse]
  exact hP.run .empty hempty lines

theorem ready_of_parse (h : ((Assembler.new target).parse lines).answer = .ok n) :
    Ready target ((Assembler.new target).parse lines).after := by
  have hhealthy := ((Healthy.new target).parse lines).1
  have htidy : Tidy ScopeTree.empty 0 := ⟨.empty, .root WellFormed.empty.root⟩
  rcases (tidy_invariant target).parse ⟨.empty, htidy⟩ lines with ⟨s, -, hwell⟩
  rcases parse_outcome (Assembler.new target) lines with ⟨_, t, -, hafter⟩ | ⟨f, t, hanswer, -⟩
  · refine ⟨?_, hhealthy, ?_, ?_, hwell.wellFormed⟩
    · rw [hafter]
      rfl
    · rw [hafter]
      rfl
    · rw [hafter]
      rfl
  · rw [hanswer] at h
    cases h

end Parse

namespace Ready

variable {target : Target} {a : Assembler}

theorem yields (h : Ready target a) :
    Yields a.tree target ⟨a.tree, #[], #[]⟩ (Unrolling.walk target a.tree.size 0)
      (Unrolls a.tree a.tree.size 0) :=
  Unrolling.walk_yields h.wellFormed h.healthy.rooted _ 0 rfl

/-- Assembling has gone through one of the lists of the whole tree. -/
theorem assemble_ok (h : Ready target a) {words : List EmittedWord}
    (hok : a.assemble.answer = .ok words) :
    ∃ l w, Unrolls a.tree a.tree.size 0 l ∧ Trace a.tree target ⟨a.tree, #[], #[]⟩ l w ∧
      Unrolling.run target a.tree = (.ok (), w) ∧ words = w.own.toList := by
  rw [assemble_of_pending h.failure h.assembled] at hok
  unfold Assembler.unroll at hok
  rw [h.target] at hok
  have hyields := h.yields
  have hrun : Unrolling.run target a.tree =
      (Unrolling.walk target a.tree.size 0).exec ⟨a.tree, #[], #[]⟩ := rfl
  rcases hexec : Unrolling.run target a.tree with ⟨e | ⟨⟩, w⟩
  · rw [hexec] at hok
    cases hok
  · rw [hexec] at hok
    rw [hexec] at hrun
    rcases hyields.done () w hrun.symm with ⟨l, htrace, hl⟩
    cases hok
    exact ⟨l, w, hl, htrace, rfl, rfl⟩

theorem assemble_error (h : Ready target a) {e : Failure} (herror : a.assemble.answer = .error e) :
    Origin a.tree target e := by
  rw [assemble_of_pending h.failure h.assembled] at herror
  unfold Assembler.unroll at herror
  rw [h.target] at herror
  have hrun : Unrolling.run target a.tree =
      (Unrolling.walk target a.tree.size 0).exec ⟨a.tree, #[], #[]⟩ := rfl
  rcases hexec : Unrolling.run target a.tree with ⟨e' | ⟨⟩, w⟩
  · rw [hexec] at herror
    rw [hexec] at hrun
    cases herror
    exact h.yields.failed _ w hrun.symm
  · rw [hexec] at herror
    cases herror

end Ready

end UnrollAsm
