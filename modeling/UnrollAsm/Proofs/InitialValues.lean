import UnrollAsm.Proofs.Session.FailStop
import UnrollAsm.Proofs.Unrolling.Lockstep

/-!
# Initial Values Do Not Matter

Reading a variable line puts a value into the tree, and reading a loop puts its
bounds and its index there. Both are needed while reading, where they decide
whether the bounds of a loop are accepted. Unrolling must not depend on them,
because they are the values at the end of reading and not those at the position
of a line.

A second tree may have any values in the variables and in the headers. Assembling
it comes to the same as assembling the tree that was read, in words or in an
error, and on success it ends in the same tree: whatever the values were at the
start, all of them have been written over by the end.

## Theorems

* `unroll_of_skeleton`: Unrolling two trees of one skeleton.
* `assemble_of_skeleton`: Assembling a program that was read, and assembling it
  with other values.
-/

namespace UnrollAsm

/-- Unrolling a tree with other values in its variables and headers: the answer is
    the same, and if it is words, so is the session afterwards. -/
theorem Assembler.unroll_of_skeleton {a : Assembler} {block : Block} {u : ScopeTree}
    (hlaid : Laid a.target a.tree block) (hskel : u.skeleton = a.tree.skeleton) :
    { a with tree := u }.unroll.answer = a.unroll.answer ∧
      ∀ words, a.unroll.answer = .ok words →
        { a with tree := u }.unroll.after = a.unroll.after := by
  have hsteps := hlaid.run_lockstep hskel
  have hsize : u.size = a.tree.size := ScopeTree.size_of_skeleton hskel
  unfold Assembler.unroll Unrolling.run
  rw [PassM.start_eq_exec, PassM.start_eq_exec, hsize]
  unfold Lockstep at hsteps
  split at hsteps
  · rename_i hleft hright
    rcases hsteps with ⟨-, halike⟩
    rw [hleft, hright]
    refine ⟨?_, fun words _ => ?_⟩
    · exact congrArg (fun words : Array EmittedWord => Except.ok words.toList) halike.words
    · simp only [halike.tree_eq]
  · rename_i hleft hright
    rw [hleft, hright]
    exact ⟨congrArg Except.error hsteps, fun words hwords => by cases hwords⟩
  · exact hsteps.elim

/-- For every program read by calls that all succeeded, and every tree that
    differs from it in the values of variables and in what loop headers remember
    only: assembling the two gives the same words or the same error, and on
    success ends in the same tree. -/
theorem assemble_of_skeleton (target : Target) (calls : List Call) (u : ScopeTree)
    (hreads : .assemble ∉ calls) (hnone : firstError (.new target) calls = none)
    (hskel : u.skeleton = (history target calls).tree.skeleton) :
    { history target calls with tree := u }.assemble.answer =
        (history target calls).assemble.answer ∧
      ∀ words, (history target calls).assemble.answer = .ok words →
        { history target calls with tree := u }.assemble.after.tree =
          (history target calls).assemble.after.tree := by
  have hfailure := failure_eq_none hnone
  have hpending : (history target calls).assembled = false := by
    rw [assembled_history hnone]
    exact decide_eq_false hreads
  rcases (healthy_history target calls).laid hfailure hpending with ⟨block, hlaid⟩
  rcases Assembler.unroll_of_skeleton hlaid hskel with ⟨hanswer, hafter⟩
  rw [assemble_of_pending hfailure hpending,
    assemble_of_pending (a := { history target calls with tree := u }) hfailure hpending]
  exact ⟨hanswer, fun words hwords => congrArg Assembler.tree (hafter words hwords)⟩

/-- A loop whose end is a variable. -/
def variableEnd : List Call :=
  [.parse [(1, "VAR end 2"), (2, "LOOP 0 end 1"), (3, "SETDIC end"), (4, "POOL")]]

/-- The tree of that program with other values in the variable and in the header. -/
def changedEnd : ScopeTree :=
  let changed := (history sampleTarget variableEnd).tree.setItem ⟨0, 1⟩
    (.symbol ⟨.var, "end", 1000⟩)
  match changed.headerAt 1 with
  | none => changed
  | some header => changed.setHeader 1 { header with bounds := ⟨5, -5, 0⟩, current := 9 }

-- There are two trips and two words, whatever the end was at the start.
theorem assemble_changedEnd :
    changedEnd ≠ (history sampleTarget variableEnd).tree ∧
      ∃ words : List EmittedWord, words.length = 2 ∧
        (history sampleTarget variableEnd).assemble.answer = .ok words ∧
        { history sampleTarget variableEnd with tree := changedEnd }.assemble.answer =
          .ok words ∧
        { history sampleTarget variableEnd with tree := changedEnd }.assemble.after.tree =
          (history sampleTarget variableEnd).assemble.after.tree := by
  have hreads : Call.assemble ∉ variableEnd := by decide +kernel
  have hnone : firstError (.new sampleTarget) variableEnd = none := by decide +kernel
  have hskel : changedEnd.skeleton = (history sampleTarget variableEnd).tree.skeleton := by
    decide +kernel
  have hlength : ((history sampleTarget variableEnd).assemble.answer.map List.length) = .ok 2 := by
    decide +kernel
  have hsame := assemble_of_skeleton sampleTarget variableEnd changedEnd hreads hnone hskel
  refine ⟨by decide +kernel, ?_⟩
  generalize history sampleTarget variableEnd = a at hlength hsame ⊢
  rcases hanswer : a.assemble.answer with f | words
  · rw [hanswer] at hlength
    cases hlength
  · rw [hanswer] at hlength hsame
    exact ⟨words, Except.ok.inj hlength, rfl, hsame.1, hsame.2 words rfl⟩

end UnrollAsm
