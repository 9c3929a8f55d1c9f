import Mathlib.Data.List.Induction
import UnrollAsm.Proofs.Session.Ready

/-!
# Trees of a Session

Three things happen to the tree of a session. Lines are read into it, it is
unrolled, which changes the values of variables and the headers of loops but not
the skeleton, and its instructions are cleared. A property that all three keep
holds of the tree after any calls, those that failed included. It may speak about
the lines that the session has been given so far.

## Main definitions

* `Call.lines`, `linesOf`: The lines that a call reads, and those of all calls.
* `Lasting`: What is kept by everything that happens to a tree.

## Theorems

* `target_history`: A session keeps its target.
* `ready_history`: Calls that only read, and do not fail, leave a session ready.
* `ready_of_mem_words`: A session that returns words was ready.
* `Lasting.history`: What lasts holds after any calls.
-/

namespace UnrollAsm

/-- The lines that a call reads. -/
def Call.lines : Call → List (Nat × String)
  | .parse lines => lines
  | .parseSource text => Text.numbered text
  | .assemble => []

/-- The lines that calls in a row read. -/
def linesOf (calls : List Call) : List (Nat × String) :=
  calls.flatMap Call.lines

theorem linesOf_append (calls more : List Call) :
    linesOf (calls ++ more) = linesOf calls ++ linesOf more :=
  List.flatMap_append

theorem linesOf_snoc (calls : List Call) (c : Call) :
    linesOf (calls ++ [c]) = linesOf calls ++ c.lines := by
  rw [linesOf_append]
  exact congrArg (linesOf calls ++ ·) (List.flatMap_singleton _ _)

theorem history_snoc (target : Target) (calls : List Call) (c : Call) :
    history target (calls ++ [c]) = (c.reply (history target calls)).after := by
  unfold history
  rw [List.foldl_append]
  rfl

/-! ## The target -/

theorem target_remember (a : Assembler) (t : ScopeTree) (f : Failure) :
    ({ a with tree := t }.remember f).target = a.target := by
  unfold Assembler.remember
  cases f <;> rfl

theorem target_parse (a : Assembler) (lines : List (Nat × String)) :
    (a.parse lines).after.target = a.target := by
  rcases parse_outcome a lines with ⟨n, t, -, hafter⟩ | ⟨f, t, -, hafter⟩
  · rw [hafter]
  · rw [hafter, target_remember]

theorem target_unroll (a : Assembler) : a.unroll.after.target = a.target := by
  rcases unroll_outcome a with ⟨words, t, -, hafter⟩ | ⟨f, t, -, hafter⟩
  · rw [hafter]
  · rw [hafter, target_remember]

-- A request to assemble unrolls the tree or leaves the session as it is.
theorem assemble_after (a : Assembler) :
    a.assemble.after = a ∨ a.assemble.after = a.unroll.after := by
  cases hfailure : a.failure with
  | some d =>
      rw [assemble_of_failure hfailure]
      exact Or.inl rfl
  | none =>
      cases hdone : a.assembled with
      | true =>
          rw [assemble_of_assembled hfailure hdone]
          exact Or.inl rfl
      | false =>
          rw [assemble_of_pending hfailure hdone]
          exact Or.inr rfl

theorem target_reply (a : Assembler) (c : Call) : (c.reply a).after.target = a.target := by
  cases c with
  | parse lines => exact target_parse a lines
  | parseSource text =>
      rw [Call.reply_parseSource]
      generalize Text.numbered text = lines
      exact target_parse a lines
  | assemble =>
      rcases assemble_after a with hafter | hafter
      · exact congrArg Assembler.target hafter
      · exact (congrArg Assembler.target hafter).trans (target_unroll a)

/-- A session keeps its target. -/
theorem target_history (target : Target) (calls : List Call) :
    (history target calls).target = target := by
  induction calls using List.reverseRecOn with
  | nil => rfl
  | append_singleton calls c ih => rw [history_snoc, target_reply, ih]

/-! ## Sessions that have only read -/

-- As long as lines are read and nothing else, failures leave the tree well formed.
theorem wellFormed_history {target : Target} {calls : List Call} (hreads : .assemble ∉ calls) :
    WellFormed (history target calls).tree := by
  induction calls using List.reverseRecOn with
  | nil => exact WellFormed.empty
  | append_singleton calls c ih =>
      rw [List.mem_append, List.mem_singleton, not_or] at hreads
      have hwell := ih hreads.1
      have hrooted := (healthy_history target calls).rooted
      have hparse : ∀ lines, WellFormed ((history target calls).parse lines).after.tree := by
        intro lines
        rw [tree_parse, target_history]
        rcases (tidy_invariant target).run hrooted ⟨hrooted, hwell, .root hwell.root⟩ lines with
          ⟨s, -, htidy⟩
        exact htidy.wellFormed
      rw [history_snoc]
      cases c with
      | parse lines => exact hparse lines
      | parseSource text =>
          rw [Call.reply_parseSource]
          generalize Text.numbered text = lines
          exact hparse lines
      | assemble => exact absurd rfl hreads.2

/-- After calls that only read, and do not fail, a session is ready to be
    assembled. -/
theorem ready_history {target : Target} {calls : List Call} (hreads : .assemble ∉ calls)
    (hnone : firstError (.new target) calls = none) : Ready target (history target calls) where
  target := target_history target calls
  healthy := healthy_history target calls
  failure := failure_eq_none hnone
  assembled := (assembled_history hnone).trans (decide_eq_false hreads)
  wellFormed := wellFormed_history hreads

/-- If there are words when a session is assembled, it was ready. -/
theorem ready_of_mem_words {target : Target} {calls : List Call} {words : List EmittedWord}
    {w : EmittedWord} (hok : (history target calls).assemble.answer = .ok words) (hw : w ∈ words) :
    Ready target (history target calls) := by
  have hnone : firstError (.new target) calls = none := by
    rw [Option.eq_none_iff_forall_ne_some]
    intro f hf
    rw [assemble_of_firstError hf] at hok
    cases hok
  have hreads : .assemble ∉ calls := by
    intro hmem
    rw [assemble_of_asked hnone hmem] at hok
    cases hok
    cases hw
  exact ready_history hreads hnone

/-! ## The tree -/

-- Unrolling keeps the skeleton, whatever comes of it.
theorem skeleton_run (target : Target) {t : ScopeTree} (h : Rooted t) :
    (Unrolling.run target t).2.tree.skeleton = t.skeleton := by
  have hkeeps : Keeps t 0 ⟨t, #[], #[]⟩ (Unrolling.walk target t.size 0)
      (Unrolling.walk target t.size 0) := Unrolling.walk_keeps h (Or.inl rfl) rfl
  exact hkeeps.kept.skeleton

-- The tree after unrolling has the skeleton that it had, and may be cleared.
theorem tree_unroll (a : Assembler) (h : Rooted a.tree) :
    ∃ u : ScopeTree, u.skeleton = a.tree.skeleton ∧
      (a.unroll.after.tree = u ∨ a.unroll.after.tree = u.clear) := by
  refine ⟨_, skeleton_run a.target h, ?_⟩
  unfold Assembler.unroll
  rcases Unrolling.run a.target a.tree with ⟨(d | f) | ⟨⟩, w⟩
  · exact Or.inl rfl
  · exact Or.inl rfl
  · exact Or.inr rfl

/-- What holds of the tree of a new session, and is kept by everything that
    happens to a tree. It may speak about the lines read so far. -/
structure Lasting (target : Target) (P : List (Nat × String) → ScopeTree → Prop) : Prop where
  empty : P [] .empty
  read : ∀ {given t} (lines : List (Nat × String)), Rooted t → P given t →
    P (given ++ lines) (Reading.run target t lines).2.tree
  unroll : ∀ {given} {t u : ScopeTree}, P given t → u.skeleton = t.skeleton → P given u
  clear : ∀ {given t}, P given t → P given t.clear

namespace Lasting

variable {target : Target} {P : List (Nat × String) → ScopeTree → Prop}

theorem reply (h : Lasting target P) {a : Assembler} (htarget : a.target = target)
    (hrooted : Rooted a.tree) {given : List (Nat × String)} (ha : P given a.tree) (c : Call) :
    P (given ++ c.lines) (c.reply a).after.tree := by
  have hparse : ∀ lines, P (given ++ lines) (a.parse lines).after.tree := by
    intro lines
    rw [tree_parse, htarget]
    exact h.read lines hrooted ha
  cases c with
  | parse lines => exact hparse lines
  | parseSource text =>
      have hlines : (Call.parseSource text).lines = Text.numbered text := rfl
      rw [hlines, Call.reply_parseSource]
      generalize Text.numbered text = lines
      exact hparse lines
  | assemble =>
      rw [show given ++ Call.assemble.lines = given from List.append_nil given]
      rcases assemble_after a with hafter | hafter
      · exact (congrArg Assembler.tree hafter).symm ▸ ha
      · refine (congrArg Assembler.tree hafter).symm ▸ ?_
        rcases tree_unroll a hrooted with ⟨u, hskel, htree | htree⟩
        · exact htree.symm ▸ h.unroll ha hskel
        · exact htree.symm ▸ h.clear (h.unroll ha hskel)

/-- What lasts holds after any calls. -/
theorem history (h : Lasting target P) (calls : List Call) :
    P (linesOf calls) (history target calls).tree := by
  induction calls using List.reverseRecOn with
  | nil => exact h.empty
  | append_singleton calls c ih =>
      rw [linesOf_snoc, history_snoc]
      exact h.reply (target_history target calls) (healthy_history target calls).rooted ih c

end Lasting

end UnrollAsm
