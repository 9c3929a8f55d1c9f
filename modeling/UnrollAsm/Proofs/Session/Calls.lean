import UnrollAsm.Proofs.Unrolling.Frame
import UnrollAsm.Session.Assembler

/-!
# Calls of a Session

What a session does with a call, told by the outcome. Reading either grows the
tree by all its lines or is refused, and then the session remembers an error.
Unrolling comes to what the interpreter makes of the block that has been laid
out, be it words or an error.

A session is kept healthy by every call. Its tree is rooted all along. As long as
it has seen no error and has not been assembled, the tree is also the layout of a
block, namely of all the lines read so far; and these are exactly the sessions
that unroll anything.

## Main definitions

* `Call`, `Call.reply`: A call, and the reply of a session to it.
* `history`: The session after calls in a row.
* `Healthy`: What holds of a session between calls.

## Theorems

* `Assembler.parse_cases`: The outcomes of reading.
* `Assembler.unroll_cases`: The outcomes of unrolling.
* `Healthy.reply`: A call keeps a session healthy, and does not fault.
* `healthy_history`: Sessions are healthy after any calls.
-/

namespace UnrollAsm

/-- A call of a session. -/
inductive Call where
  | parse (lines : List (Nat × String))
  | parseSource (text : String)
  | assemble
  deriving DecidableEq, Repr

namespace Call

/-- What a successful answer to a call consists of: the number of statements, or
    the words. -/
def Result : Call → Type
  | parse _ | parseSource _ => Nat
  | assemble => List EmittedWord

/-- The reply of a session to a call. -/
def reply (a : Assembler) : (c : Call) → Reply c.Result
  | parse lines => a.parse lines
  | parseSource text => a.parseSource text
  | assemble => a.assemble

-- Reading a text is reading its lines, to which a proof then gives a name.
theorem reply_parseSource (a : Assembler) (text : String) :
    (parseSource text).reply a = (parse (Text.numbered text)).reply a := rfl

end Call

/-- The session after calls in a row, from nothing on. -/
def history (target : Target) (calls : List Call) : Assembler :=
  calls.foldl (fun a c => (c.reply a).after) (.new target)

/-- A small target with all kinds of mnemonics. -/
def sampleTarget : Target where
  layout := ⟨5, 3⟩
  wildcard := 7
  memory := 1023
  output := none
  dic := ⟨"Dic", 8, 4⟩
  doc := ⟨"Doc", 4, 2⟩
  table := fun
    | .noOperand => ⟨.noOperand, [("START", 1), ("FINISH", 2)]⟩
    | .oneOperand => ⟨.oneOperand, [("SETDIC", 3)]⟩
    | .twoOperand => ⟨.twoOperand, [("LOADDIC", 4)]⟩
    | .threeOperand => ⟨.threeOperand, [("DIC", 5)]⟩
    | .arithmetic => ⟨.arithmetic, [("ADD", 6), ("MULI", 7)]⟩

/-- A loop that raises its own end once, around a loop that hides the name. -/
def sampleText : String :=
  "VAR end 2\nVAR gap 1\nLOOP 0 end 1\nADD end gap\nMULI gap 0\nLOOP 0 2 1\nCONST end 1\n" ++
    "SETDIC end\nPOOL\nDIC 16 end 1\nPOOL\n"

namespace Assembler

open PassM

variable {a : Assembler}

/-- Reading grows the tree by all the lines, or is refused and leaves a rooted
    tree behind. -/
theorem parse_cases (lines : List (Nat × String)) (h : Rooted a.tree) :
    (∃ n t s, (a.parse lines).answer = .ok n ∧ (a.parse lines).after = { a with tree := t } ∧
      GrowsAll a.target lines a.tree 0 t s ∧ t.headerAt s = none ∧ Rooted t) ∨
    (∃ d t, (a.parse lines).answer = .error (.refused d) ∧
      (a.parse lines).after = { a with tree := t, failure := a.failure <|> some d } ∧
      Rooted t) := by
  have hsound : Sound a.tree 0 := ⟨h, h.nonempty⟩
  have hmeets : (Reading.readProgram a.target lines).Meets ⟨a.tree, #[], 0⟩ _ _ :=
    Reading.readProgram_meets lines hsound
  unfold Meets at hmeets
  unfold parse Reading.run
  rw [start_eq_exec]
  unfold ScopeId.root
  rcases hexec : (Reading.readProgram a.target lines).exec ⟨a.tree, #[], 0⟩ with ⟨result, w⟩
  rw [hexec] at hmeets
  rcases result with (d | f) | n
  · exact Or.inr ⟨d, w.tree, rfl, rfl, hmeets.rooted⟩
  · exact hmeets.elim
  · rcases hmeets with ⟨hgrows, hheader⟩
    exact Or.inl ⟨n, w.tree, w.own, rfl, rfl, hgrows, hheader, (hgrows.sound hsound).rooted⟩

/-- Unrolling comes to what the interpreter makes of the block, and keeps the
    skeleton of the program either way. -/
theorem unroll_cases {block : Block} (hrooted : Rooted a.tree)
    (hlaid : Laid a.target a.tree block) :
    (∃ w r, Unrolling.run a.target a.tree = (.ok (), w) ∧
      Block.exec a.target block ⟨[[]], []⟩ = .ok r ∧
      Sim a.tree [⟨0, a.tree.itemsAt 0⟩] w r ∧ Kept a.tree 0 ⟨a.tree, #[], #[]⟩ w) ∨
    (∃ d w, Unrolling.run a.target a.tree = (.error (.refused d), w) ∧
      Block.exec a.target block ⟨[[]], []⟩ = .error d ∧ Kept a.tree 0 ⟨a.tree, #[], #[]⟩ w) := by
  have hagrees := hlaid.run_agrees
  have hkeeps : Keeps a.tree 0 ⟨a.tree, #[], #[]⟩ (Unrolling.walk a.target a.tree.size 0)
      (Unrolling.walk a.target a.tree.size 0) := Unrolling.walk_keeps hrooted (Or.inl rfl) rfl
  have hkept := hkeeps.kept
  unfold Unrolling.run
  rw [start_eq_exec]
  unfold Agrees at hagrees
  unfold ScopeId.root at hagrees ⊢
  rcases hexec : (Unrolling.walk a.target a.tree.size 0).exec ⟨a.tree, #[], #[]⟩ with ⟨result, w⟩
  rw [hexec] at hagrees hkept
  rcases hblock : Block.exec a.target block ⟨[[]], []⟩ with d' | r
  · rw [hblock] at hagrees
    rcases result with (d | f) | _
    · exact Or.inr ⟨d, w, rfl, congrArg _ hagrees.symm, hkept⟩
    · exact hagrees.elim
    · exact hagrees.elim
  · rw [hblock] at hagrees
    rcases result with (d | f) | _
    · exact hagrees.elim
    · exact hagrees.elim
    · exact Or.inl ⟨w, r, rfl, rfl, hagrees, hkept⟩

end Assembler

/-- What holds of a session between calls: its tree is rooted; and if it can
    still be assembled, its tree is the layout of a block. -/
structure Healthy (a : Assembler) : Prop where
  rooted : Rooted a.tree
  laid : a.failure = none → a.assembled = false → ∃ block, Laid a.target a.tree block

namespace Healthy

variable {a : Assembler}

theorem new (target : Target) : Healthy (.new target) :=
  ⟨.empty, fun _ _ => ⟨[], .empty⟩⟩

theorem parse (h : Healthy a) (lines : List (Nat × String)) :
    Healthy (a.parse lines).after ∧ ∀ f, (a.parse lines).answer ≠ .error (.fault f) := by
  rcases Assembler.parse_cases lines h.rooted with
    ⟨n, t, s, hanswer, hafter, hgrows, hheader, hrooted⟩ | ⟨d, t, hanswer, hafter, hrooted⟩
  · rw [hanswer, hafter]
    refine ⟨⟨hrooted, fun hfailure hassembled => ?_⟩, fun f hf => by cases hf⟩
    rcases h.laid hfailure hassembled with ⟨block, hlaid⟩
    rcases hlaid.growsAll hgrows hheader with ⟨block', -, hlaid'⟩
    exact ⟨block', hlaid'⟩
  · -- The session has seen an error now, whichever came first.
    rw [hanswer, hafter]
    refine ⟨⟨hrooted, fun hfailure _ => ?_⟩, fun f hf => by cases hf⟩
    cases hfirst : a.failure with
    | none =>
        rw [hfirst] at hfailure
        cases hfailure
    | some d' =>
        rw [hfirst] at hfailure
        cases hfailure

theorem assemble (h : Healthy a) :
    Healthy a.assemble.after ∧ ∀ f, a.assemble.answer ≠ .error (.fault f) := by
  unfold Assembler.assemble
  cases hfailure : a.failure with
  | some d => exact ⟨h, fun f hf => by cases hf⟩
  | none =>
      dsimp only
      cases hassembled : a.assembled with
      | true => exact ⟨h, fun f hf => by cases hf⟩
      | false =>
          rw [if_neg Bool.false_ne_true]
          rcases h.laid hfailure hassembled with ⟨block, hlaid⟩
          unfold Assembler.unroll
          rcases Assembler.unroll_cases h.rooted hlaid with
            ⟨w, r, hrun, -, -, hkept⟩ | ⟨d, w, hrun, -, hkept⟩
          · rw [hrun]
            refine ⟨⟨(h.rooted.of_skeleton hkept.skeleton).clear, fun _ hdone => ?_⟩,
              fun f hf => by cases hf⟩
            cases hdone
          · rw [hrun]
            refine ⟨⟨h.rooted.of_skeleton hkept.skeleton, fun hnone _ => ?_⟩,
              fun f hf => by cases hf⟩
            simp only [Assembler.remember, hfailure] at hnone
            cases hnone

/-- A call keeps a session healthy, and its answer is not a fault. -/
theorem reply (h : Healthy a) (c : Call) :
    Healthy (c.reply a).after ∧ ∀ f, (c.reply a).answer ≠ .error (.fault f) := by
  cases c with
  | parse lines => exact h.parse lines
  | parseSource text => exact h.parse (Text.numbered text)
  | assemble => exact h.assemble

end Healthy

theorem Healthy.foldl {a : Assembler} (h : Healthy a) (calls : List Call) :
    Healthy (calls.foldl (fun a c => (c.reply a).after) a) := by
  induction calls generalizing a with
  | nil => exact h
  | cons c rest ih => exact ih (h.reply c).1

/-- Sessions are healthy after any calls. -/
theorem healthy_history (target : Target) (calls : List Call) :
    Healthy (history target calls) :=
  (Healthy.new target).foldl calls

end UnrollAsm
