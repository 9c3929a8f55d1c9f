import UnrollAsm.Proofs.ConstantLoop

/-!
# Later Lines Never Change Earlier Words

Lines that are added at the end of a program may declare the same names again,
open further loops and bring literals of their own. All of them are read before
anything is unrolled, into the tree that the earlier lines have grown. Still the
earlier lines come to what they come to on their own: an error stays the same
error, and words stay in front of whatever the later lines add.

The argument leaves the tree behind. If a program is accepted both without and
with the later lines, its blocks differ by clauses at their end, because no loop
is open where the later lines begin. An execution goes through these clauses last,
and no clause takes back a word.

## Theorems

* `Outline.exists_within_of_addLines`: Lines go on where a program ended.
* `Block.exists_append_of_ofLines`: The block of a longer program.
* `Block.words_exec`: An execution only ever appends words.
* `assemble_append`: Assembling a program with and without its later lines.
-/

namespace UnrollAsm

/-! ## Blocks of longer programs -/

namespace Outline

variable {front : Block}

-- A loop can be closed only if it has been opened behind the front.
theorem exists_within_of_add {block : Block} {rest : List (LoopLine × Block)}
    {source : SourceLine} {st : Statement} {o : Outline}
    (h : (within front [] block rest).add source st = .ok o) :
    ∃ block' rest', o = within front [] block' rest' := by
  cases st with
  | empty =>
      cases h
      exact ⟨block, rest, rfl⟩
  | const name value =>
      cases h
      exact ⟨_, rest, within_push front [] block rest _⟩
  | var name value =>
      cases h
      exact ⟨_, rest, within_push front [] block rest _⟩
  | command mnemonic operands =>
      cases h
      exact ⟨_, rest, within_push front [] block rest _⟩
  | loop start stop step =>
      cases h
      exact ⟨[], (⟨source, start, stop, step⟩, block) :: rest, rfl⟩
  | pool =>
      rcases rest with _ | ⟨⟨line, outer⟩, rest⟩
      · cases h
      · cases h
        exact ⟨_, rest, within_push front [] outer rest _⟩

/-- Lines go on where a program ended: whatever they add is behind it. -/
theorem exists_within_of_addLines {block : Block} {rest : List (LoopLine × Block)}
    {lines : List (Nat × String)} {o : Outline}
    (h : (within front [] block rest).addLines lines = .ok o) :
    ∃ block' rest', o = within front [] block' rest' := by
  induction lines generalizing block rest with
  | nil =>
      cases h
      exact ⟨block, rest, rfl⟩
  | cons line more ih =>
      rcases addLines_cons.1 h with ⟨o₁, hline, hmore⟩
      unfold addLine at hline
      rcases exists_of_bind_eq_ok hline with ⟨st, -, hst⟩
      rcases exists_within_of_add hst with ⟨block₁, rest₁, rfl⟩
      exact ih hmore

end Outline

/-- The block of a longer program begins with the block of the shorter one. -/
theorem Block.exists_append_of_ofLines {lines more : List (Nat × String)} {block longer : Block}
    (hblock : Block.ofLines lines = .ok block)
    (hlonger : Block.ofLines (lines ++ more) = .ok longer) :
    ∃ rest, longer = block ++ rest := by
  rcases Outline.addLines_append.1 (Block.ofLines_eq_ok.1 hlonger) with ⟨o, hlines, hmore⟩
  rw [Block.ofLines_eq_ok.1 hblock] at hlines
  cases hlines
  have hfront : (⟨block, []⟩ : Outline) = Outline.within block [] [] [] := by
    rw [Outline.within, List.append_nil]
  rw [hfront] at hmore
  rcases Outline.exists_within_of_addLines hmore with ⟨block', rest', hwithin⟩
  -- The longer program leaves no loop open either.
  cases rest' with
  | nil =>
      cases hwithin
      exact ⟨block', rfl⟩
  | cons _ _ => cases hwithin

/-! ## Words of executions -/

namespace Run

variable {r r' : Run}

theorem words_setVar {line : Nat} {name : String} {value : Operand}
    (h : r.setVar line name value = .ok r') : r'.words = r.words := by
  unfold setVar at h
  rcases exists_of_bind_eq_ok h with ⟨s, -, h⟩
  split at h
  · cases h
    rfl
  · cases h
    rfl

theorem words_fold {line : Nat} {op : Arithmetic} {first second : Operand}
    (h : r.fold line op first second = .ok r') : r'.words = r.words := by
  unfold fold at h
  rcases exists_of_bind_eq_ok h with ⟨s, -, h⟩
  split at h
  · cases h
  · rcases exists_of_bind_eq_ok h with ⟨s', -, h⟩
    split at h
    · cases h
    · cases h
      rfl

theorem words_command {target : Target} {source : SourceLine} {mnemonic : String}
    {operands : List Operand} (h : r.command target source mnemonic operands = .ok r') :
    r.words <+: r'.words := by
  unfold command at h
  split at h
  · cases h
  · split at h
    · exact (words_fold h).symm ▸ List.prefix_rfl
    · cases h
  · unfold emit at h
    rcases exists_of_bind_eq_ok h with ⟨symbols, -, h⟩
    rcases exists_of_bind_eq_ok h with ⟨word, -, h⟩
    cases h
    exact List.prefix_append _ _

theorem words_trip {body : Run → Except Diagnostic Run}
    (hbody : ∀ r r', body r = .ok r' → r.words <+: r'.words) (h : trip body r = .ok r') :
    r.words <+: r'.words := by
  unfold trip at h
  rcases exists_of_bind_eq_ok h with ⟨r₁, h₁, h⟩
  cases h
  exact hbody { r with env := [] :: r.env } r₁ h₁

end Run

mutual

/-- No clause takes back a word. -/
theorem Clause.words_exec {target : Target} : (c : Clause) → {r r' : Run} →
    c.exec target r = .ok r' → r.words <+: r'.words
  | .const name value, _, _, h => by
      rw [Clause.exec] at h
      cases h
      exact List.prefix_rfl
  | .var source name value, _, _, h => by
      rw [Clause.exec] at h
      exact (Run.words_setVar h).symm ▸ List.prefix_rfl
  | .command source mnemonic operands, _, _, h => by
      rw [Clause.exec] at h
      exact Run.words_command h
  | .loop line body, r, _, h => by
      rw [Clause.exec] at h
      rcases exists_of_bind_eq_ok h with ⟨b, -, h⟩
      rcases exists_of_bind_eq_ok h with ⟨_, -, h⟩
      refine Run.trips_keeps (P := fun r₁ => r.words <+: r₁.words) (fun r₁ r₂ h₁ htrip => ?_) _ _
        List.prefix_rfl h
      exact h₁.trans (Run.words_trip (fun _ _ => Block.words_exec body) htrip)

/-- An execution only ever appends words. -/
theorem Block.words_exec {target : Target} : (block : List Clause) → {r r' : Run} →
    Block.exec target block r = .ok r' → r.words <+: r'.words
  | [], _, _, h => by
      rw [Block.exec] at h
      cases h
      exact List.prefix_rfl
  | c :: rest, _, _, h => by
      rw [Block.exec] at h
      rcases exists_of_bind_eq_ok h with ⟨r₁, hc, hrest⟩
      exact (Clause.words_exec c hc).trans (Block.words_exec rest hrest)

end

/-! ## Sessions -/

/-- For every target and all lines that a fresh session accepts, with and without
    more lines behind them: if assembling them on their own fails, then assembling
    them with the other lines fails with the same error; and if it gives words,
    then the others add words behind these, or fail. -/
theorem assemble_append (target : Target) (lines more : List (Nat × String)) (n m : Nat)
    (hlines : ((Assembler.new target).parse lines).answer = .ok n)
    (hmore : ((Assembler.new target).parse (lines ++ more)).answer = .ok m) :
    (∀ e, ((Assembler.new target).parse lines).after.assemble.answer = .error e →
      ((Assembler.new target).parse (lines ++ more)).after.assemble.answer = .error e) ∧
    (∀ words, ((Assembler.new target).parse lines).after.assemble.answer = .ok words →
      (∃ e, ((Assembler.new target).parse (lines ++ more)).after.assemble.answer = .error e) ∨
      ∃ later, ((Assembler.new target).parse (lines ++ more)).after.assemble.answer = .ok later ∧
        words <+: later) := by
  rcases (parse_ok_iff target _).1 ⟨n, hlines⟩ with ⟨block, -, hblock, -⟩
  rcases (parse_ok_iff target _).1 ⟨m, hmore⟩ with ⟨longer, -, hlonger, -⟩
  rcases Block.exists_append_of_ofLines hblock hlonger with ⟨rest, rfl⟩
  rw [assemble_parse hlines hblock, assemble_parse hmore hlonger, Block.exec_append]
  cases hfront : Block.exec target block ⟨[[]], []⟩ with
  | error d => exact ⟨fun e he => he, fun words hwords => (by cases hwords)⟩
  | ok r =>
      refine ⟨fun e he => (by cases he), fun words hwords => ?_⟩
      cases hwords
      change (∃ e, orRefuse ((Block.exec target rest r).map Run.words) = .error e) ∨
        ∃ later, orRefuse ((Block.exec target rest r).map Run.words) = .ok later ∧ r.words <+: later
      cases hrest : Block.exec target rest r with
      | error d => exact Or.inl ⟨_, rfl⟩
      | ok r' => exact Or.inr ⟨r'.words, rfl, Block.words_exec rest hrest⟩

/-- A variable and a word with its value. -/
def earlierLines : List (Nat × String) :=
  [(1, "VAR x 1"), (2, "SETDIC x")]

/-- Lines that hide the variable in a loop and reset it after the loop. -/
def laterLines : List (Nat × String) :=
  [(3, "LOOP 0 2 1"), (4, "CONST x 3"), (5, "SETDIC x"), (6, "POOL"), (7, "VAR x 5"),
    (8, "SETDIC x")]

-- One word of the earlier lines, and three more of the later ones.
theorem assemble_append_laterLines :
    ∃ words later : List EmittedWord,
      ((Assembler.new sampleTarget).parse earlierLines).after.assemble.answer = .ok words ∧
      ((Assembler.new sampleTarget).parse (earlierLines ++ laterLines)).after.assemble.answer =
        .ok later ∧
      words.length = 1 ∧ later.length = 4 ∧ words <+: later := by
  have hlines : ((Assembler.new sampleTarget).parse earlierLines).answer = .ok 2 := by
    decide +kernel
  have hmore : ((Assembler.new sampleTarget).parse (earlierLines ++ laterLines)).answer =
      .ok 8 := by decide +kernel
  have hwords : (((Assembler.new sampleTarget).parse earlierLines).after.assemble.answer.map
      List.length) = .ok 1 := by decide +kernel
  have hlater : (((Assembler.new sampleTarget).parse
      (earlierLines ++ laterLines)).after.assemble.answer.map List.length) = .ok 4 := by
    decide +kernel
  have hcases := (assemble_append sampleTarget earlierLines laterLines 2 8 hlines hmore).2
  cases hone : ((Assembler.new sampleTarget).parse earlierLines).after.assemble.answer with
  | error e =>
      rw [hone] at hwords
      cases hwords
  | ok words =>
      rw [hone] at hwords
      rcases hcases words hone with ⟨e, he⟩ | ⟨later, hboth, hprefix⟩
      · rw [he] at hlater
        cases hlater
      · rw [hboth] at hlater
        exact ⟨words, later, rfl, hboth, Except.ok.inj hwords, Except.ok.inj hlater, hprefix⟩

end UnrollAsm
