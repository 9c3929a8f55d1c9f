import UnrollAsm.Proofs.Block.Repetition
import UnrollAsm.Proofs.Reading.Approval
import UnrollAsm.Proofs.Refinement

/-!
# A Constant Loop Is Its Body Written Out

A loop between literals may be replaced in the text: its body is written down as
often as the loop runs, with the line numbers that it has, and the two lines
around it go. The program is still accepted, and it is assembled to the same
words or to the same error. What comes before the loop may leave other loops
open, which are closed by what comes after it.

The body has to be balanced. At its own level it must declare nothing, for a
declaration of the body would belong to the block around the loop once the loop
is gone: there must be no constant, and variable lines have to name variables
that are visible at the loop already. Loops inside the body may declare what they
like.

The two programs have different trees. Literals of the body are supplied in
another scope, and the scopes inside the body are there once for every copy. Both
trees are left behind by going over to the blocks that are laid out in them.

## Main definitions

* `VisibleVar`: A variable is visible where lines end.
* `Repeatable`: A body that declares nothing at its own level.

## Theorems

* `parse_ok_iff`: Lines are accepted exactly if their block is approved.
* `assemble_parse`: Assembling accepted lines is executing their block.
* `assemble_written_out`: A loop between literals and its body written out.
-/

namespace UnrollAsm

open PassM

/-- The name denotes a variable where the lines end. -/
def VisibleVar (target : Target) (lines : List (Nat × String)) (name : String) : Prop :=
  let w := ((Reading.readLines target lines).start .empty .root).2
  ∃ a c, w.tree.find w.own name = .ok (some a) ∧ w.tree.item? a = some (.symbol c) ∧ c.isVar

/-- The body declares nothing at its own level, provided that it comes after the
    given lines. -/
structure Repeatable (target : Target) (before : List (Nat × String)) (body : Block) : Prop where
  consts : ∀ name value, .const name value ∉ body
  vars : ∀ source name value, .var source name value ∈ body → VisibleVar target before name

/-- A fresh session accepts lines exactly if their block is approved. -/
theorem parse_ok_iff (target : Target) (lines : List (Nat × String)) :
    (∃ n, ((Assembler.new target).parse lines).answer = .ok n) ↔
      ∃ block f, Block.ofLines lines = .ok block ∧ Block.approve target block [] [] = some f := by
  have hmeets := Reading.readProgram_follows target lines
  unfold Meets at hmeets
  unfold Assembler.parse Reading.run Assembler.new
  rw [start_eq_exec]
  unfold ScopeId.root
  rcases hexec : (Reading.readProgram target lines).exec ⟨.empty, #[], 0⟩ with ⟨result, w⟩
  rw [hexec] at hmeets
  rcases result with (d | f) | n
  · refine ⟨fun ⟨n, hn⟩ => (by cases hn), fun ⟨block, f, hblock, happrove⟩ => ?_⟩
    rw [hmeets block hblock] at happrove
    cases happrove
  · exact hmeets.elim
  · exact ⟨fun _ => hmeets, fun _ => ⟨n, rfl⟩⟩

/-- Assembling accepted lines is executing their block. -/
theorem assemble_parse {target : Target} {lines : List (Nat × String)} {n : Nat}
    (h : ((Assembler.new target).parse lines).answer = .ok n) {block : Block}
    (hblock : Block.ofLines lines = .ok block) :
    ((Assembler.new target).parse lines).after.assemble.answer =
      orRefuse ((Block.exec target block ⟨[[]], []⟩).map Run.words) := by
  rcases Assembler.parse_cases lines (Healthy.new target).rooted with
    ⟨_, t, s, -, hafter, hgrows, hheader, hrooted⟩ | ⟨d, t, hanswer, -, -⟩
  · rcases Laid.empty.growsAll hgrows hheader with ⟨block', hlines, hlaid⟩
    rw [Block.ofLines_eq_ok, Outline.empty, hlines] at hblock
    cases hblock
    rw [hafter]
    exact (Assembler.assemble_laid hrooted hlaid rfl rfl).1
  · rw [hanswer] at h
    cases h

-- What is visible to the reader is a variable of the approved frames.
theorem isVar_of_visibleVar {target : Target} {lines : List (Nat × String)} {o : Outline} {e : Env}
    (hadd : Outline.empty.addLines lines = .ok o) (happrove : o.approve target = some e)
    {name : String} (h : VisibleVar target lines name) : (e.find? name).any Symbol.isVar := by
  have hstart : Sees target .empty .empty 0 [] := ⟨Laid.empty, .empty, rfl⟩
  have hmeets : Reading.Follows target ⟨.empty, #[], 0⟩ (Reading.readLines target lines) _ :=
    Reading.readLines_follows hstart lines 0
  unfold Reading.Follows Meets at hmeets
  unfold VisibleVar at h
  rw [start_eq_exec] at h
  unfold ScopeId.root at h
  rcases hexec : (Reading.readLines target lines).exec ⟨.empty, #[], 0⟩ with ⟨result, w⟩
  rw [hexec] at hmeets h
  rcases result with (d | f) | n
  · rw [hmeets o hadd] at happrove
    cases happrove
  · exact hmeets.elim
  · rcases hmeets with ⟨o', up, hadd', hsees⟩
    rcases h with ⟨a, c, hfind, hitem, hvar⟩
    rw [hadd] at hadd'
    cases hadd'
    rw [hsees.approves] at happrove
    cases happrove
    -- A variable is not a literal, so its name is an identifier.
    have hname : Statement.isIdentifier name := by
      rcases hsees.reads.symbol_of_find hfind with ⟨c', hc', hname, hident | ⟨v, rfl⟩⟩
      · exact hname ▸ hident
      · have hsame := hsees.reads.within.item? hc'
        rw [hitem] at hsame
        cases hsame
        cases hvar
    rw [hsees.find? hname hfind, Option.bind_some, hitem]
    exact hvar

/-- Replacing the lines of a loop between literals by copies of its body gives
    outlines that differ in this part only. -/
theorem Repeatable.twins {target : Target} {before : List (Nat × String)} {body : Block}
    (h : Repeatable target before body) {o : Outline}
    (hbefore : Outline.empty.addLines before = .ok o) (line : LoopLine) {b : Bounds} {n : Nat}
    (hline : line.start = .literal b.start ∧ line.stop = .literal b.stop ∧
      line.step = .literal b.step)
    (htrips : b.tripCount? = some n) :
    Outline.Twins target ⟨o.block ++ [.loop line body], o.around⟩
      ⟨o.block ++ (List.replicate n body).flatten, o.around⟩ := by
  refine .block fun outer houter => .append_left o.block fun f hf => ?_
  have happrove : o.approve target = some (f :: outer) :=
    Outline.approve_eq_some.2 ⟨outer, f, houter, hf, rfl⟩
  refine Block.replaces_copies hline htrips fun c hc => ?_
  cases c with
  | const name value => exact (h.consts name value hc).elim
  | var source name value =>
      exact isVar_of_visibleVar hbefore happrove (h.vars source name value hc)
  | command source mnemonic operands => trivial
  | loop line body => trivial

/-- For every target and all lines before and after a loop between literals: if
    the body is balanced and declares nothing at its own level, and the program
    is accepted, then the program with the body written out as often as the loop
    runs is accepted, and assembling the two gives the same words or the same
    error. -/
theorem assemble_written_out (target : Target) (before lines after : List (Nat × String))
    (loopLine poolLine : Nat × String) (b : Bounds) (body : Block) (n count : Nat)
    (hloop : Statement.parse loopLine.1 loopLine.2 =
      .ok (.loop (.literal b.start) (.literal b.stop) (.literal b.step)))
    (hpool : Statement.parse poolLine.1 poolLine.2 = .ok .pool)
    (hbody : Block.ofLines lines = .ok body) (hrepeat : Repeatable target before body)
    (htrips : b.tripCount? = some n)
    (hparse : ((Assembler.new target).parse
      (before ++ loopLine :: (lines ++ poolLine :: after))).answer = .ok count) :
    (∃ count', ((Assembler.new target).parse
        (before ++ ((List.replicate n lines).flatten ++ after))).answer = .ok count') ∧
      ((Assembler.new target).parse
          (before ++ ((List.replicate n lines).flatten ++ after))).after.assemble.answer =
        ((Assembler.new target).parse
          (before ++ loopLine :: (lines ++ poolLine :: after))).after.assemble.answer := by
  rcases (parse_ok_iff target _).1 ⟨count, hparse⟩ with ⟨block, f, hblock, happrove⟩
  -- The outline in front of the loop, and the one behind it.
  rcases Outline.addLines_append.1 (Block.ofLines_eq_ok.1 hblock) with ⟨o, hbefore, hrest⟩
  rcases Outline.addLines_cons.1 hrest with ⟨o₁, hopen, hrest⟩
  rcases Outline.addLines_append.1 hrest with ⟨o₂, hlines, hrest⟩
  rcases Outline.addLines_cons.1 hrest with ⟨o₃, hclose, hafter⟩
  unfold Outline.addLine at hopen hclose
  rw [hloop] at hopen
  cases hopen
  rw [Outline.addLines_ofLines hbody] at hlines
  cases hlines
  rw [hpool] at hclose
  cases hclose
  have htwins := hrepeat.twins hbefore
    ⟨.of loopLine.1 loopLine.2, .literal b.start, .literal b.stop, .literal b.step⟩
    ⟨rfl, rfl, rfl⟩ htrips
  rcases htwins.addLines hafter with ⟨o', hafter', htwins'⟩
  rcases htwins'.closed with ⟨block', rfl, hreplaces⟩
  rcases hreplaces f happrove with ⟨happrove', hexec⟩
  have hblock' : Block.ofLines (before ++ ((List.replicate n lines).flatten ++ after)) =
      .ok block' := by
    refine Block.ofLines_eq_ok.2 (Outline.addLines_append.2 ⟨o, hbefore, ?_⟩)
    exact Outline.addLines_append.2 ⟨_, Outline.addLines_copies hbody n o, hafter'⟩
  rcases (parse_ok_iff target _).2 ⟨block', f, hblock', happrove'⟩ with ⟨count', hparse'⟩
  refine ⟨⟨count', hparse'⟩, ?_⟩
  rw [assemble_parse hparse' hblock', assemble_parse hparse hblock, hexec _ rfl]

/-- Lines that leave a loop open, in which a loop of three trips is to stand. -/
def sampleBefore : List (Nat × String) :=
  [(1, "VAR x 0"), (2, "LOOP 0 2 1")]

/-- A body that resets a variable from outside, and declares a constant further
    inside only. -/
def sampleBody : List (Nat × String) :=
  [(4, "VAR x 1"), (5, "LOOP 0 2 1"), (6, "CONST y 2"), (7, "ADD x y"), (8, "POOL"),
    (9, "SETDIC x")]

/-- The block of that body. -/
def sampleClauses : Block :=
  [.var (.of 4 "VAR x 1") "x" (.literal 1),
    .loop ⟨.of 5 "LOOP 0 2 1", .literal 0, .literal 2, .literal 1⟩
      [.const "y" 2, .command (.of 7 "ADD x y") "ADD" [.name "x", .name "y"]],
    .command (.of 9 "SETDIC x") "SETDIC" [.name "x"]]

/-- Lines that close the open loop. -/
def sampleAfter : List (Nat × String) :=
  [(11, "POOL"), (12, "SETDIC x")]

-- Three trips in each of two trips around them, and one word at the end.
theorem assemble_written_out_sample :
    ((Assembler.new sampleTarget).parse (sampleBefore ++
        ((List.replicate 3 sampleBody).flatten ++ sampleAfter))).after.assemble.answer =
      ((Assembler.new sampleTarget).parse (sampleBefore ++ (3, "LOOP 6 1 -2") ::
        (sampleBody ++ (10, "POOL") :: sampleAfter))).after.assemble.answer ∧
    (((Assembler.new sampleTarget).parse (sampleBefore ++ (3, "LOOP 6 1 -2") ::
        (sampleBody ++ (10, "POOL") :: sampleAfter))).after.assemble.answer.map List.length) =
      .ok 7 := by
  have hparse : ((Assembler.new sampleTarget).parse (sampleBefore ++ (3, "LOOP 6 1 -2") ::
      (sampleBody ++ (10, "POOL") :: sampleAfter))).answer = .ok 12 := by decide +kernel
  have hbody : Block.ofLines sampleBody = .ok sampleClauses := by
    have hvar : Statement.parse 4 "VAR x 1" = .ok (.var "x" (.literal 1)) := by decide +kernel
    have hopen : Statement.parse 5 "LOOP 0 2 1" =
        .ok (.loop (.literal 0) (.literal 2) (.literal 1)) := by decide +kernel
    have hconst : Statement.parse 6 "CONST y 2" = .ok (.const "y" 2) := by decide +kernel
    have hadd : Statement.parse 7 "ADD x y" = .ok (.command "ADD" [.name "x", .name "y"]) := by
      decide +kernel
    have hclose : Statement.parse 8 "POOL" = .ok .pool := by decide +kernel
    have hset : Statement.parse 9 "SETDIC x" = .ok (.command "SETDIC" [.name "x"]) := by
      decide +kernel
    unfold Block.ofLines Outline.addLines sampleBody
    simp only [List.foldlM_cons, Outline.addLine, hvar, hopen, hconst, hadd, hclose, hset]
    rfl
  have hrepeat : Repeatable sampleTarget sampleBefore sampleClauses := by
    refine ⟨fun name value hmem => ?_, fun source name value hmem => ?_⟩
    · simp only [sampleClauses, List.mem_cons, List.not_mem_nil, reduceCtorEq, or_self] at hmem
    · simp only [sampleClauses, List.mem_cons, List.not_mem_nil, reduceCtorEq, or_false,
        Clause.var.injEq] at hmem
      rw [hmem.2.1]
      exact ⟨⟨0, 1⟩, ⟨.var, "x", 0⟩, by decide +kernel, by decide +kernel, rfl⟩
  have hsame := assemble_written_out sampleTarget sampleBefore sampleBody sampleAfter
    (3, "LOOP 6 1 -2") (10, "POOL") ⟨6, 1, -2⟩ _ 3 12 (by decide +kernel) (by decide +kernel)
    hbody hrepeat rfl hparse
  exact ⟨hsame.2, by decide +kernel⟩

end UnrollAsm
