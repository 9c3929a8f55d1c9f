import UnrollAsm.Proofs.Block.Approval
import UnrollAsm.Proofs.Unrolling.Simulation

/-!
# Replacing Part of a Program

A block may take the place of another if it is approved where the other is, with
the same declarations at its end, and if the two have the same effect in every
run that can get there. Which runs these are is known beforehand, by their shape:
whatever loops are around, and however often they have come round, the
environment has the shape of the frames that were approved.

Replacing carries over from a part to the whole. It may be that a loop around the
part is still open when the part ends. So the comparison is made between outlines
and goes on line by line, the part being somewhere in the block that is being
written, or in one of the blocks that are waiting for their loops to be closed.

## Main definitions

* `Block.Replaces`: A block may take the place of another.
* `Outline.Twins`: Two outlines differ in such a part only.
* `Outline.within`: An outline that goes on where another one stands.

## Theorems

* `Block.Replaces.append_left`, `Block.Replaces.append_right`,
  `Block.Replaces.loop`: A part of a block, or of a loop.
* `Outline.Twins.addLines`: More lines after the part.
* `Outline.Twins.closed`: The whole program.
* `Outline.addLines_ofLines`: Balanced lines in any place mean the same block.
-/

namespace UnrollAsm

/-- The block `b'` may take the place of `b` behind the frame `f`: it is approved
    with the same result, and has the same effect in all runs of that shape. -/
def Block.Replaces (target : Target) (outer : Env) (f : Frame) (b b' : Block) : Prop :=
  ∀ f', Block.approve target b outer f = some f' →
    Block.approve target b' outer f = some f' ∧
      ∀ r : Run, r.env.shape = Env.shape (f :: outer) →
        Block.exec target b r = Block.exec target b' r

/-- Trips in a row come to the same if single trips do, in runs of one shape. -/
theorem Run.trips_congr {line : LoopLine} {body body' : Run → Except Diagnostic Run}
    {shape : List (List (SymbolKind × String))}
    (hsame : ∀ r, r.env.shape = shape → trip body r = trip body' r)
    (hkeep : ∀ r r', r.env.shape = shape → trip body r = .ok r' → r'.env.shape = shape)
    (index : Int) (step : Int32) {r : Run} (hshape : r.env.shape = shape) :
    trips line body index step r = trips line body' index step r := by
  induction hroom : roomFor index step using Nat.strongRecOn generalizing index step r with
  | ind room ih =>
      rw [trips, trips, ← hsame r hshape]
      cases htrip : trip body r with
      | error d => rfl
      | ok r₁ =>
          have hshape₁ := hkeep r r₁ hshape htrip
          change (r₁.bounds line >>= _) = (r₁.bounds line >>= _)
          refine bind_congr fun b => ?_
          by_cases hzero : b.step = 0
          · rw [if_pos hzero, if_pos hzero]
          · by_cases hsign : decide (b.step < 0) = decide (step < 0)
            · rw [if_neg hzero, if_neg hzero, if_neg (not_not_intro hsign),
                if_neg (not_not_intro hsign)]
              by_cases hahead : b.isAhead (index + b.step.toInt) = true
              · -- The loop goes on, with less room for the index.
                have hless := roomFor_lt hzero hsign hahead
                rw [if_pos hahead, if_pos hahead]
                exact ih _ (hroom ▸ hless) _ _ hshape₁ rfl
              · rw [if_neg hahead, if_neg hahead]
            · rw [if_neg hzero, if_neg hzero, if_pos hsign, if_pos hsign]

namespace Block.Replaces

variable {target : Target} {outer : Env} {f : Frame} {b b' : Block}

theorem append_right (h : Replaces target outer f b b') (rest : Block) :
    Replaces target outer f (b ++ rest) (b' ++ rest) := by
  intro f' happrove
  rw [Block.approve_append] at happrove
  rcases Option.bind_eq_some_iff.1 happrove with ⟨f₁, hb, hrest⟩
  rcases h f₁ hb with ⟨hb', hexec⟩
  refine ⟨?_, fun r hr => ?_⟩
  · rw [Block.approve_append, hb', Option.bind_some, hrest]
  · rw [Block.exec_append, Block.exec_append, hexec r hr]

theorem append_left (front : Block)
    (h : ∀ f₁, Block.approve target front outer f = some f₁ → Replaces target outer f₁ b b') :
    Replaces target outer f (front ++ b) (front ++ b') := by
  intro f' happrove
  rw [Block.approve_append] at happrove
  rcases Option.bind_eq_some_iff.1 happrove with ⟨f₁, hfront, hb⟩
  rcases h f₁ hfront f' hb with ⟨hb', hexec⟩
  refine ⟨?_, fun r hr => ?_⟩
  · rw [Block.approve_append, hfront, Option.bind_some, hb']
  · rw [Block.exec_append, Block.exec_append]
    cases hrun : Block.exec target front r with
    | error d => rfl
    | ok r₁ => exact hexec r₁ (Block.shape_exec front hr hfront hrun)

-- The body of a loop begins with a frame of its own.
theorem loop (line : LoopLine)
    (h : Env.opens (f :: outer) line → Replaces target (f :: outer) [] b b') :
    Replaces target outer f [.loop line b] [.loop line b'] := by
  intro f' happrove
  rw [Block.approve_singleton, Clause.approve] at happrove
  by_cases hopens : Env.opens (f :: outer) line = true
  · rw [if_pos hopens, Option.map_eq_some_iff] at happrove
    rcases happrove with ⟨g, hg, rfl⟩
    rcases h hopens g hg with ⟨hg', hexec⟩
    refine ⟨?_, fun r hr => ?_⟩
    · rw [Block.approve_singleton, Clause.approve, if_pos hopens, hg']
      rfl
    · rw [Block.exec_singleton, Block.exec_singleton, Clause.exec, Clause.exec]
      refine bind_congr fun bounds => bind_congr fun _ => ?_
      refine Run.trips_congr (fun r₁ hr₁ => ?_) (fun r₁ r₂ hr₁ htrip => ?_) _ _ hr
      · have hinner : Env.shape ([] :: r₁.env) = Env.shape ([] :: f :: outer) := by
          unfold Env.shape at hr₁ ⊢
          rw [List.map_cons, hr₁]
          rfl
        unfold Run.trip
        rw [hexec _ hinner]
      · exact Run.shape_trip (fun _ _ h hbody => ⟨g, Block.shape_exec b h hg hbody⟩) hr₁ htrip
  · rw [if_neg hopens] at happrove
    cases happrove

end Block.Replaces

namespace Outline

/-- Two outlines differ in a part only that may be replaced: it is in the block
    being written, or in a block with an open loop. -/
inductive Twins (target : Target) : Outline → Outline → Prop
  | block {b b' : Block} {around : List (LoopLine × Block)} :
      (∀ outer, entry target around = some outer → Block.Replaces target outer [] b b') →
      Twins target ⟨b, around⟩ ⟨b', around⟩
  | around {b b' : Block} {around around' : List (LoopLine × Block)} (line : LoopLine)
      (inner : Block) :
      Twins target ⟨b, around⟩ ⟨b', around'⟩ →
      Twins target ⟨inner, (line, b) :: around⟩ ⟨inner, (line, b') :: around'⟩

namespace Twins

variable {target : Target} {o o' : Outline}

theorem push (h : Twins target o o') (c : Clause) : Twins target (o.push c) (o'.push c) := by
  cases h with
  | block hreplaces => exact .block fun outer houter => (hreplaces outer houter).append_right [c]
  | around line inner h => exact .around line _ h

/-- One more statement after the part. -/
theorem add (h : Twins target o o') {source : SourceLine} {st : Statement} {o₁ : Outline}
    (hadd : o.add source st = .ok o₁) :
    ∃ o₁', o'.add source st = .ok o₁' ∧ Twins target o₁ o₁' := by
  cases st with
  | empty =>
      cases hadd
      exact ⟨o', rfl, h⟩
  | const name value =>
      cases hadd
      exact ⟨_, rfl, h.push _⟩
  | var name value =>
      cases hadd
      exact ⟨_, rfl, h.push _⟩
  | command mnemonic operands =>
      cases hadd
      exact ⟨_, rfl, h.push _⟩
  | loop start stop step =>
      cases hadd
      exact ⟨_, rfl, .around _ _ h⟩
  | pool =>
      cases h with
      | @block b b' around hreplaces =>
          rcases around with _ | ⟨⟨line, block⟩, around⟩
          · cases hadd
          · cases hadd
            -- The part is the end of a body, and the loop of that body is complete now.
            refine ⟨_, rfl, .block fun outer houter => .append_left block fun f hf => ?_⟩
            refine .loop line fun hopens => hreplaces (f :: outer) ?_
            simp only [entry, houter, hf, Option.bind_eq_bind, Option.bind_some, if_pos hopens]
      | around line inner h =>
          cases hadd
          exact ⟨_, rfl, h.push (.loop line inner)⟩

/-- More lines after the part. -/
theorem addLines (h : Twins target o o') {lines : List (Nat × String)} {o₁ : Outline}
    (hadd : o.addLines lines = .ok o₁) :
    ∃ o₁', o'.addLines lines = .ok o₁' ∧ Twins target o₁ o₁' := by
  induction lines generalizing o o' with
  | nil =>
      cases hadd
      exact ⟨o', rfl, h⟩
  | cons line rest ih =>
      rcases addLines_cons.1 hadd with ⟨o₂, hline, hrest⟩
      unfold addLine at hline
      rcases exists_of_bind_eq_ok hline with ⟨st, hparse, hst⟩
      rcases h.add hst with ⟨o₂', hst', h₂⟩
      rcases ih h₂ hrest with ⟨o₁', hrest', h₁⟩
      refine ⟨o₁', addLines_cons.2 ⟨o₂', ?_, hrest'⟩, h₁⟩
      unfold addLine
      rw [hparse]
      exact hst'

/-- In a whole program the part is in its block. -/
theorem closed {b : Block} (h : Twins target ⟨b, []⟩ o') :
    ∃ b', o' = ⟨b', []⟩ ∧ Block.Replaces target [] [] b b' := by
  cases h with
  | @block _ b' _ hreplaces => exact ⟨b', rfl, hreplaces [] rfl⟩

end Twins

/-! ## Lines of a part -/

theorem addLines_append {o o' : Outline} {lines more : List (Nat × String)} :
    o.addLines (lines ++ more) = .ok o' ↔
      ∃ o₁, o.addLines lines = .ok o₁ ∧ o₁.addLines more = .ok o' := by
  induction lines generalizing o with
  | nil => exact ⟨fun h => ⟨o, rfl, h⟩, fun ⟨_, h, h'⟩ => (by cases h; exact h')⟩
  | cons line rest ih =>
      rw [List.cons_append, addLines_cons]
      simp only [addLines_cons, ih]
      constructor
      · rintro ⟨o₁, hline, o₂, hrest, hmore⟩
        exact ⟨o₂, ⟨o₁, hline, hrest⟩, hmore⟩
      · rintro ⟨o₂, ⟨o₁, hline, hrest⟩, hmore⟩
        exact ⟨o₁, hline, o₂, hrest, hmore⟩

/-- An outline that goes on where another one stands: `front` is in front of its
    outermost block, and the loops of `around` are open around it. -/
def within (front : Block) (around : List (LoopLine × Block)) :
    Block → List (LoopLine × Block) → Outline
  | block, [] => ⟨front ++ block, around⟩
  | block, (line, outer) :: rest =>
    ⟨block, (line, (within front around outer rest).block) ::
      (within front around outer rest).around⟩

section Within

variable (front : Block) (around : List (LoopLine × Block))

theorem within_push (block : Block) (rest : List (LoopLine × Block)) (c : Clause) :
    (within front around block rest).push c = within front around (block ++ [c]) rest := by
  cases rest with
  | nil => simp only [within, push, List.append_assoc]
  | cons _ _ => rfl

theorem add_within {o o' : Outline} {source : SourceLine} {st : Statement}
    (h : o.add source st = .ok o') :
    (within front around o.block o.around).add source st =
      .ok (within front around o'.block o'.around) := by
  rcases o with ⟨block, rest⟩
  cases st with
  | empty =>
      cases h
      rfl
  | const name value =>
      cases h
      exact congrArg Except.ok (within_push front around block rest _)
  | var name value =>
      cases h
      exact congrArg Except.ok (within_push front around block rest _)
  | command mnemonic operands =>
      cases h
      exact congrArg Except.ok (within_push front around block rest _)
  | loop start stop step =>
      cases h
      rfl
  | pool =>
      rcases rest with _ | ⟨⟨line, outer⟩, rest⟩
      · cases h
      · cases h
        exact congrArg Except.ok (within_push front around outer rest _)

theorem addLines_within {o o' : Outline} {lines : List (Nat × String)}
    (h : o.addLines lines = .ok o') :
    (within front around o.block o.around).addLines lines =
      .ok (within front around o'.block o'.around) := by
  induction lines generalizing o with
  | nil =>
      cases h
      rfl
  | cons line rest ih =>
      rcases addLines_cons.1 h with ⟨o₁, hline, hrest⟩
      unfold addLine at hline
      rcases exists_of_bind_eq_ok hline with ⟨st, hparse, hst⟩
      refine addLines_cons.2 ⟨_, ?_, ih hrest⟩
      unfold addLine
      rw [hparse]
      exact add_within front around hst

end Within

/-- Balanced lines extend the block being written by their own block. -/
theorem addLines_ofLines {lines : List (Nat × String)} {block : Block}
    (h : Block.ofLines lines = .ok block) (o : Outline) :
    o.addLines lines = .ok { o with block := o.block ++ block } := by
  have hwithin := addLines_within o.block o.around (Block.ofLines_eq_ok.1 h)
  simpa only [within, empty, List.append_nil] using hwithin

/-- Copies of balanced lines extend it by copies of their block. -/
theorem addLines_copies {lines : List (Nat × String)} {block : Block}
    (h : Block.ofLines lines = .ok block) (n : Nat) (o : Outline) :
    o.addLines (List.replicate n lines).flatten =
      .ok { o with block := o.block ++ (List.replicate n block).flatten } := by
  induction n generalizing o with
  | zero =>
      rw [List.replicate_zero, List.replicate_zero, List.flatten_nil, List.flatten_nil,
        List.append_nil]
      rfl
  | succ n ih =>
      rw [List.replicate_succ, List.replicate_succ, List.flatten_cons, List.flatten_cons,
        addLines_append]
      refine ⟨_, addLines_ofLines h o, ?_⟩
      rw [ih, List.append_assoc]

end Outline

end UnrollAsm
