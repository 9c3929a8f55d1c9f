import UnrollAsm.Proofs.Block.Interpreter
import UnrollAsm.Proofs.Outcome

/-!
# Approval of Blocks

What has to be right about a program before it is executed, told without a scope
tree. Names have to be declared above their use, constants must be new in their
block, mnemonics need operands in the right number, and the bounds of a loop have
to be valid already. For the last point variables have values: each keeps the one
it was declared with, for a line further down that sets it again has not been
executed.

Approval goes through a block with the frame that the block has declared so far,
and with the frames of the blocks around it, which it cannot change. So a loop
leaves the frames around it as they are, and a block is approved anywhere or
nowhere among frames that give names the same meaning.

An execution declares the same names in the same order, with other values. The
shape of an environment is what the two have in common.

## Main definitions

* `Env.symbol?`, `Env.opens`, `Env.takes`: What a line requires.
* `Clause.approve`, `Block.approve`: The frame after a clause or a block.
* `Outline.entry`, `Outline.approve`: The frames of a program up to some line.
* `Env.shape`: The declarations in force without their values.

## Theorems

* `Block.approve_congr`: Frames further out matter by what names denote there.
* `Outline.approve_of_addLines`: What is approved at the end was approved all along.
* `Block.shape_exec`: An execution keeps to the shape that was approved.
-/

namespace UnrollAsm

namespace Env

/-- The symbol that an operand denotes, if there is one. -/
def symbol? (env : Env) : Operand → Option Symbol
  | .literal v => some (.literal v)
  | .name name => env.find? name

/-- The values of the operands of a loop, if they denote anything. -/
def bounds? (env : Env) (line : LoopLine) : Option Bounds := do
  let start ← env.symbol? line.start
  let stop ← env.symbol? line.stop
  let step ← env.symbol? line.step
  return ⟨start.value, stop.value, step.value⟩

/-- The line may open a loop: its bounds are valid. -/
def opens (env : Env) (line : LoopLine) : Bool :=
  (env.bounds? line).any fun b => b.check.isOk

/-- The mnemonic is known, has an operation if it needs one, and takes operands
    that denote something. -/
def takes (env : Env) (target : Target) (mnemonic : String) (operands : List Operand) : Bool :=
  match target.resolve? mnemonic with
  | none => false
  | some (cls, _) =>
    operands.length = cls.arity && operands.all (fun op => (env.symbol? op).isSome) &&
      (cls ≠ .arithmetic || (Arithmetic.ofMnemonic? mnemonic).isSome)

end Env

/-- The frame has a symbol called `name`. -/
def Frame.declares (f : Frame) (name : String) : Bool :=
  f.any fun s => s.name = name

mutual

/-- The frame of a block after one more clause, given the frames around. -/
def Clause.approve (target : Target) : Clause → Env → Frame → Option Frame
  | .const name value, _, f =>
    if Frame.declares f name then none else some (f ++ [⟨.const, name, value⟩])
  | .var _ name value, outer, f => do
    let s ← Env.symbol? (f :: outer) value
    if (Env.find? (f :: outer) name).any Symbol.isVar then some f
    else if Frame.declares f name then none
    else some (f ++ [⟨.var, name, s.value⟩])
  | .command _ mnemonic operands, outer, f =>
    if Env.takes (f :: outer) target mnemonic operands then some f else none
  | .loop line body, outer, f =>
    if Env.opens (f :: outer) line then (Block.approve target body (f :: outer) []).map fun _ => f
    else none

/-- The frame of a block after more clauses, given the frames around. -/
def Block.approve (target : Target) : List Clause → Env → Frame → Option Frame
  | [], _, f => some f
  | c :: rest, outer, f => (c.approve target outer f).bind (Block.approve target rest outer)

end

namespace Outline

/-- The frames around the block being written, if everything up to it is
    approved. -/
def entry (target : Target) : List (LoopLine × Block) → Option Env
  | [] => some []
  | (line, block) :: around => do
    let outer ← entry target around
    let f ← Block.approve target block outer []
    if Env.opens (f :: outer) line then some (f :: outer) else none

/-- The frames at the end of an outline, if everything in it is approved. -/
def approve (target : Target) (o : Outline) : Option Env := do
  let outer ← entry target o.around
  let f ← Block.approve target o.block outer []
  return f :: outer

end Outline

/-! ## Blocks -/

theorem Block.approve_append (target : Target) (block rest : Block) (outer : Env) (f : Frame) :
    Block.approve target (block ++ rest) outer f =
      (Block.approve target block outer f).bind (Block.approve target rest outer) := by
  induction block generalizing f with
  | nil => rfl
  | cons c tail ih =>
      rw [List.cons_append, Block.approve, Block.approve]
      cases c.approve target outer f with
      | none => rfl
      | some f' => exact ih f'

theorem Block.approve_singleton (target : Target) (c : Clause) (outer : Env) (f : Frame) :
    Block.approve target [c] outer f = c.approve target outer f := by
  rw [Block.approve]
  cases c.approve target outer f with
  | none => rfl
  | some f' => rfl

section Congr

variable {outer outer' : Env} (h : ∀ name, outer.find? name = outer'.find? name)

include h

theorem Env.find?_cons_congr (f : Frame) (name : String) :
    Env.find? (f :: outer) name = Env.find? (f :: outer') name := by
  have hname := h name
  unfold Env.find? at hname ⊢
  rw [List.findSome?_cons, List.findSome?_cons, hname]

theorem Env.symbol?_congr (op : Operand) : outer.symbol? op = outer'.symbol? op := by
  cases op with
  | literal v => rfl
  | name name => exact h name

theorem Env.opens_congr (line : LoopLine) : outer.opens line = outer'.opens line := by
  unfold Env.opens Env.bounds?
  simp only [Env.symbol?_congr h]

theorem Env.takes_congr (target : Target) (mnemonic : String) (operands : List Operand) :
    outer.takes target mnemonic operands = outer'.takes target mnemonic operands := by
  unfold Env.takes
  simp only [Env.symbol?_congr h]

end Congr

mutual

/-- Frames further out matter by what names denote there. -/
theorem Clause.approve_congr (target : Target) : (c : Clause) → {outer outer' : Env} →
    (∀ name, outer.find? name = outer'.find? name) → (f : Frame) →
    c.approve target outer f = c.approve target outer' f
  | .const name value, _, _, _, f => by rw [Clause.approve, Clause.approve]
  | .var source name value, _, _, h, f => by
      have hcons := Env.find?_cons_congr h f
      rw [Clause.approve, Clause.approve, Env.symbol?_congr hcons, hcons name]
  | .command source mnemonic operands, _, _, h, f => by
      rw [Clause.approve, Clause.approve, Env.takes_congr (Env.find?_cons_congr h f)]
  | .loop line body, _, _, h, f => by
      have hcons := Env.find?_cons_congr h f
      rw [Clause.approve, Clause.approve, Env.opens_congr hcons,
        Block.approve_congr target body hcons []]

theorem Block.approve_congr (target : Target) : (block : List Clause) → {outer outer' : Env} →
    (∀ name, outer.find? name = outer'.find? name) → (f : Frame) →
    Block.approve target block outer f = Block.approve target block outer' f
  | [], _, _, _, f => by rw [Block.approve, Block.approve]
  | c :: rest, _, _, h, f => by
      rw [Block.approve, Block.approve, Clause.approve_congr target c h f]
      cases c.approve target _ f with
      | none => rfl
      | some f' => exact Block.approve_congr target rest h f'

end

/-! ## Outlines -/

namespace Outline

variable {target : Target} {o : Outline}

theorem approve_eq_some {e : Env} :
    o.approve target = some e ↔ ∃ outer f, entry target o.around = some outer ∧
      Block.approve target o.block outer [] = some f ∧ e = f :: outer := by
  unfold approve
  constructor
  · intro h
    rcases Option.bind_eq_some_iff.1 h with ⟨outer, houter, h⟩
    rcases Option.bind_eq_some_iff.1 h with ⟨f, hf, h⟩
    exact ⟨outer, f, houter, hf, (Option.some.inj h).symm⟩
  · rintro ⟨outer, f, houter, hf, rfl⟩
    rw [houter, Option.bind_eq_bind, Option.bind_some, hf]
    rfl

-- One more clause.
theorem approve_push {f : Frame} {outer : Env} (h : o.approve target = some (f :: outer))
    (c : Clause) :
    (o.push c).approve target = (c.approve target outer f).map fun f' => f' :: outer := by
  rcases approve_eq_some.1 h with ⟨outer', f', houter, hf, heq⟩
  cases heq
  unfold approve push
  simp only [houter, Option.bind_eq_bind, Option.bind_some, Block.approve_append, hf,
    Block.approve_singleton]
  cases c.approve target outer f with
  | none => rfl
  | some f' => rfl

-- A loop that has just been opened.
theorem approve_opened {e : Env} (h : o.approve target = some e) (line : LoopLine) :
    (Outline.mk [] ((line, o.block) :: o.around)).approve target =
      if e.opens line then some ([] :: e) else none := by
  rcases approve_eq_some.1 h with ⟨outer, f, houter, hf, rfl⟩
  unfold approve
  simp only [entry, houter, hf, Option.bind_eq_bind, Option.bind_some]
  by_cases hopens : Env.opens (f :: outer) line = true
  · rw [if_pos hopens, if_pos hopens]
    rfl
  · rw [if_neg hopens, if_neg hopens]
    rfl

-- A loop is approved at its end if and only if its body is.
theorem approve_closed {line : LoopLine} {block body : Block} {around : List (LoopLine × Block)}
    {e : Env} :
    (Outline.mk (block ++ [.loop line body]) around).approve target = some e ↔
      ∃ g, (Outline.mk body ((line, block) :: around)).approve target = some (g :: e) := by
  simp only [approve_eq_some, entry, Option.bind_eq_bind, Option.bind_eq_some_iff,
    Block.approve_append, Block.approve_singleton, Clause.approve]
  constructor
  · rintro ⟨outer, f, houter, ⟨f', hf', hloop⟩, rfl⟩
    by_cases hopens : Env.opens (f' :: outer) line = true
    · rw [if_pos hopens, Option.map_eq_some_iff] at hloop
      rcases hloop with ⟨g, hg, rfl⟩
      exact ⟨g, f' :: outer, g, ⟨outer, houter, f', hf', if_pos hopens⟩, hg, rfl⟩
    · rw [if_neg hopens] at hloop
      cases hloop
  · rintro ⟨g, inner, g', ⟨outer, houter, f, hf, hopen⟩, hg, heq⟩
    cases heq
    by_cases hopens : Env.opens (f :: outer) line = true
    · rw [if_pos hopens] at hopen
      cases hopen
      refine ⟨outer, f, houter, ⟨f, hf, ?_⟩, rfl⟩
      rw [if_pos hopens, hg]
      rfl
    · rw [if_neg hopens] at hopen
      cases hopen

/-- What is approved after a statement was approved before it. -/
theorem approve_of_add {o' : Outline} {source : SourceLine} {st : Statement}
    (h : o.add source st = .ok o') {e' : Env} (happrove : o'.approve target = some e') :
    ∃ e, o.approve target = some e := by
  have hpush : ∀ c, (o.push c).approve target = some e' → ∃ e, o.approve target = some e := by
    intro c hc
    rcases approve_eq_some.1 hc with ⟨outer, f, houter, hf, -⟩
    simp only [push, Block.approve_append] at hf
    rcases Option.bind_eq_some_iff.1 hf with ⟨f', hf', -⟩
    exact ⟨f' :: outer, approve_eq_some.2 ⟨outer, f', houter, hf', rfl⟩⟩
  cases st with
  | empty =>
      cases h
      exact ⟨e', happrove⟩
  | const name value =>
      cases h
      exact hpush _ happrove
  | var name value =>
      cases h
      exact hpush _ happrove
  | command mnemonic operands =>
      cases h
      exact hpush _ happrove
  | loop start stop step =>
      cases h
      rcases approve_eq_some.1 happrove with ⟨outer, -, houter, -⟩
      simp only [entry, Option.bind_eq_bind, Option.bind_eq_some_iff] at houter
      rcases houter with ⟨outer', houter', f, hf, -⟩
      exact ⟨f :: outer', approve_eq_some.2 ⟨outer', f, houter', hf, rfl⟩⟩
  | pool =>
      rcases o with ⟨body, _ | ⟨⟨line, block⟩, around⟩⟩
      · cases h
      · cases h
        rcases approve_closed.1 happrove with ⟨g, hg⟩
        exact ⟨_, hg⟩

theorem addLines_cons {line : Nat × String} {rest : List (Nat × String)} {o' : Outline} :
    o.addLines (line :: rest) = .ok o' ↔
      ∃ o₁, o.addLine line = .ok o₁ ∧ o₁.addLines rest = .ok o' := by
  unfold addLines
  rw [List.foldlM_cons]
  cases o.addLine line with
  | error d => exact ⟨fun h => (by cases h), fun ⟨_, h, _⟩ => (by cases h)⟩
  | ok o₁ => exact ⟨fun h => ⟨o₁, rfl, h⟩, fun ⟨_, h, h'⟩ => (by cases h; exact h')⟩

/-- What is approved at the end of lines was approved before them. -/
theorem approve_of_addLines {o' : Outline} {lines : List (Nat × String)}
    (h : o.addLines lines = .ok o') {e' : Env} (happrove : o'.approve target = some e') :
    ∃ e, o.approve target = some e := by
  induction lines generalizing o with
  | nil =>
      cases h
      exact ⟨e', happrove⟩
  | cons line rest ih =>
      rcases addLines_cons.1 h with ⟨o₁, hline, hrest⟩
      rcases ih hrest with ⟨e₁, he₁⟩
      unfold addLine at hline
      rcases exists_of_bind_eq_ok hline with ⟨st, -, hadd⟩
      exact approve_of_add hadd he₁

-- Without open loops there is just the block.
theorem approve_root (target : Target) (block : Block) :
    (Outline.mk block []).approve target = (Block.approve target block [] []).map fun f => [f] := by
  unfold approve
  simp only [entry, Option.bind_eq_bind, Option.bind_some]
  cases Block.approve target block [] [] with
  | none => rfl
  | some f => rfl

end Outline

theorem Block.ofLines_eq_ok {lines : List (Nat × String)} {block : Block} :
    Block.ofLines lines = .ok block ↔ Outline.empty.addLines lines = .ok ⟨block, []⟩ := by
  unfold Block.ofLines
  cases Outline.empty.addLines lines with
  | error d => exact ⟨fun h => (by cases h), fun h => (by cases h)⟩
  | ok o =>
      rcases o with ⟨block', _ | ⟨⟨line, outer⟩, around⟩⟩
      · exact ⟨fun h => (by cases h; rfl), fun h => (by cases h; rfl)⟩
      · exact ⟨fun h => (by cases h), fun h => (by cases h)⟩

/-! ## Shapes -/

/-- What a frame has declared, without the values. -/
def Frame.shape (f : Frame) : List (SymbolKind × String) :=
  f.map fun s => (s.kind, s.name)

/-- The declarations in force without their values. -/
def Env.shape (env : Env) : List (List (SymbolKind × String)) :=
  env.map Frame.shape

theorem Frame.shape_assign (name : String) (v : Int32) (f : Frame) :
    (Frame.assign name v f).shape = f.shape := by
  induction f with
  | nil => rfl
  | cons s rest ih =>
      unfold Frame.assign
      split
      · rfl
      · unfold Frame.shape at ih ⊢
        rw [List.map_cons, List.map_cons, ih]

namespace Env

variable {e e' : Env}

theorem shape_assign (name : String) (v : Int32) (env : Env) :
    (env.assign name v).shape = env.shape := by
  induction env with
  | nil => rfl
  | cons f outer ih =>
      unfold Env.assign
      split
      · unfold shape
        rw [List.map_cons, List.map_cons, Frame.shape_assign]
      · unfold shape at ih ⊢
        rw [List.map_cons, List.map_cons, ih]

theorem shape_declare {f : Frame} {outer : Env} (h : e.shape = shape (f :: outer))
    {s s' : Symbol} (hs : (s.kind, s.name) = (s'.kind, s'.name)) :
    (e.declare s).shape = shape ((f ++ [s']) :: outer) := by
  cases e with
  | nil => cases h
  | cons g rest =>
      simp only [shape, List.map_cons, List.cons.injEq] at h
      simp only [declare, shape, List.map_cons, List.cons.injEq]
      refine ⟨?_, h.2⟩
      have hhead := h.1
      unfold Frame.shape at hhead ⊢
      rw [List.map_append, List.map_append, hhead, List.map_singleton, List.map_singleton, hs]

-- A name denotes a variable or not, whatever the values are.
theorem isVar_of_shape (h : e.shape = e'.shape) (name : String) :
    (e.find? name).any Symbol.isVar = (e'.find? name).any Symbol.isVar := by
  have hfind : ∀ env : Env, (env.find? name).any Symbol.isVar =
      (env.shape.findSome? fun f => f.find? fun p => p.2 = name).any fun p => p.1 = .var := by
    intro env
    induction env with
    | nil => rfl
    | cons f outer ih =>
        unfold shape find? at ih ⊢
        rw [List.map_cons, List.findSome?_cons, List.findSome?_cons]
        have hframe : f.shape.find? (fun p => p.2 = name) =
            (f.find? fun s => s.name = name).map fun s => (s.kind, s.name) := List.find?_map
        rw [hframe]
        cases f.find? fun s => s.name = name with
        | none => exact ih
        | some s => rfl
  rw [hfind, hfind, h]

end Env

/-! ## Executions -/

namespace Run

variable {r r' : Run}

theorem shape_setVar {line : Nat} {name : String} {value : Operand} {f f' : Frame} {outer : Env}
    (hshape : r.env.shape = Env.shape (f :: outer)) {source : SourceLine} {target : Target}
    (happrove : (Clause.var source name value).approve target outer f = some f')
    (hexec : r.setVar line name value = .ok r') : r'.env.shape = Env.shape (f' :: outer) := by
  unfold setVar at hexec
  rcases exists_of_bind_eq_ok hexec with ⟨s, -, hexec⟩
  rw [Clause.approve] at happrove
  rcases Option.bind_eq_some_iff.1 happrove with ⟨s', -, happrove⟩
  rw [← Env.isVar_of_shape hshape] at happrove
  by_cases hvar : (r.env.find? name).any Symbol.isVar = true
  · rw [if_pos hvar] at hexec happrove
    cases hexec
    cases happrove
    rw [Env.shape_assign, hshape]
  · rw [if_neg hvar] at hexec happrove
    cases hexec
    split at happrove
    · cases happrove
    · cases happrove
      exact Env.shape_declare hshape rfl

theorem shape_command {target : Target} {source : SourceLine} {mnemonic : String}
    {operands : List Operand} (hexec : r.command target source mnemonic operands = .ok r') :
    r'.env.shape = r.env.shape := by
  unfold command at hexec
  split at hexec
  · cases hexec
  · split at hexec
    · unfold fold at hexec
      rcases exists_of_bind_eq_ok hexec with ⟨s, -, hexec⟩
      split at hexec
      · cases hexec
      · rcases exists_of_bind_eq_ok hexec with ⟨s', -, hexec⟩
        split at hexec
        · cases hexec
        · cases hexec
          exact Env.shape_assign _ _ _
    · cases hexec
  · unfold emit at hexec
    rcases exists_of_bind_eq_ok hexec with ⟨symbols, -, hexec⟩
    rcases exists_of_bind_eq_ok hexec with ⟨word, -, hexec⟩
    cases hexec
    rfl

-- Trips in a row keep what a single trip keeps.
theorem trips_keeps {line : LoopLine} {body : Run → Except Diagnostic Run} {P : Run → Prop}
    (hbody : ∀ r r', P r → trip body r = .ok r' → P r') (index : Int) (step : Int32) (h : P r)
    (hexec : trips line body index step r = .ok r') : P r' := by
  induction hroom : roomFor index step using Nat.strongRecOn generalizing index step r with
  | ind room ih =>
      rw [trips] at hexec
      rcases exists_of_bind_eq_ok hexec with ⟨r₁, htrip, hexec⟩
      rcases exists_of_bind_eq_ok hexec with ⟨b, -, hexec⟩
      have h₁ := hbody r r₁ h htrip
      split at hexec
      · cases hexec
      · rename_i hzero
        split at hexec
        · cases hexec
        · rename_i hsign
          split at hexec
          · rename_i hahead
            have hless := roomFor_lt hzero (Decidable.not_not.1 hsign) hahead
            exact ih _ (hroom ▸ hless) _ _ h₁ hexec rfl
          · cases hexec
            exact h₁

-- The frame of a trip is dropped at its end, and those around are as before.
theorem shape_trip {body : Run → Except Diagnostic Run} {e : Env}
    (hbody : ∀ r r', r.env.shape = Env.shape ([] :: e) → body r = .ok r' →
      ∃ g, r'.env.shape = Env.shape (g :: e))
    (hshape : r.env.shape = e.shape) (hexec : trip body r = .ok r') :
    r'.env.shape = e.shape := by
  unfold trip at hexec
  rcases exists_of_bind_eq_ok hexec with ⟨r₁, hexec₁, hexec⟩
  cases hexec
  have hinner : Env.shape ([] :: r.env) = Env.shape ([] :: e) := by
    unfold Env.shape at hshape ⊢
    rw [List.map_cons, List.map_cons, hshape]
  rcases hbody _ r₁ hinner hexec₁ with ⟨g, hafter⟩
  have htail := congrArg List.tail hafter
  unfold Env.shape at htail ⊢
  rwa [← List.map_tail] at htail

end Run

mutual

/-- An execution keeps to the shape that was approved. -/
theorem Clause.shape_exec {target : Target} : (c : Clause) → {outer : Env} → {f f' : Frame} →
    {r r' : Run} → r.env.shape = Env.shape (f :: outer) → c.approve target outer f = some f' →
    c.exec target r = .ok r' → r'.env.shape = Env.shape (f' :: outer)
  | .const name value, _, _, _, _, _, hshape, happrove, hexec => by
      rw [Clause.exec] at hexec
      rw [Clause.approve] at happrove
      split at happrove
      · cases happrove
      · cases happrove
        cases hexec
        exact Env.shape_declare hshape rfl
  | .var source name value, _, _, _, _, _, hshape, happrove, hexec => by
      rw [Clause.exec] at hexec
      exact Run.shape_setVar hshape happrove hexec
  | .command source mnemonic operands, _, _, _, _, _, hshape, happrove, hexec => by
      rw [Clause.exec] at hexec
      rw [Clause.approve] at happrove
      split at happrove
      · cases happrove
        exact (Run.shape_command hexec).trans hshape
      · cases happrove
  | .loop line body, _, _, _, _, _, hshape, happrove, hexec => by
      rw [Clause.exec] at hexec
      rcases exists_of_bind_eq_ok hexec with ⟨b, -, hexec⟩
      rcases exists_of_bind_eq_ok hexec with ⟨_, -, hexec⟩
      rw [Clause.approve] at happrove
      split at happrove
      · rcases Option.map_eq_some_iff.1 happrove with ⟨g, hg, rfl⟩
        refine Run.trips_keeps (P := fun r => r.env.shape = _) (fun r₁ r₂ h₁ htrip => ?_) _ _
          hshape hexec
        exact Run.shape_trip (fun _ _ h hbody => ⟨g, Block.shape_exec body h hg hbody⟩) h₁ htrip
      · cases happrove

theorem Block.shape_exec {target : Target} : (block : List Clause) → {outer : Env} →
    {f f' : Frame} → {r r' : Run} → r.env.shape = Env.shape (f :: outer) →
    Block.approve target block outer f = some f' → Block.exec target block r = .ok r' →
    r'.env.shape = Env.shape (f' :: outer)
  | [], _, _, _, _, _, hshape, happrove, hexec => by
      rw [Block.approve] at happrove
      rw [Block.exec] at hexec
      cases happrove
      cases hexec
      exact hshape
  | c :: rest, _, _, _, _, _, hshape, happrove, hexec => by
      rw [Block.approve] at happrove
      rcases Option.bind_eq_some_iff.1 happrove with ⟨f₁, hc, hrest⟩
      rw [Block.exec] at hexec
      rcases exists_of_bind_eq_ok hexec with ⟨r₁, hexec₁, hexec⟩
      exact Block.shape_exec rest (Clause.shape_exec c hshape hc hexec₁) hrest hexec

end

end UnrollAsm
