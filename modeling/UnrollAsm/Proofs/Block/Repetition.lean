import UnrollAsm.Proofs.Block.Replacement

/-!
# Writing Out a Loop

A loop between literals runs its body a number of times that is known beforehand,
so its body might as well be written down that often. What stands in the way is
the frame that every trip opens: the body written out declares its names in the
block around instead. If the body declares nothing at its own level, the frame
stays empty, and an empty frame is not seen by any name.

Two runs are compared of which one has such a frame. Inside a loop of the body
the frame is further out, and there the body may declare what it likes.

## Main definitions

* `Clause.Plain`: A clause that declares nothing.
* `Env.Gap`: An environment with one more frame, which is empty.
* `Run.Gapped`: Two runs come to the same but for such a frame.
* `Bounds.tripsFrom`: The trips that are due from an index on.

## Theorems

* `Clause.exec_gap`: An empty frame makes no difference to a clause.
* `Run.trip_eq`: A trip through a plain body is the body itself.
* `Run.trips_eq_copies`: Trips between literals are copies of the body.
* `Block.replaces_copies`: The copies may take the place of the loop.
-/

namespace UnrollAsm

/-- The clause declares nothing in its block: it is no constant, and a variable
    line finds its variable. -/
def Clause.Plain (env : Env) : Clause → Prop
  | .const _ _ => False
  | .var _ name _ => (env.find? name).any Symbol.isVar
  | .command _ _ _ | .loop _ _ => True

/-- The first environment has one more frame, which is empty. The number says how
    many frames are further inside. -/
inductive Env.Gap : Nat → Env → Env → Prop
  | here (e : Env) : Gap 0 ([] :: e) e
  | frame {k : Nat} {x y : Env} (f : Frame) : Gap k x y → Gap (k + 1) (f :: x) (f :: y)

namespace Env.Gap

variable {k : Nat} {x y : Env}

theorem find? (h : Gap k x y) (name : String) : x.find? name = y.find? name := by
  induction h with
  | here e => rfl
  | frame f _ ih =>
      unfold Env.find? at ih ⊢
      rw [List.findSome?_cons, List.findSome?_cons, ih]

theorem assign (h : Gap k x y) (name : String) (v : Int32) :
    Gap k (x.assign name v) (y.assign name v) := by
  induction h with
  | here e => exact here _
  | frame f h ih =>
      unfold Env.assign
      split
      · exact frame _ h
      · exact frame f ih

-- Declarations go to the innermost frame, which is the same in both.
theorem declare (h : Gap (k + 1) x y) (s : Symbol) : Gap (k + 1) (x.declare s) (y.declare s) := by
  cases h with
  | frame f h => exact frame _ h

theorem tail (h : Gap (k + 1) x y) : Gap k x.tail y.tail := by
  cases h with
  | frame f h => exact h

theorem denote (h : Gap k x y) (line : Nat) (op : Operand) :
    x.denote line op = y.denote line op := by
  cases op with
  | literal v => rfl
  | name name => simp only [Env.denote, h.find? name]

end Env.Gap

namespace Run

/-- Two executions come to the same, the first with one more frame that is
    empty. -/
def Gapped (k : Nat) : Except Diagnostic Run → Except Diagnostic Run → Prop
  | .ok r, .ok q => Env.Gap k r.env q.env ∧ r.words = q.words
  | .error d, .error d' => d = d'
  | _, _ => False

variable {k : Nat} {r q : Run}

theorem Gapped.bind {j : Nat} {x y : Except Diagnostic Run} {f g : Run → Except Diagnostic Run}
    (h : Gapped k x y)
    (hfg : ∀ r q, y = .ok q → Env.Gap k r.env q.env → r.words = q.words →
      Gapped j (f r) (g q)) :
    Gapped j (x >>= f) (y >>= g) := by
  cases x with
  | error d =>
      cases y with
      | error d' => exact h
      | ok q => exact h.elim
  | ok r =>
      cases y with
      | error d' => exact h.elim
      | ok q => exact hfg r q rfl h.1 h.2

-- The same question on both sides.
theorem Gapped.ask {α : Type} {x : Except Diagnostic α} {f g : α → Except Diagnostic Run}
    (h : ∀ a, x = .ok a → Gapped k (f a) (g a)) : Gapped k (x >>= f) (x >>= g) := by
  cases x with
  | error d => exact rfl
  | ok a => exact h a rfl

section Gap

variable (henv : Env.Gap k r.env q.env) (hwords : r.words = q.words)

include henv

theorem bounds_gap (line : LoopLine) : r.bounds line = q.bounds line := by
  unfold bounds
  simp only [henv.denote]

include hwords

theorem setVar_gap (line : Nat) (name : String) (value : Operand)
    (hplain : k = 0 → (q.env.find? name).any Symbol.isVar) :
    Gapped k (r.setVar line name value) (q.setVar line name value) := by
  unfold setVar
  rw [henv.denote line value, henv.find? name]
  refine Gapped.ask fun s _ => ?_
  by_cases hvar : (q.env.find? name).any Symbol.isVar = true
  · rw [if_pos hvar, if_pos hvar]
    exact ⟨henv.assign _ _, hwords⟩
  · rw [if_neg hvar, if_neg hvar]
    cases k with
    | zero => exact absurd (hplain rfl) hvar
    | succ k => exact ⟨henv.declare _, hwords⟩

theorem command_gap (target : Target) (source : SourceLine) (mnemonic : String)
    (operands : List Operand) :
    Gapped k (r.command target source mnemonic operands)
      (q.command target source mnemonic operands) := by
  unfold command
  split
  · exact rfl
  · split
    · unfold fold
      simp only [henv.denote]
      refine Gapped.ask fun s _ => ?_
      split
      · exact rfl
      · refine Gapped.ask fun s' _ => ?_
        split
        · exact rfl
        · exact ⟨henv.assign _ _, hwords⟩
    · exact rfl
  · unfold emit
    have hdenote : r.env.denote source.number = q.env.denote source.number := by
      funext op
      exact henv.denote _ op
    rw [hdenote, hwords]
    refine Gapped.ask fun symbols _ => Gapped.ask fun word _ => ?_
    exact ⟨henv, rfl⟩

theorem trips_gap {body : Run → Except Diagnostic Run}
    (hbody : ∀ r q, Env.Gap (k + 1) r.env q.env → r.words = q.words →
      Gapped (k + 1) (body r) (body q))
    (line : LoopLine) (index : Int) (step : Int32) :
    Gapped k (trips line body index step r) (trips line body index step q) := by
  induction hroom : roomFor index step using Nat.strongRecOn generalizing index step r q with
  | ind room ih =>
      rw [trips, trips]
      have htrip : Gapped k (trip body r) (trip body q) := by
        unfold trip
        refine (hbody ⟨[] :: r.env, r.words⟩ ⟨[] :: q.env, q.words⟩ (.frame [] henv) hwords).bind
          fun r₁ q₁ _ henv₁ hwords₁ => ?_
        exact ⟨henv₁.tail, hwords₁⟩
      refine htrip.bind fun r₁ q₁ _ henv₁ hwords₁ => ?_
      rw [bounds_gap henv₁ line]
      refine Gapped.ask fun b _ => ?_
      split
      · exact rfl
      · rename_i hzero
        split
        · exact rfl
        · rename_i hsign
          split
          · rename_i hahead
            have hless := roomFor_lt hzero (Decidable.not_not.1 hsign) hahead
            exact ih _ (hroom ▸ hless) henv₁ hwords₁ _ _ rfl
          · exact ⟨henv₁, hwords₁⟩

end Gap

end Run

mutual

/-- An empty frame makes no difference to a clause, unless the clause would
    declare something there. -/
theorem Clause.exec_gap (target : Target) : (c : Clause) → {k : Nat} → {r q : Run} →
    Env.Gap k r.env q.env → r.words = q.words → (k = 0 → c.Plain q.env) →
    Run.Gapped k (c.exec target r) (c.exec target q)
  | .const name value, 0, _, _, _, _, hplain => (hplain rfl).elim
  | .const name value, k + 1, _, _, henv, hwords, _ => by
      rw [Clause.exec, Clause.exec]
      exact ⟨henv.declare _, hwords⟩
  | .var source name value, _, _, _, henv, hwords, hplain => by
      rw [Clause.exec, Clause.exec]
      exact Run.setVar_gap henv hwords _ name value hplain
  | .command source mnemonic operands, _, _, _, henv, hwords, _ => by
      rw [Clause.exec, Clause.exec]
      exact Run.command_gap henv hwords target source mnemonic operands
  | .loop line body, _, _, _, henv, hwords, _ => by
      rw [Clause.exec, Clause.exec, Run.bounds_gap henv line]
      refine Run.Gapped.ask fun b _ => ?_
      cases b.check with
      | error cause => exact rfl
      | ok _ =>
          exact Run.trips_gap henv hwords
            (fun _ _ henv' hwords' => Block.exec_gap target body henv' hwords') line _ _

theorem Block.exec_gap (target : Target) : (block : List Clause) → {k : Nat} → {r q : Run} →
    Env.Gap (k + 1) r.env q.env → r.words = q.words →
    Run.Gapped (k + 1) (Block.exec target block r) (Block.exec target block q)
  | [], _, _, _, henv, hwords => by
      rw [Block.exec, Block.exec]
      exact ⟨henv, hwords⟩
  | c :: rest, _, _, _, henv, hwords => by
      rw [Block.exec, Block.exec]
      refine (Clause.exec_gap target c henv hwords (fun h => by cases h)).bind
        fun _ _ _ henv' hwords' => ?_
      exact Block.exec_gap target rest henv' hwords'

end

/-! ## Plain bodies -/

section Plain

variable {target : Target} {outer : Env} {f : Frame}

-- An empty frame in front changes no meaning.
theorem Clause.approve_plain {c : Clause} {g : Frame} (hplain : c.Plain (f :: outer))
    (h : c.approve target (f :: outer) [] = some g) :
    g = [] ∧ c.approve target outer f = some f := by
  have hfind : ∀ name, Env.find? ([] :: f :: outer) name = Env.find? (f :: outer) name :=
    (Env.Gap.here (f :: outer)).find?
  cases c with
  | const name value => exact hplain.elim
  | var source name value =>
      have hvar : (Env.find? (f :: outer) name).any Symbol.isVar = true := hplain
      rw [Clause.approve, Env.symbol?_congr hfind, hfind name] at h
      rcases Option.bind_eq_some_iff.1 h with ⟨s, hs, h⟩
      rw [if_pos hvar, Option.some.injEq] at h
      simp only [Clause.approve, hs, Option.bind_eq_bind, Option.bind_some, if_pos hvar, and_true]
      exact h.symm
  | command source mnemonic operands =>
      rw [Clause.approve, Env.takes_congr hfind] at h
      rw [Clause.approve]
      by_cases htakes : Env.takes (f :: outer) target mnemonic operands = true
      · rw [if_pos htakes] at h ⊢
        exact ⟨(Option.some.inj h).symm, rfl⟩
      · rw [if_neg htakes] at h
        cases h
  | loop line body =>
      rw [Clause.approve, Env.opens_congr hfind, Block.approve_congr target body hfind] at h
      rw [Clause.approve]
      by_cases hopens : Env.opens (f :: outer) line = true
      · rw [if_pos hopens, Option.map_eq_some_iff] at h
        rcases h with ⟨g', hg', rfl⟩
        rw [if_pos hopens, hg']
        exact ⟨rfl, rfl⟩
      · rw [if_neg hopens] at h
        cases h

theorem Block.approve_plain {body : Block} {g : Frame} (hplain : ∀ c ∈ body, c.Plain (f :: outer))
    (h : Block.approve target body (f :: outer) [] = some g) :
    ∀ c ∈ body, c.approve target outer f = some f := by
  induction body with
  | nil =>
      intro c hc
      cases hc
  | cons first rest ih =>
      rw [Block.approve] at h
      rcases Option.bind_eq_some_iff.1 h with ⟨g₁, hfirst, hrest⟩
      rcases Clause.approve_plain (hplain first List.mem_cons_self) hfirst with ⟨rfl, happrove⟩
      intro c hc
      rcases List.mem_cons.1 hc with rfl | hc
      · exact happrove
      · exact ih (fun c hc => hplain c (List.mem_cons_of_mem _ hc)) hrest c hc

-- A block of clauses that declare nothing declares nothing.
theorem Block.approve_of_forall {block : Block}
    (h : ∀ c ∈ block, c.approve target outer f = some f) :
    Block.approve target block outer f = some f := by
  induction block with
  | nil => rw [Block.approve]
  | cons first rest ih =>
      rw [Block.approve, h first List.mem_cons_self, Option.bind_some]
      exact ih fun c hc => h c (List.mem_cons_of_mem _ hc)

/-- Plain clauses in a row, with and without an empty frame for them. -/
theorem Block.exec_gap_plain {body : Block} (hplain : ∀ c ∈ body, c.Plain (f :: outer))
    (happrove : ∀ c ∈ body, c.approve target outer f = some f) {r q : Run}
    (henv : Env.Gap 0 r.env q.env) (hwords : r.words = q.words)
    (hshape : q.env.shape = Env.shape (f :: outer)) :
    Run.Gapped 0 (Block.exec target body r) (Block.exec target body q) := by
  induction body generalizing r q with
  | nil =>
      rw [Block.exec, Block.exec]
      exact ⟨henv, hwords⟩
  | cons c rest ih =>
      rw [Block.exec, Block.exec]
      have hc : c.Plain q.env := by
        have hmem := hplain c List.mem_cons_self
        cases c with
        | const name value => exact hmem.elim
        | var source name value => exact (Env.isVar_of_shape hshape name).trans hmem
        | command source mnemonic operands => trivial
        | loop line body => trivial
      refine (Clause.exec_gap target c henv hwords fun _ => hc).bind
        fun r₁ q₁ hexec henv₁ hwords₁ => ?_
      have hshape₁ := Clause.shape_exec c hshape (happrove c List.mem_cons_self) hexec
      exact ih (fun c hc => hplain c (List.mem_cons_of_mem _ hc))
        (fun c hc => happrove c (List.mem_cons_of_mem _ hc)) henv₁ hwords₁ hshape₁

/-- A trip through a plain body is the body itself. -/
theorem Run.trip_eq {body : Block} (hplain : ∀ c ∈ body, c.Plain (f :: outer))
    (happrove : ∀ c ∈ body, c.approve target outer f = some f) {r : Run}
    (hshape : r.env.shape = Env.shape (f :: outer)) :
    Run.trip (Block.exec target body) r = Block.exec target body r := by
  have hgap : Run.Gapped 0 (Block.exec target body { r with env := [] :: r.env })
      (Block.exec target body r) := Block.exec_gap_plain hplain happrove (.here _) rfl hshape
  unfold Run.trip
  cases hleft : Block.exec target body { r with env := [] :: r.env } with
  | error d =>
      cases hright : Block.exec target body r with
      | error d' =>
          rw [hleft, hright] at hgap
          exact congrArg Except.error hgap
      | ok q =>
          rw [hleft, hright] at hgap
          exact hgap.elim
  | ok r₁ =>
      cases hright : Block.exec target body r with
      | error d' =>
          rw [hleft, hright] at hgap
          exact hgap.elim
      | ok q =>
          rw [hleft, hright] at hgap
          rcases hgap with ⟨henv, hwords⟩
          rcases r₁ with ⟨env₁, words₁⟩
          rcases q with ⟨env, words⟩
          cases henv with
          | here e =>
              cases hwords
              rfl

end Plain

/-! ## Trips between literals -/

namespace Bounds

/-- The number of trips that are due from an index on, if the bounds stay. -/
def tripsFrom (b : Bounds) (index : Int) : Nat :=
  let distance := (b.stop.toInt - index).natAbs
  let width := b.step.toInt.natAbs
  if distance = 0 then 1 else (distance + width - 1) / width

/-- The index has not passed the stop. -/
def Reaches (b : Bounds) (index : Int) : Prop :=
  if b.step < 0 then b.stop.toInt ≤ index else index ≤ b.stop.toInt

theorem tripsFrom_start {b : Bounds} {n : Nat} (h : b.tripCount? = some n) :
    b.tripsFrom b.start.toInt = n := by
  unfold tripCount? distance at h
  unfold tripsFrom
  by_cases hdist : (b.stop.toInt - b.start.toInt).natAbs = 0
  · simp only [if_pos hdist, Option.some.injEq] at h ⊢
    exact h
  · simp only [if_neg hdist] at h ⊢
    split at h
    · cases h
    · exact Option.some.inj h

theorem reaches_start {b : Bounds} (h : b.check = .ok ()) :
    b.step ≠ 0 ∧ b.Reaches b.start.toInt := by
  have hvalid := check_eq_ok_iff.1 h
  refine ⟨hvalid.step_ne_zero, ?_⟩
  unfold Valid at hvalid
  unfold Reaches
  simp only [LoopHeader.neg_iff_toInt_neg]
  split <;> omega

theorem reaches_of_isAhead {b : Bounds} {index : Int} (h : b.isAhead index = true) :
    b.Reaches index := by
  unfold isAhead at h
  unfold Reaches
  split at h
  · rename_i hneg
    rw [decide_eq_true_eq] at h
    rw [if_pos hneg]
    omega
  · rename_i hneg
    rw [decide_eq_true_eq] at h
    rw [if_neg hneg]
    omega

-- A distance rounded up to whole steps, with one step taken off.
theorem ceil_step (distance width : Nat) (hwidth : 0 < width) :
    (if distance = 0 then 1 else (distance + width - 1) / width) =
      if width < distance then
        1 + if distance - width = 0 then 1 else (distance - width + width - 1) / width
      else 1 := by
  by_cases hless : width < distance
  · rw [if_pos hless, if_neg (by omega), if_neg (by omega)]
    have hsplit : distance + width - 1 = (distance - width + width - 1) + width := by omega
    rw [hsplit, Nat.add_div_right _ hwidth, Nat.add_comm]
  · rw [if_neg hless]
    by_cases hzero : distance = 0
    · rw [if_pos hzero]
    · rw [if_neg hzero]
      exact Nat.div_eq_of_lt_le (by omega) (by omega)

/-- One trip less is due after every trip, and none after the last. -/
theorem tripsFrom_step {b : Bounds} {index : Int} (hzero : b.step ≠ 0) (h : b.Reaches index) :
    b.tripsFrom index = if b.isAhead (index + b.step.toInt) then
      1 + b.tripsFrom (index + b.step.toInt) else 1 := by
  have hne := LoopHeader.toInt_ne_zero hzero
  have hstep := ceil_step (b.stop.toInt - index).natAbs b.step.toInt.natAbs (by omega)
  have hahead : b.isAhead (index + b.step.toInt) =
      decide (b.step.toInt.natAbs < (b.stop.toInt - index).natAbs) := by
    unfold isAhead
    unfold Reaches at h
    simp only [Int32.lt_iff_toInt_lt, Int32.toInt_zero] at h ⊢
    split <;> rename_i hneg
    · rw [if_pos hneg] at h
      exact decide_eq_decide.2 (by omega)
    · rw [if_neg hneg] at h
      exact decide_eq_decide.2 (by omega)
  unfold tripsFrom
  dsimp only
  rw [hstep, hahead]
  by_cases hless : b.step.toInt.natAbs < (b.stop.toInt - index).natAbs
  · have hrest : (b.stop.toInt - (index + b.step.toInt)).natAbs =
        (b.stop.toInt - index).natAbs - b.step.toInt.natAbs := by
      unfold Reaches at h
      simp only [Int32.lt_iff_toInt_lt, Int32.toInt_zero] at h
      split at h <;> omega
    rw [if_pos hless, if_pos (decide_eq_true hless), hrest]
  · rw [if_neg hless, if_neg (by simpa using hless)]

end Bounds

/-- A loop whose bounds stay the same runs its body as often as the bounds say.
    If a trip is the body itself, the loop is copies of the body. -/
theorem Run.trips_eq_copies {target : Target} {line : LoopLine} {body : Block} {b : Bounds}
    {shape : List (List (SymbolKind × String))} (hzero : b.step ≠ 0)
    (hbounds : ∀ r : Run, r.bounds line = .ok b)
    (htrip : ∀ r : Run, r.env.shape = shape →
      trip (Block.exec target body) r = Block.exec target body r)
    (hkeep : ∀ r r' : Run, r.env.shape = shape → Block.exec target body r = .ok r' →
      r'.env.shape = shape)
    {index : Int} (hindex : b.Reaches index) {r : Run} (hshape : r.env.shape = shape) :
    trips line (Block.exec target body) index b.step r =
      Block.exec target (List.replicate (b.tripsFrom index) body).flatten r := by
  induction hroom : roomFor index b.step using Nat.strongRecOn generalizing index r with
  | ind room ih =>
      rw [trips, htrip r hshape, Bounds.tripsFrom_step hzero hindex]
      by_cases hahead : b.isAhead (index + b.step.toInt) = true
      · rw [if_pos hahead, Nat.add_comm, List.replicate_succ, List.flatten_cons,
          Block.exec_append]
        cases hexec : Block.exec target body r with
        | error d => rfl
        | ok r₁ =>
            have hless := roomFor_lt hzero rfl hahead
            have hrest := ih _ (hroom ▸ hless) (Bounds.reaches_of_isAhead hahead)
              (hkeep r r₁ hshape hexec) rfl
            change (r₁.bounds line >>= _) = _
            rw [hbounds]
            change (if b.step = 0 then _ else _) = _
            rw [if_neg hzero, if_neg (not_not_intro rfl), if_pos hahead]
            exact hrest
      · rw [if_neg hahead, List.replicate_one, List.flatten_singleton]
        cases hexec : Block.exec target body r with
        | error d => rfl
        | ok r₁ =>
            change (r₁.bounds line >>= _) = _
            rw [hbounds]
            change (if b.step = 0 then _ else _) = _
            rw [if_neg hzero, if_neg (not_not_intro rfl), if_neg hahead]
            rfl

/-- The copies of a plain body may take the place of a loop between literals. -/
theorem Block.replaces_copies {target : Target} {outer : Env} {f : Frame} {line : LoopLine}
    {body : Block} {b : Bounds} {n : Nat}
    (hline : line.start = .literal b.start ∧ line.stop = .literal b.stop ∧
      line.step = .literal b.step)
    (htrips : b.tripCount? = some n) (hplain : ∀ c ∈ body, c.Plain (f :: outer)) :
    Block.Replaces target outer f [.loop line body] (List.replicate n body).flatten := by
  intro f' happrove
  rcases hline with ⟨hstart, hstop, hstep⟩
  have hbounds? : Env.bounds? (f :: outer) line = some b := by
    unfold Env.bounds?
    rw [hstart, hstop, hstep]
    rfl
  have hbounds : ∀ r : Run, r.bounds line = .ok b := by
    intro r
    unfold Run.bounds
    rw [hstart, hstop, hstep]
    rfl
  rw [Block.approve_singleton, Clause.approve] at happrove
  unfold Env.opens at happrove
  rw [hbounds?, Option.any_some] at happrove
  cases hcheck : b.check with
  | error cause =>
      rw [hcheck] at happrove
      cases happrove
  | ok _ =>
      have hvalid : b.check.isOk = true := by rw [hcheck]; rfl
      rw [if_pos hvalid, Option.map_eq_some_iff] at happrove
      rcases happrove with ⟨g, hg, rfl⟩
      have hclauses := Block.approve_plain hplain hg
      have hcopies : ∀ c ∈ (List.replicate n body).flatten, c.approve target outer f = some f := by
        intro c hc
        rcases List.mem_flatten.1 hc with ⟨copy, hcopy, hc⟩
        rw [List.eq_of_mem_replicate hcopy] at hc
        exact hclauses c hc
      refine ⟨Block.approve_of_forall hcopies, fun r hr => ?_⟩
      rcases Bounds.reaches_start hcheck with ⟨hzero, hreaches⟩
      rw [Block.exec_singleton, Clause.exec, hbounds]
      change (b.check.mapError _ >>= _) = _
      rw [hcheck]
      change Run.trips line (Block.exec target body) b.start.toInt b.step r = _
      rw [Run.trips_eq_copies hzero hbounds (fun r₁ h₁ => Run.trip_eq hplain hclauses h₁)
        (fun r₁ r₂ h₁ h₂ => Block.shape_exec body h₁ (Block.approve_of_forall hclauses) h₂)
        hreaches hr, Bounds.tripsFrom_start htrips]

end UnrollAsm
