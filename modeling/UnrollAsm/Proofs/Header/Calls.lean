import Mathlib.Algebra.Group.Int.Defs
import Mathlib.Algebra.Group.Nat.Defs
import Mathlib.Data.Int.Order.Basic
import UnrollAsm.Proofs.Block.Interpreter

/-!
# Calls to a Header

A header is a small state machine. It is told to begin a run with fresh bounds, or
to move its index with a fresh stop and a fresh step, in whatever order and with
whatever values its callers see fit: nothing keeps them from moving on after the
end of a run, or after a refusal.

All that matters of the past is the step that the current run began with. The step
in the header is another after every move, but its sign is always that of this
first one. So the index keeps its direction until the next run begins, and since it
never leaves its range, what it has gone it cannot go again.

## Main definitions

* `Bounds.Valid`: A run can begin with the bounds.
* `LoopHeader.Call`, `LoopHeader.after`, `LoopHeader.afterAll`: Calls, and what they
  make of a header.
* `LoopHeader.moves`: How many calls are told to go on.
* `LoopHeader.runStep`: The step that the current run began with.
* `LoopHeader.Conforms`: All that a header does at a call, and in a run.

## Theorems

* `Bounds.check_eq_ok_iff`: Valid bounds are those that are not refused.
* `LoopHeader.advance_eq`: How a header moves, with exact sums.
* `LoopHeader.moves_add_room_le`: Going on uses up the room of a run.
* `LoopHeader.conforms_afterAll`: Headers conform, whatever calls came before.
-/

namespace UnrollAsm

namespace Bounds

/-- A run can begin with the bounds: the step is not zero, and the stop does not lie
    on the other side of the start. -/
def Valid (b : Bounds) : Prop :=
  0 < b.step.toInt ∧ b.start.toInt ≤ b.stop.toInt ∨
    b.step.toInt < 0 ∧ b.stop.toInt ≤ b.start.toInt

instance (b : Bounds) : Decidable b.Valid :=
  inferInstanceAs (Decidable (_ ∨ _))

/-- Valid bounds are those that are not refused. -/
theorem check_eq_ok_iff {b : Bounds} : b.check = .ok () ↔ b.Valid := by
  have hzero : b.step = 0 ↔ b.step.toInt = 0 := by
    rw [← Int32.toInt_inj, Int32.toInt_zero]
  unfold check Valid
  simp only [hzero, gt_iff_lt, Int32.lt_iff_toInt_lt, Int32.toInt_zero]
  constructor
  · intro h
    split at h
    · cases h
    · split at h
      · cases h
      · split at h
        · cases h
        · omega
  · intro h
    rw [if_neg (by omega), if_neg (by omega), if_neg (by omega)]

theorem Valid.step_ne_zero {b : Bounds} (hb : b.Valid) : b.step ≠ 0 := by
  intro hzero
  unfold Valid at hb
  rw [hzero, Int32.toInt_zero] at hb
  omega

/-- An index that would leave its range has no stop ahead. -/
theorem fits_of_isAhead {b : Bounds} {current : Int32}
    (h : b.isAhead (current.toInt + b.step.toInt) = true) :
    fitsValue (current.toInt + b.step.toInt) = true := by
  have hlo := current.le_toInt
  have hhi := current.toInt_lt
  have hlo' := b.stop.le_toInt
  have hhi' := b.stop.toInt_lt
  unfold isAhead at h
  rw [fitsValue_iff]
  by_cases hneg : b.step < 0
  · rw [if_pos hneg, decide_eq_true_eq] at h
    have hstep := LoopHeader.neg_iff_toInt_neg.1 hneg
    constructor <;> omega
  · rw [if_neg hneg, decide_eq_true_eq] at h
    have hstep := mt LoopHeader.neg_iff_toInt_neg.2 hneg
    constructor <;> omega

end Bounds

namespace LoopHeader

/-! ## Calls -/

/-- What a header can be called for: to begin a run, or to move its index. -/
inductive Call where
  | begin (bounds : Bounds)
  | advance (stop step : Int32)
  deriving DecidableEq, Repr

/-- What a header says to a call, and what becomes of it. Only a move is a question
    whether to go on. -/
def reply (h : LoopHeader) : Call → Except Diagnostic (Option Bool × LoopHeader)
  | .begin bounds => (h.begin bounds).map fun next => (none, next)
  | .advance stop step => (h.advance stop step).map fun (again, next) => (some again, next)

/-- The header after a call. A refusal does not change it. -/
def after (h : LoopHeader) (c : Call) : LoopHeader :=
  match h.reply c with
  | .ok (_, next) => next
  | .error _ => h

/-- The header after several calls. -/
def afterAll (h : LoopHeader) (calls : List Call) : LoopHeader :=
  calls.foldl after h

/-- The call is a move, and the header says to go on. -/
def goesOn (h : LoopHeader) (c : Call) : Bool :=
  match h.reply c with
  | .ok (answer, _) => answer.getD false
  | .error _ => false

/-- How many of several calls are told to go on. -/
def moves (h : LoopHeader) : List Call → Nat
  | [] => 0
  | c :: rest => (h.goesOn c).toNat + (h.after c).moves rest

/-- The step that the current run began with, after several calls to a header whose
    run had begun with the first one. -/
def runStep (first : Int32) : List Call → Int32
  | [] => first
  | .begin bounds :: rest => runStep (if bounds.Valid then bounds.step else first) rest
  | .advance _ _ :: rest => runStep first rest

/-- None of the calls begins a run. -/
def Uninterrupted (calls : List Call) : Prop :=
  ∀ bounds, Call.begin bounds ∈ calls → ¬ bounds.Valid

/-- The index after a move: the sum, unless it would leave its range. -/
def moved (h : LoopHeader) (step : Int32) : Int32 :=
  let sum := h.current.toInt + step.toInt
  if -2 ^ 31 ≤ sum ∧ sum ≤ 2 ^ 31 - 1 then Int32.ofInt sum else h.current

/-- All that a header does at a call, and in what is left of its run, if the run
    began with the given step. -/
structure Conforms (h : LoopHeader) (first : Int32) : Prop where
  /-- The step has the sign of the first step of the run. -/
  sign : h.bounds.step.toInt.sign = first.toInt.sign
  /-- A refusal does not change the header. -/
  refused : ∀ c d, h.reply c = .error d → h.after c = h
  /-- Exactly the bounds that are not valid are refused. -/
  begin_refused : ∀ b, (∃ d, h.begin b = .error d) ↔ ¬ b.Valid
  /-- With valid bounds, a run begins at their start. -/
  begins : ∀ b, b.Valid → h.begin b = .ok { h with bounds := b, current := b.start }
  /-- Exactly the steps that are zero or of another sign are refused. -/
  advance_refused : ∀ stop step, (∃ d, h.advance stop step = .error d) ↔
    step = 0 ∨ step.toInt.sign ≠ first.toInt.sign
  /-- Other steps move the index by their exact value, if it stays in its range. It
      goes on exactly if the stop is strictly ahead of the exact sum. -/
  advances : ∀ stop step, step ≠ 0 → step.toInt.sign = first.toInt.sign →
    let bounds : Bounds := { h.bounds with stop := stop, step := step }
    h.advance stop step = .ok (bounds.isAhead (h.current.toInt + step.toInt),
      { h with bounds := bounds, current := h.moved step })
  /-- Until the next run, the index does not go back. -/
  forward : ∀ calls, Uninterrupted calls → 0 < first →
    h.current ≤ (h.afterAll calls).current
  /-- If the step is negative, back is forth. -/
  backward : ∀ calls, Uninterrupted calls → first < 0 →
    (h.afterAll calls).current ≤ h.current
  /-- Until the next run, it goes on fewer times than there are values. -/
  bounded : ∀ calls, Uninterrupted calls → h.moves calls < 2 ^ 32

/-! ## Single calls -/

section Single

theorem create_of_valid (start stop step : Address) (source : SourceLine) {b : Bounds}
    (hb : b.Valid) :
    create start stop step b source = .ok ⟨start, stop, step, source, b, b.start⟩ := by
  unfold create
  rw [Bounds.check_eq_ok_iff.2 hb]

variable (h : LoopHeader)

theorem begin_of_valid {b : Bounds} (hb : b.Valid) :
    h.begin b = .ok { h with bounds := b, current := b.start } := by
  unfold begin
  rw [Bounds.check_eq_ok_iff.2 hb]

theorem begin_of_not_valid {b : Bounds} (hb : ¬ b.Valid) : ∃ d, h.begin b = .error d := by
  unfold begin
  cases hcheck : b.check with
  | ok _ => exact absurd (Bounds.check_eq_ok_iff.1 hcheck) hb
  | error cause => exact ⟨_, rfl⟩

theorem isBefore_eq {v : Int32} {b : Bounds} : isBefore v b.stop b.step = b.isAhead v.toInt := by
  unfold isBefore Bounds.isAhead
  simp only [GT.gt, Int32.lt_iff_toInt_lt]

/-- An index that does not leave its range moves by the exact step, -/
theorem toInt_moved {step : Int32} (hfits : fitsValue (h.current.toInt + step.toInt) = true) :
    (h.moved step).toInt = h.current.toInt + step.toInt := by
  rw [fitsValue_iff] at hfits
  unfold moved
  dsimp only
  rw [if_pos (by omega), Int32.toInt_ofInt_of_le (by omega) (by omega)]

/-- and any other stays where it is. -/
theorem moved_eq_current {step : Int32}
    (hfits : ¬ fitsValue (h.current.toInt + step.toInt) = true) : h.moved step = h.current := by
  rw [fitsValue_iff] at hfits
  unfold moved
  dsimp only
  rw [if_neg (by omega)]

/-- How a header moves, if the step is not refused. The 32-bit sum is not used
    unless it is exact, and where it is not, no stop is ahead. -/
theorem advance_eq (stop : Int32) {step : Int32} (hzero : step ≠ 0)
    (hsign : decide (step < 0) = decide (h.bounds.step < 0)) :
    h.advance stop step =
      .ok ((⟨h.bounds.start, stop, step⟩ : Bounds).isAhead (h.current.toInt + step.toInt),
        { h with bounds := ⟨h.bounds.start, stop, step⟩, current := h.moved step }) := by
  unfold advance
  rw [if_neg hzero, if_neg (not_not_intro hsign)]
  by_cases hfits : fitsValue (h.current.toInt + step.toInt) = true
  · have hsum : sum? h.current step = some (h.current + step) := if_pos hfits
    have hexact := toInt_of_sum? hsum
    have hmoved : h.moved step = h.current + step :=
      Int32.toInt_inj.1 ((h.toInt_moved hfits).trans hexact.symm)
    have hbefore := isBefore_eq (v := h.current + step) (b := ⟨h.bounds.start, stop, step⟩)
    simp only [hsum]
    rw [hmoved, hbefore, hexact]
  · have hsum : sum? h.current step = none := if_neg hfits
    have hahead := Bool.eq_false_iff.2
      (mt (Bounds.fits_of_isAhead (b := ⟨h.bounds.start, stop, step⟩)) hfits)
    simp only [hsum]
    rw [h.moved_eq_current hfits, hahead]

theorem advance_zero (stop : Int32) {step : Int32} (hzero : step = 0) :
    ∃ d, h.advance stop step = .error d :=
  ⟨_, if_pos hzero⟩

theorem advance_reversed (stop : Int32) {step : Int32} (hzero : step ≠ 0)
    (hsign : decide (step < 0) ≠ decide (h.bounds.step < 0)) :
    ∃ d, h.advance stop step = .error d := by
  unfold advance
  rw [if_neg hzero, if_pos hsign]
  exact ⟨_, rfl⟩

-- An index that moves goes in the direction of the step.
theorem le_moved {step : Int32} (hstep : 0 < step.toInt) :
    h.current.toInt ≤ (h.moved step).toInt := by
  by_cases hfits : fitsValue (h.current.toInt + step.toInt) = true
  · rw [h.toInt_moved hfits]
    omega
  · rw [h.moved_eq_current hfits]

theorem moved_le {step : Int32} (hstep : step.toInt < 0) :
    (h.moved step).toInt ≤ h.current.toInt := by
  by_cases hfits : fitsValue (h.current.toInt + step.toInt) = true
  · rw [h.toInt_moved hfits]
    omega
  · rw [h.moved_eq_current hfits]

theorem reply_begin {b : Bounds} {next : LoopHeader} (hbegin : h.begin b = .ok next) :
    h.reply (.begin b) = .ok (none, next) :=
  congrArg (Except.map _) hbegin

theorem reply_advance {stop step : Int32} {again : Bool} {next : LoopHeader}
    (hadv : h.advance stop step = .ok (again, next)) :
    h.reply (.advance stop step) = .ok (some again, next) :=
  congrArg (Except.map _) hadv

variable {h}

theorem after_of_ok {c : Call} {answer : Option Bool} {next : LoopHeader}
    (hreply : h.reply c = .ok (answer, next)) :
    h.after c = next ∧ h.goesOn c = answer.getD false := by
  unfold after goesOn
  rw [hreply]
  exact ⟨rfl, rfl⟩

theorem after_of_error {c : Call} {d : Diagnostic} (hreply : h.reply c = .error d) :
    h.after c = h ∧ h.goesOn c = false := by
  unfold after goesOn
  rw [hreply]
  exact ⟨rfl, rfl⟩

variable (h)

theorem uninterrupted_advance (stop step : Int32) : Uninterrupted [Call.advance stop step] := by
  intro b hb
  cases List.mem_singleton.1 hb

/-- What a call makes of a header: a run begins, or the call is refused, or the index
    moves. -/
theorem after_cases (c : Call) :
    (∃ b, c = .begin b ∧ b.Valid ∧ h.after c = { h with bounds := b, current := b.start }) ∨
    (Uninterrupted [c] ∧ h.after c = h ∧ h.goesOn c = false) ∨
    ∃ stop step, c = .advance stop step ∧ step ≠ 0 ∧
      decide (step < 0) = decide (h.bounds.step < 0) ∧
      h.after c = { h with bounds := ⟨h.bounds.start, stop, step⟩, current := h.moved step } ∧
      h.advance stop step = .ok (h.goesOn c, h.after c) := by
  cases c with
  | begin b =>
      by_cases hb : b.Valid
      · exact Or.inl ⟨b, rfl, hb, (after_of_ok (h.reply_begin (h.begin_of_valid hb))).1⟩
      · rcases h.begin_of_not_valid hb with ⟨d, hd⟩
        have hreply : h.reply (.begin b) = .error d := congrArg (Except.map _) hd
        refine Or.inr (Or.inl ⟨fun b' hb' => ?_, after_of_error hreply⟩)
        cases List.mem_singleton.1 hb'
        exact hb
  | advance stop step =>
      cases hadv : h.advance stop step with
      | error d =>
          have hreply : h.reply (.advance stop step) = .error d := congrArg (Except.map _) hadv
          exact Or.inr (Or.inl ⟨uninterrupted_advance stop step, after_of_error hreply⟩)
      | ok answer =>
          -- Otherwise the call would have been refused.
          have hzero : step ≠ 0 := by
            intro hzero
            rcases h.advance_zero stop hzero with ⟨d, hd⟩
            rw [hadv] at hd
            cases hd
          have hsign : decide (step < 0) = decide (h.bounds.step < 0) := by
            by_contra hsign
            rcases h.advance_reversed stop hzero hsign with ⟨d, hd⟩
            rw [hadv] at hd
            cases hd
          have heq := h.advance_eq stop hzero hsign
          rcases after_of_ok (h.reply_advance heq) with ⟨hafter, hgoes⟩
          refine Or.inr (Or.inr ⟨stop, step, rfl, hzero, hsign, hafter, ?_⟩)
          rw [heq, hafter, hgoes]
          rfl

end Single

/-! ## Runs -/

/-- The header is in a run that began with the given step. -/
structure InRun (h : LoopHeader) (first : Int32) : Prop where
  step_ne_zero : h.bounds.step ≠ 0
  sign : h.bounds.step.toInt.sign = first.toInt.sign

/-- The index has gone from one header to the other in the direction of the step. -/
structure Follows (h next : LoopHeader) : Prop where
  sign : decide (next.bounds.step < 0) = decide (h.bounds.step < 0)
  forward : ¬ h.bounds.step < 0 → h.current.toInt ≤ next.current.toInt
  backward : h.bounds.step < 0 → next.current.toInt ≤ h.current.toInt

theorem sign_eq {v : Int32} (hv : v ≠ 0) : v.toInt.sign = if v < 0 then -1 else 1 := by
  by_cases hneg : v < 0
  · rw [if_pos hneg]
    exact Int.sign_eq_neg_one_of_neg (neg_iff_toInt_neg.1 hneg)
  · rw [if_neg hneg]
    have hne := toInt_ne_zero hv
    have hnonneg := mt neg_iff_toInt_neg.2 hneg
    exact Int.sign_eq_one_of_pos (by omega)

theorem sign_eq_iff {v w : Int32} (hv : v ≠ 0) (hw : w ≠ 0) :
    v.toInt.sign = w.toInt.sign ↔ decide (v < 0) = decide (w < 0) := by
  rw [sign_eq hv, sign_eq hw, decide_eq_decide]
  by_cases hneg : v < 0 <;> by_cases hneg' : w < 0 <;> simp [hneg, hneg']

section Run

variable {h : LoopHeader} {first : Int32}

theorem runStep_cons (c : Call) (rest : List Call) :
    runStep first (c :: rest) = runStep (runStep first [c]) rest := by
  cases c with
  | begin b => rfl
  | advance stop step => rfl

theorem uninterrupted_cons {c : Call} {rest : List Call} :
    Uninterrupted (c :: rest) ↔ Uninterrupted [c] ∧ Uninterrupted rest := by
  unfold Uninterrupted
  simp only [List.mem_cons, List.not_mem_nil, or_false, or_imp, forall_and]

theorem runStep_of_uninterrupted {c : Call} (hc : Uninterrupted [c]) :
    runStep first [c] = first := by
  cases c with
  | begin b => exact if_neg (hc b (List.mem_singleton.2 rfl))
  | advance stop step => rfl

namespace InRun

theorem of_valid {b : Bounds} (hb : b.Valid) (hbounds : h.bounds = b) : h.InRun b.step := by
  refine ⟨?_, by rw [hbounds]⟩
  rw [hbounds]
  exact hb.step_ne_zero

theorem neg_iff (hrun : h.InRun first) : h.bounds.step < 0 ↔ first < 0 := by
  rw [neg_iff_toInt_neg, neg_iff_toInt_neg, ← Int.sign_eq_neg_one_iff_neg, hrun.sign,
    Int.sign_eq_neg_one_iff_neg]

/-- Whatever a header is called for, it is in the run that began last. -/
theorem after (hrun : h.InRun first) (c : Call) : (h.after c).InRun (runStep first [c]) := by
  rcases h.after_cases c with ⟨b, rfl, hb, hafter⟩ | ⟨hc, hafter, -⟩ |
    ⟨stop, step, rfl, hzero, hsign, hafter, -⟩
  · rw [hafter]
    change InRun _ (if b.Valid then b.step else first)
    rw [if_pos hb]
    exact of_valid hb rfl
  · rw [hafter, runStep_of_uninterrupted hc]
    exact hrun
  · rw [hafter]
    exact ⟨hzero, ((sign_eq_iff hzero hrun.step_ne_zero).2 hsign).trans hrun.sign⟩

theorem afterAll (hrun : h.InRun first) (calls : List Call) :
    (h.afterAll calls).InRun (runStep first calls) := by
  induction calls generalizing h first with
  | nil => exact hrun
  | cons c rest ih =>
      rw [runStep_cons]
      exact ih (hrun.after c)

end InRun

namespace Follows

theorem refl (h : LoopHeader) : h.Follows h :=
  ⟨rfl, fun _ => Int.le_refl _, fun _ => Int.le_refl _⟩

theorem trans {next last : LoopHeader} (hnext : h.Follows next) (hlast : next.Follows last) :
    h.Follows last where
  sign := hlast.sign.trans hnext.sign
  forward hpos := by
    have hpos' : ¬ next.bounds.step < 0 := mt (decide_eq_decide.1 hnext.sign).1 hpos
    exact Int.le_trans (hnext.forward hpos) (hlast.forward hpos')
  backward hneg := by
    have hneg' : next.bounds.step < 0 := (decide_eq_decide.1 hnext.sign).2 hneg
    exact Int.le_trans (hlast.backward hneg') (hnext.backward hneg)

-- There is no room behind the index.
theorem room_le {next : LoopHeader} (hnext : h.Follows next) : next.room ≤ h.room := by
  unfold room
  by_cases hneg : h.bounds.step < 0
  · rw [if_pos hneg, if_pos ((decide_eq_decide.1 hnext.sign).2 hneg)]
    have := hnext.backward hneg
    omega
  · rw [if_neg hneg, if_neg (mt (decide_eq_decide.1 hnext.sign).1 hneg)]
    have := hnext.forward hneg
    omega

/-- A call that begins no run does not take the index back. -/
theorem after {c : Call} (hc : Uninterrupted [c]) : h.Follows (h.after c) := by
  rcases h.after_cases c with ⟨b, rfl, hb, -⟩ | ⟨-, hafter, -⟩ |
    ⟨stop, step, rfl, hzero, hsign, hafter, -⟩
  · exact absurd hb (hc b (List.mem_singleton.2 rfl))
  · rw [hafter]
    exact refl h
  · have hne := toInt_ne_zero hzero
    have hneg : h.bounds.step < 0 ↔ step.toInt < 0 := by
      rw [← neg_iff_toInt_neg]
      exact (decide_eq_decide.1 hsign).symm
    rw [hafter]
    refine ⟨hsign, fun hpos => h.le_moved ?_, fun h' => h.moved_le (hneg.1 h')⟩
    have := mt hneg.2 hpos
    omega

theorem afterAll {calls : List Call} (hcalls : Uninterrupted calls) :
    h.Follows (h.afterAll calls) := by
  induction calls generalizing h with
  | nil => exact refl h
  | cons c rest ih =>
      rcases uninterrupted_cons.1 hcalls with ⟨hc, hrest⟩
      exact (after hc).trans (ih hrest)

end Follows

-- A call that is told to go on uses up some room, and no other call makes more.
theorem goesOn_add_room_le {c : Call} (hc : Uninterrupted [c]) :
    (h.goesOn c).toNat + (h.after c).room ≤ h.room := by
  rcases h.after_cases c with ⟨b, rfl, hb, -⟩ | ⟨-, hafter, hgoes⟩ |
    ⟨stop, step, rfl, -, -, -, hadv⟩
  · exact absurd hb (hc b (List.mem_singleton.2 rfl))
  · rw [hafter, hgoes]
    exact Nat.le_of_eq (Nat.zero_add _)
  · cases hgoes : h.goesOn (.advance stop step) with
    | false =>
        rw [Bool.toNat_false, Nat.zero_add]
        exact (Follows.after hc).room_le
    | true =>
        rw [hgoes] at hadv
        rw [Bool.toNat_true, Nat.add_comm]
        exact room_of_advance hadv

/-- Going on uses up the room of a run. -/
theorem moves_add_room_le {calls : List Call} (hcalls : Uninterrupted calls) :
    h.moves calls + (h.afterAll calls).room ≤ h.room := by
  induction calls generalizing h with
  | nil => exact Nat.le_of_eq (Nat.zero_add _)
  | cons c rest ih =>
      rcases uninterrupted_cons.1 hcalls with ⟨hc, hrest⟩
      have hfirst := goesOn_add_room_le (h := h) hc
      have hlater := ih (h := h.after c) hrest
      change (h.goesOn c).toNat + (h.after c).moves rest + ((h.after c).afterAll rest).room ≤ _
      omega

-- Fewer moves than there are values lie ahead of any header.
theorem room_lt (h : LoopHeader) : h.room < 2 ^ 32 := by
  have hlo := h.current.le_toInt
  have hhi := h.current.toInt_lt
  unfold room
  split <;> omega

/-- A header in a run does all that headers in such a run do. -/
theorem InRun.conforms (hrun : h.InRun first) : h.Conforms first where
  sign := hrun.sign
  refused _ _ hreply := (after_of_error hreply).1
  begin_refused b := by
    refine ⟨?_, h.begin_of_not_valid⟩
    rintro ⟨d, hd⟩ hb
    rw [h.begin_of_valid hb] at hd
    cases hd
  begins _ hb := h.begin_of_valid hb
  advance_refused stop step := by
    rw [← hrun.sign]
    constructor
    · rintro ⟨d, hd⟩
      by_contra hok
      rw [not_or, not_not] at hok
      have hsign := (sign_eq_iff hok.1 hrun.step_ne_zero).1 hok.2
      rw [h.advance_eq stop hok.1 hsign] at hd
      cases hd
    · intro hbad
      by_cases hzero : step = 0
      · exact h.advance_zero stop hzero
      · have hsign := hbad.resolve_left hzero
        exact h.advance_reversed stop hzero (mt (sign_eq_iff hzero hrun.step_ne_zero).2 hsign)
  advances stop step hzero hsign := by
    rw [← hrun.sign] at hsign
    exact h.advance_eq stop hzero ((sign_eq_iff hzero hrun.step_ne_zero).1 hsign)
  forward calls hcalls hfirst := by
    rw [Int32.le_iff_toInt_le]
    exact (Follows.afterAll hcalls).forward (mt hrun.neg_iff.1 (Int32.lt_asymm hfirst))
  backward calls hcalls hfirst := by
    rw [Int32.le_iff_toInt_le]
    exact (Follows.afterAll hcalls).backward (hrun.neg_iff.2 hfirst)
  bounded calls hcalls := by
    have hmoves := moves_add_room_le (h := h) hcalls
    have hroom := h.room_lt
    omega

end Run

/-- **Headers conform, whatever calls came before.** After any calls to a header that
    was created at the start of a run, with whatever values, the header is in the run
    that began last, and does what headers in this run do. -/
theorem conforms_afterAll {start stop step : Address} {b : Bounds} {source : SourceLine}
    {h : LoopHeader} (hcreate : create start stop step b source = .ok h) (calls : List Call) :
    (h.afterAll calls).Conforms (runStep b.step calls) := by
  unfold create at hcreate
  cases hcheck : b.check with
  | error cause =>
      rw [hcheck] at hcreate
      cases hcreate
  | ok _ =>
      rw [hcheck] at hcreate
      cases hcreate
      exact ((InRun.of_valid (Bounds.check_eq_ok_iff.1 hcheck) rfl).afterAll calls).conforms

/-- A run up to the end of the range, refusals of a step back and of a step that is
    zero, and a run down that passes the stop at once. -/
def eventful : List Call :=
  [.advance 2147483647 2147483646, .advance 2147483647 2, .advance 0 (-1), .begin ⟨0, 5, 0⟩,
   .begin ⟨5, 0, -3⟩, .advance (-1) (-2147483648)]

-- The first run is told to go on once, and its index stays where the sum is too large.
theorem conforms_afterAll_eventful :
    ∃ h, create ⟨0, 0⟩ ⟨0, 1⟩ ⟨0, 2⟩ ⟨0, 3, 1⟩ ⟨5, "LOOP"⟩ = .ok h ∧ h.moves eventful = 1 ∧
      (h.afterAll (eventful.take 4)).current = 2147483646 ∧
      (h.afterAll eventful).current = -2147483643 ∧
      runStep 1 eventful = -3 ∧ (h.afterAll eventful).Conforms (runStep 1 eventful) := by
  have hcreate := create_of_valid ⟨0, 0⟩ ⟨0, 1⟩ ⟨0, 2⟩ ⟨5, "LOOP"⟩
    (show (⟨0, 3, 1⟩ : Bounds).Valid by decide +kernel)
  refine ⟨_, hcreate, ?_, ?_, ?_, ?_, conforms_afterAll hcreate eventful⟩
  · decide +kernel
  · decide +kernel
  · decide +kernel
  · decide +kernel

end LoopHeader

end UnrollAsm
