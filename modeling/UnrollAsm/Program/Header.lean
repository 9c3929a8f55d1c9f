import UnrollAsm.Diagnostic

/-!
# Loop Headers

The header of a loop remembers where its three operands stand, the bounds of
the run in progress, and the index. The body runs once at the start; then the
index moves by the step, and the body runs again while the index is strictly
before the stop. The body may change the operands behind the bounds, so stop
and step are given afresh at every move.

A step must not be zero, must not point away from the stop when a run begins,
and must not change its sign while the run lasts. Hence the index only ever
moves in one direction and a run ends, whatever the body does to the stop.

## Main definitions

* `Bounds.check`: Refuses bounds that no run can begin with.
* `LoopHeader`: The state of a loop.
* `LoopHeader.create`, `LoopHeader.begin`: A header at the start of a run.
* `LoopHeader.advance`: Moves the index, and says whether to go on.
* `LoopHeader.room`: How far the index can still move.

## Theorems

* `LoopHeader.room_of_advance`: Every move on uses up some room.
-/

namespace UnrollAsm

namespace Bounds

/-- Refuses a zero step, and a step that points away from the stop. -/
def check (b : Bounds) : Except RangeCause Unit :=
  if b.step = 0 then .error .zeroStep
  else if b.step < 0 ∧ b.start < b.stop then .error (.stepsDownBelow b)
  else if b.step > 0 ∧ b.start > b.stop then .error (.stepsUpAbove b)
  else .ok ()

end Bounds

/-- The state of a loop: where its operands stand, the line that opened it, the
    bounds of the current run, and the index. -/
structure LoopHeader where
  start : Address
  stop : Address
  step : Address
  source : SourceLine
  bounds : Bounds
  current : Int32
  deriving DecidableEq, Repr

namespace LoopHeader

/-- The header of a loop whose operands have the given values. -/
def create (start stop step : Address) (bounds : Bounds) (source : SourceLine) :
    Except Diagnostic LoopHeader :=
  match bounds.check with
  | .ok () => .ok ⟨start, stop, step, source, bounds, bounds.start⟩
  | .error cause => .error (.onLine source.number (.range cause))

/-- The header at the start of a run with fresh bounds. -/
def begin (h : LoopHeader) (bounds : Bounds) : Except Diagnostic LoopHeader :=
  match bounds.check with
  | .ok () => .ok { h with bounds := bounds, current := bounds.start }
  | .error cause => .error (.onLine h.source.number (.range cause))

/-- The sum of two values, if it is one. -/
def sum? (a b : Int32) : Option Int32 :=
  if fitsValue (a.toInt + b.toInt) then some (a + b) else none

/-- The index `v` is strictly before `stop` in the direction of `step`. -/
def isBefore (v stop step : Int32) : Bool :=
  if step < 0 then v > stop else v < stop

/-- Moves the index by a fresh step, and says whether it is still before the
    fresh stop. An index that would leave its range has reached the stop. -/
def advance (h : LoopHeader) (stop step : Int32) : Except Diagnostic (Bool × LoopHeader) :=
  if step = 0 then .error (.onLine h.source.number (.range .zeroStep))
  else if decide (step < 0) ≠ decide (h.bounds.step < 0) then
    .error (.onLine h.source.number (.range (.stepReversed h.bounds.step step)))
  else
    let bounds := { h.bounds with stop := stop, step := step }
    match sum? h.current step with
    | some next => .ok (isBefore next stop step, { h with bounds := bounds, current := next })
    | none => .ok (false, { h with bounds := bounds })

/-- How far the index can move in the direction of the step. -/
def room (h : LoopHeader) : Nat :=
  if h.bounds.step < 0 then (h.current.toInt + 0x80000000).toNat
  else (0x7FFFFFFF - h.current.toInt).toNat

/-- How a header is written in messages. -/
def text (h : LoopHeader) : String :=
  s!"LOOP {h.bounds.text} at {Text.decimal h.current} (line {h.source.number})"

/-- A sum that is a value is the exact sum. -/
theorem toInt_of_sum? {a b c : Int32} (h : sum? a b = some c) :
    c.toInt = a.toInt + b.toInt := by
  unfold sum? at h
  split at h
  · rename_i hfits
    cases h
    simp only [fitsValue, Bool.and_eq_true, decide_eq_true_eq] at hfits
    rw [Int32.toInt_add, Int.bmod_eq_of_le (by omega) (by omega)]
  · cases h

/-- The sign of a value is that of the integer it denotes. -/
theorem neg_iff_toInt_neg {v : Int32} : v < 0 ↔ v.toInt < 0 := by
  rw [Int32.lt_iff_toInt_lt]
  simp

theorem toInt_ne_zero {v : Int32} (hv : v ≠ 0) : v.toInt ≠ 0 :=
  fun e => hv (Int32.toInt_inj.1 (by simpa using e))

/-- Every move on uses up some room: the step is not zero and keeps its
    direction, and the index does not wrap. -/
theorem room_of_advance {h next : LoopHeader} {stop step : Int32}
    (hadv : h.advance stop step = .ok (true, next)) : next.room < h.room := by
  unfold advance at hadv
  split at hadv
  · cases hadv
  rename_i hzero
  split at hadv
  · cases hadv
  rename_i hsign
  have hstep := toInt_ne_zero hzero
  cases hnext : sum? h.current step with
  | none => simp [hnext] at hadv
  | some v =>
    simp only [hnext, Except.ok.injEq, Prod.mk.injEq] at hadv
    obtain ⟨-, rfl⟩ := hadv
    have hsum := toInt_of_sum? hnext
    have hlo := v.le_toInt
    have hhi := v.toInt_lt
    have hlo' := h.current.le_toInt
    have hhi' := h.current.toInt_lt
    simp only [decide_eq_decide, Decidable.not_not, neg_iff_toInt_neg] at hsign
    simp only [room, neg_iff_toInt_neg]
    by_cases hneg : step.toInt < 0
    · simp only [hneg, hsign.1 hneg, if_true]
      omega
    · simp only [hneg, mt hsign.2 hneg, if_false]
      omega

end LoopHeader

end UnrollAsm
