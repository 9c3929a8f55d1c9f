import Mathlib.Algebra.Order.Floor.Ring
import Mathlib.Data.Rat.Floor
import UnrollAsm.Proofs.Block.Repetition
import UnrollAsm.Proofs.Header.Calls

/-!
# Counting Trips

How often a loop runs is said twice: by a formula over its bounds, and by a header
that is moved until it says to stop. While the bounds stay fixed, both say the same.

The header adds 32-bit values, and the formula divides a distance that need not be
one, so they can only agree because a sum that is too large has passed every stop.
The induction goes along the moves. It is on the room of the header, and what it
carries is the number of trips that are due from the index on.

## Main definitions

* `LoopHeader.sweep`: Moves with fixed bounds until the header says to stop.
* `LoopHeader.Counts`: A sweep makes so many trips, each with the index that is due.

## Theorems

* `Bounds.tripsFrom_eq_max`: The formula is a quotient that is rounded up.
* `LoopHeader.exists_counts`: A sweep makes the trips that are due.
* `LoopHeader.counts_tripCount`: A run makes the trips that its bounds promise.
-/

namespace UnrollAsm

namespace Bounds

theorem tripCount?_of_valid {b : Bounds} (hb : b.Valid) :
    b.tripCount? = some (b.tripsFrom b.start.toInt) := by
  have hwidth : b.step.toInt.natAbs ≠ 0 :=
    Int.natAbs_ne_zero.2 (LoopHeader.toInt_ne_zero hb.step_ne_zero)
  unfold tripCount? distance tripsFrom
  dsimp only
  by_cases hdistance : (b.stop.toInt - b.start.toInt).natAbs = 0
  · rw [if_pos hdistance, if_pos hdistance]
  · rw [if_neg hdistance, if_neg hwidth, if_neg hdistance]

theorem one_le_tripsFrom {b : Bounds} (hzero : b.step ≠ 0) (index : Int) :
    1 ≤ b.tripsFrom index := by
  have hne := LoopHeader.toInt_ne_zero hzero
  unfold tripsFrom
  dsimp only
  split
  · exact Nat.le_refl 1
  · exact Nat.div_pos (by omega) (by omega)

-- The quotient is rounded up by taking almost one more width.
theorem natCast_ceil {distance width : Nat} (hwidth : 0 < width) :
    (((distance + width - 1) / width : Nat) : Int) = ⌈(distance : ℚ) / width⌉ := by
  have hpos : (0 : ℚ) < width := Nat.cast_pos.2 hwidth
  have hmod := Nat.div_add_mod' (distance + width - 1) width
  have hless := Nat.mod_lt (distance + width - 1) hwidth
  have hbelow : (distance + width - 1) / width * width < distance + width := by omega
  have habove : distance ≤ (distance + width - 1) / width * width := by omega
  symm
  rw [Int.ceil_eq_iff, Int.cast_natCast, lt_div_iff₀ hpos, div_le_iff₀ hpos]
  constructor
  · rw [sub_mul, one_mul, sub_lt_iff_lt_add]
    exact_mod_cast hbelow
  · exact_mod_cast habove

/-- The number of trips is the distance over the width of the step, rounded up, but
    at least one. -/
theorem tripsFrom_eq_max {b : Bounds} (hb : b.Valid) :
    (b.tripsFrom b.start.toInt : Int) =
      max 1 ⌈|(b.stop.toInt - b.start.toInt : ℚ)| / |(b.step.toInt : ℚ)|⌉ := by
  have hne := LoopHeader.toInt_ne_zero hb.step_ne_zero
  have hdistance : |(b.stop.toInt - b.start.toInt : ℚ)| =
      (b.stop.toInt - b.start.toInt).natAbs := by
    rw [Nat.cast_natAbs, Int.cast_abs, Int.cast_sub]
  have hwidth : |(b.step.toInt : ℚ)| = b.step.toInt.natAbs := by
    rw [Nat.cast_natAbs, Int.cast_abs]
  rw [hdistance, hwidth, ← natCast_ceil (by omega)]
  unfold tripsFrom
  dsimp only
  split
  · rename_i hzero
    rw [hzero, Nat.zero_add, Nat.div_eq_of_lt (by omega)]
    rfl
  · rename_i hfar
    have hone := Nat.div_pos (a := (b.stop.toInt - b.start.toInt).natAbs +
      b.step.toInt.natAbs - 1) (b := b.step.toInt.natAbs) (by omega) (by omega)
    exact (max_eq_right (by exact_mod_cast hone)).symm

end Bounds

namespace LoopHeader

/-- Moves with the same stop and the same step until the header says to stop: its
    answers, and what has become of it after each. -/
def sweep (h : LoopHeader) (stop step : Int32) : Except Diagnostic (List (Bool × LoopHeader)) :=
  match _ : h.advance stop step with
  | .error d => .error d
  | .ok (false, next) => .ok [(false, next)]
  | .ok (true, next) => (next.sweep stop step).map fun later => (true, next) :: later
termination_by h.room
decreasing_by exact room_of_advance ‹_›

/-- A sweep over fixed bounds makes so many trips, counted from an index on: it is told
    to go on after each but the last, and the index moves by one step every time. -/
structure Counts (h : LoopHeader) (b : Bounds) (index : Int) (trips : Nat)
    (replies : List (Bool × LoopHeader)) : Prop where
  ends : h.sweep b.stop b.step = .ok replies
  answers : replies.map Prod.fst = List.replicate (trips - 1) true ++ [false]
  /-- The header during a trip is the one that the trip before has left. -/
  exact : ∀ k < trips, ∃ during, (h :: replies.map Prod.snd)[k]? = some during ∧
    during.current.toInt = index + k * b.step.toInt

theorem sweep_last {h next : LoopHeader} {stop step : Int32}
    (hadv : h.advance stop step = .ok (false, next)) :
    h.sweep stop step = .ok [(false, next)] := by
  rw [sweep]
  split
  · rename_i hcase
    rw [hadv] at hcase
    cases hcase
  · rename_i hcase
    rw [hadv] at hcase
    cases hcase
    rfl
  · rename_i hcase
    rw [hadv] at hcase
    cases hcase

theorem sweep_on {h next : LoopHeader} {stop step : Int32}
    (hadv : h.advance stop step = .ok (true, next)) {later : List (Bool × LoopHeader)}
    (hlater : next.sweep stop step = .ok later) :
    h.sweep stop step = .ok ((true, next) :: later) := by
  rw [sweep]
  split
  · rename_i hcase
    rw [hadv] at hcase
    cases hcase
  · rename_i hcase
    rw [hadv] at hcase
    cases hcase
  · rename_i hcase
    rw [hadv] at hcase
    cases hcase
    rw [hlater]
    rfl

namespace Counts

variable {b : Bounds} {h next : LoopHeader}

theorem last (hadv : h.advance b.stop b.step = .ok (false, next)) :
    h.Counts b h.current.toInt 1 [(false, next)] where
  ends := sweep_last hadv
  answers := rfl
  exact k hk := by
    cases Nat.lt_one_iff.1 hk
    refine ⟨h, rfl, ?_⟩
    rw [Nat.cast_zero, Int.zero_mul, Int.add_zero]

theorem on (hadv : h.advance b.stop b.step = .ok (true, next)) {trips : Nat}
    {later : List (Bool × LoopHeader)} (htrips : 1 ≤ trips)
    (hlater : next.Counts b (h.current.toInt + b.step.toInt) trips later) :
    h.Counts b h.current.toInt (1 + trips) ((true, next) :: later) where
  ends := sweep_on hadv hlater.ends
  answers := by
    have hcount : 1 + trips - 1 = (trips - 1) + 1 := by omega
    rw [hcount, List.replicate_succ, List.map_cons, hlater.answers]
    rfl
  exact k hk := by
    cases k with
    | zero =>
        refine ⟨h, rfl, ?_⟩
        rw [Nat.cast_zero, Int.zero_mul, Int.add_zero]
    | succ k =>
        rcases hlater.exact k (by omega) with ⟨during, hduring, hindex⟩
        refine ⟨during, hduring, ?_⟩
        rw [hindex, Nat.cast_succ, Int.add_mul, Int.one_mul]
        omega

end Counts

/-- A sweep makes the trips that are due. -/
theorem exists_counts {b : Bounds} (hzero : b.step ≠ 0) {h : LoopHeader}
    (hsign : decide (b.step < 0) = decide (h.bounds.step < 0))
    (hreaches : b.Reaches h.current.toInt) :
    ∃ replies, h.Counts b h.current.toInt (b.tripsFrom h.current.toInt) replies := by
  induction hroom : h.room using Nat.strongRecOn generalizing h with
  | ind room ih =>
      obtain ⟨next, hadv, hcurrent, hstep⟩ : ∃ next,
          h.advance b.stop b.step = .ok (b.isAhead (h.current.toInt + b.step.toInt), next) ∧
          next.current = h.moved b.step ∧ next.bounds.step = b.step :=
        ⟨_, h.advance_eq b.stop hzero hsign, rfl, rfl⟩
      rw [Bounds.tripsFrom_step hzero hreaches]
      cases hahead : b.isAhead (h.current.toInt + b.step.toInt) with
      | true =>
          rw [hahead] at hadv
          have hmoved := h.toInt_moved (Bounds.fits_of_isAhead hahead)
          rw [← hcurrent] at hmoved
          have hreaches' := Bounds.reaches_of_isAhead hahead
          have hless := room_of_advance hadv
          rw [← hmoved] at hreaches'
          rcases ih next.room (hroom ▸ hless) (by rw [hstep]) hreaches' rfl with ⟨later, hlater⟩
          rw [hmoved] at hlater
          exact ⟨_, .on hadv (Bounds.one_le_tripsFrom hzero _) hlater⟩
      | false =>
          rw [hahead] at hadv
          exact ⟨_, .last hadv⟩

/-- **A run makes the trips that its bounds promise.** If the bounds are not refused,
    there is a number of trips, which is the distance over the width of the step,
    rounded up, but at least one. A header that was created with these bounds, or told
    to begin a run with them, makes so many trips while they stay. -/
theorem counts_tripCount {b : Bounds} (hb : b.check = .ok ()) :
    ∃ trips, b.tripCount? = some trips ∧
      (trips : Int) =
        max 1 ⌈|(b.stop.toInt - b.start.toInt : ℚ)| / |(b.step.toInt : ℚ)|⌉ ∧
      (∀ k < trips, -2 ^ 31 ≤ b.start.toInt + k * b.step.toInt ∧
        b.start.toInt + k * b.step.toInt ≤ 2 ^ 31 - 1) ∧
      (∀ start stop step source, ∃ h, create start stop step b source = .ok h ∧
        ∃ replies, h.Counts b b.start.toInt trips replies) ∧
      ∀ h₀ : LoopHeader, ∃ h, h₀.begin b = .ok h ∧
        ∃ replies, h.Counts b b.start.toInt trips replies := by
  have hvalid := Bounds.check_eq_ok_iff.1 hb
  rcases Bounds.reaches_start hb with ⟨hzero, hreaches⟩
  -- Only the bounds and the index of a header matter, however it came by them.
  have hcounts : ∀ h : LoopHeader, h.bounds = b → h.current = b.start →
      ∃ replies, h.Counts b b.start.toInt (b.tripsFrom b.start.toInt) replies := by
    intro h hbounds hcurrent
    rw [← hcurrent] at hreaches ⊢
    exact exists_counts hzero (by rw [hbounds]) hreaches
  refine ⟨_, Bounds.tripCount?_of_valid hvalid, Bounds.tripsFrom_eq_max hvalid, ?_, ?_, ?_⟩
  · intro k hk
    rcases hcounts ⟨⟨0, 0⟩, ⟨0, 0⟩, ⟨0, 0⟩, ⟨0, ""⟩, b, b.start⟩ rfl rfl with ⟨_, hsweep⟩
    rcases hsweep.exact k hk with ⟨during, -, hindex⟩
    have hlow := during.current.le_toInt
    have hhigh := during.current.toInt_lt
    omega
  · intro start stop step source
    exact ⟨_, create_of_valid start stop step source hvalid, hcounts _ rfl rfl⟩
  · intro h₀
    exact ⟨_, h₀.begin_of_valid hvalid, hcounts _ rfl rfl⟩

/-- Bounds as far from each other as they can be, with the largest step. -/
def widest : Bounds :=
  ⟨-2147483648, 2147483647, 2147483647⟩

-- The index of the last trip is one short of the stop, and has no room for a step.
theorem counts_tripCount_widest :
    widest.check = .ok () ∧ widest.tripCount? = some 3 ∧
      ∃ h, create ⟨0, 0⟩ ⟨0, 1⟩ ⟨0, 2⟩ widest ⟨5, "LOOP"⟩ = .ok h ∧
        ∃ replies, h.Counts widest (-2147483648) 3 replies := by
  have hcheck : widest.check = .ok () := Bounds.check_eq_ok_iff.2 (by decide +kernel)
  have hthree : widest.tripCount? = some 3 := by decide +kernel
  rcases counts_tripCount hcheck with ⟨trips, htrips, -, -, hcreate, -⟩
  cases Option.some.inj (htrips.symm.trans hthree)
  exact ⟨hcheck, hthree, hcreate ⟨0, 0⟩ ⟨0, 1⟩ ⟨0, 2⟩ ⟨5, "LOOP"⟩⟩

end LoopHeader

end UnrollAsm
