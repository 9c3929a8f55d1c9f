/-!
# Outcomes

Checks are made one after the other, and the first that fails decides the
outcome. So a success is a success of each of them, and what every single step
keeps is kept by all of them in a row. An error is the error of one of them.

## Main definitions

* `ErrorsAre`: What is said of the error, whatever it is.

## Theorems

* `exists_of_bind_eq_ok`, `bind_eq_ok`: A success in a row is two successes.
* `foldlM_invariant`: What every step keeps, a fold keeps.
-/

namespace UnrollAsm

variable {ε α β : Type}

/-- A success in a row is two successes. -/
theorem exists_of_bind_eq_ok {x : Except ε α} {f : α → Except ε β} {b : β}
    (h : x >>= f = .ok b) : ∃ a, x = .ok a ∧ f a = .ok b := by
  cases x with
  | error e => cases h
  | ok a => exact ⟨a, rfl, h⟩

theorem bind_eq_ok {x : Except ε α} {f : α → Except ε β} {b : β} :
    x >>= f = .ok b ↔ ∃ a, x = .ok a ∧ f a = .ok b := by
  constructor
  · exact exists_of_bind_eq_ok
  · rintro ⟨a, rfl, h⟩
    exact h

/-- What every successful step keeps, a successful fold keeps. -/
theorem foldlM_invariant {f : β → α → Except ε β} (P : β → Prop)
    (hstep : ∀ b a b', P b → f b a = .ok b' → P b') {l : List α} {b b' : β}
    (h : l.foldlM f b = .ok b') (hb : P b) : P b' := by
  induction l generalizing b with
  | nil =>
      cases h
      exact hb
  | cons a rest ih =>
      rw [List.foldlM_cons] at h
      rcases exists_of_bind_eq_ok h with ⟨next, hnext, h⟩
      exact ih h (hstep b a next hb hnext)

/-! ## Errors -/

/-- Whatever error a result is has the property `P`. -/
def ErrorsAre (P : ε → Prop) (result : Except ε α) : Prop :=
  ∀ e, result = .error e → P e

namespace ErrorsAre

variable {ε' : Type} {P : ε → Prop} {Q : ε' → Prop}

theorem ok (a : α) : ErrorsAre P (.ok a) := by
  intro e he
  cases he

theorem error {e : ε} (he : P e) : ErrorsAre P (.error e : Except ε α) := by
  intro e' he'
  cases he'
  exact he

theorem mono {P' : ε → Prop} {x : Except ε α} (hx : ErrorsAre P x) (hP : ∀ e, P e → P' e) :
    ErrorsAre P' x :=
  fun e he => hP e (hx e he)

theorem bind {x : Except ε α} {f : α → Except ε β} (hx : ErrorsAre P x)
    (hf : ∀ a, ErrorsAre P (f a)) : ErrorsAre P (x >>= f) := by
  cases x with
  | error e => exact error (hx e rfl)
  | ok a => exact hf a

theorem mapError {x : Except ε α} {f : ε → ε'} (hx : ErrorsAre (fun e => Q (f e)) x) :
    ErrorsAre Q (x.mapError f) := by
  cases x with
  | error e => exact error (hx e rfl)
  | ok a => exact ok a

theorem ite {c : Prop} [Decidable c] {x y : Except ε α} (hx : ErrorsAre P x)
    (hy : ErrorsAre P y) : ErrorsAre P (if c then x else y) := by
  split
  · exact hx
  · exact hy

end ErrorsAre

end UnrollAsm
