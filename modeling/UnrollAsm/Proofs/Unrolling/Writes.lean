import Mathlib.Data.Int.ModEq
import UnrollAsm.Proofs.Tree.WellFormed
import UnrollAsm.Proofs.Unrolling.Lines

/-!
# Arithmetic Writes One Variable

An operation and a reset make all their checks before they write, and what they
write is the value of one variable. So there are two cases. Either the operands
are of the right sort: then a value comes out, and the tree differs from what it
was in the value of that variable and in nothing else. Or they are not: then
there is a complaint on the line, and the pass goes on with the tree as it was.
Which case it is depends on the two items at the addresses only, and the two
addresses may well be the same.

Values wrap, so what is computed is computed modulo `2 ^ 32`. Adding a symbol to
another variable again and again adds up, since the symbol keeps its value
meanwhile.

## Main definitions

* `ScopeTree.Writes`: A tree differs from another in the value at an address.
* `ScopeTree.attempt`: A step on a tree, and what a pass goes on with.
* `ScopeTree.Atomic`: A step writes one value, or complains and writes nothing.
* `Arithmetic.Accepts`: Operands of the right sort for an operation.
* `ScopeTree.additions`: Additions in a row.

## Theorems

* `Arithmetic.toInt_apply`: Operations are exact modulo `2 ^ 32`.
* `ScopeTree.fold_atomic`, `ScopeTree.reset_atomic`: The two steps.
* `ScopeTree.additions_writes`: Additions in a row add up.
* `ScopeTree.evaluation_atomic`: All of it, for any two addresses of a tree.
-/

namespace UnrollAsm

/-- The item is a constant. -/
def Item.isConstant (i : Item) : Bool :=
  i.symbol?.any fun c => c.kind = .const

/-- The value of a symbol. -/
def Item.value? (i : Item) : Option Int32 :=
  i.symbol?.map Symbol.value

-- A symbol is one of two things.
theorem Item.isConstant_symbol (c : Symbol) : (Item.symbol c).isConstant = !c.isVar := by
  rcases c with ⟨kind, name, value⟩
  cases kind <;> rfl

/-! ## Operations -/

namespace Arithmetic

/-- The operands of an operation are of the right sort: a variable and a symbol,
    which has to be a constant for an operation with an immediate operand. -/
structure Accepts (op : Arithmetic) (first second : Item) : Prop where
  target : first.isVariable
  operand : second.isSymbol
  immediate : op ∈ [addImm, subImm, mulImm] → second.isConstant

theorem requiresConst_iff (op : Arithmetic) :
    op.requiresConst = true ↔ op ∈ [addImm, subImm, mulImm] := by
  cases op <;> decide

/-- What an operation has to be given, said of two symbols. -/
theorem accepts_symbol {op : Arithmetic} {c d : Symbol} :
    op.Accepts (.symbol c) (.symbol d) ↔
      c.isVar = true ∧ ¬ (d.isVar = true ∧ op.requiresConst = true) := by
  have hconst : (Item.symbol d).isConstant = true ↔ ¬ d.isVar = true := by
    rw [Item.isConstant_symbol, Bool.not_eq_true', Bool.not_eq_true]
  constructor
  · intro h
    refine ⟨h.target, fun hd => ?_⟩
    exact hconst.1 (h.immediate ((requiresConst_iff op).1 hd.2)) hd.1
  · rintro ⟨hvar, hd⟩
    refine ⟨hvar, rfl, fun himm => hconst.2 fun hvar' => ?_⟩
    exact hd ⟨hvar', (requiresConst_iff op).2 himm⟩

/-- Operations are exact modulo `2 ^ 32`. -/
theorem toInt_apply (op : Arithmetic) (x y : Int32) :
    (op.apply x y).toInt ≡ op.exact x.toInt y.toInt [ZMOD 2 ^ 32] := by
  rw [apply_eq, Int32.toInt_ofInt]
  exact Int.bmod_emod

end Arithmetic

namespace ScopeTree

variable {t u v : ScopeTree} {a b : Address} {i j : Item} {line : Nat} {x y : Int32}

/-! ## Writing -/

/-- The tree `u` is `t` with the value `x` in the symbol at `a`. Everything else
    that either of them holds is the same. -/
structure Writes (t u : ScopeTree) (a : Address) (x : Int32) : Prop where
  size : u.size = t.size
  parent : ∀ s, u.parentAt s = t.parentAt s
  children : ∀ s, u.childrenAt s = t.childrenAt s
  header : ∀ s, u.headerAt s = t.headerAt s
  others : ∀ b, b ≠ a → u.item? b = t.item? b
  written : ∃ c, t.item? a = some (.symbol c) ∧ u.item? a = some (.symbol { c with value := x })

theorem writes_setItem {c : Symbol} (hc : t.item? a = some (.symbol c)) (x : Int32) :
    Writes t (t.setItem a (.symbol { c with value := x })) a x where
  size := size_modify t a.scope _
  parent s := parentAt_modify t a.scope s _ fun _ => rfl
  children s := childrenAt_modify t a.scope s _ fun _ => rfl
  header s := headerAt_setItem t a _ s
  others _ hb := item?_setItem_of_ne (Ne.symm hb)
  written := ⟨c, hc, item?_setItem_self hc⟩

/-- A symbol has the value that it has. -/
theorem Writes.refl {c : Symbol} (hc : t.item? a = some (.symbol c)) : Writes t t a c.value where
  size := rfl
  parent _ := rfl
  children _ := rfl
  header _ := rfl
  others _ _ := rfl
  written := ⟨c, hc, hc⟩

/-- Of two values that are written, the second stays. -/
theorem Writes.trans (h : Writes t u a x) (h' : Writes u v a y) : Writes t v a y where
  size := h'.size.trans h.size
  parent s := (h'.parent s).trans (h.parent s)
  children s := (h'.children s).trans (h.children s)
  header s := (h'.header s).trans (h.header s)
  others b hb := (h'.others b hb).trans (h.others b hb)
  written := by
    rcases h.written with ⟨c, hc, hu⟩
    rcases h'.written with ⟨d, hd, hv⟩
    rw [hu] at hd
    cases hd
    exact ⟨c, hc, hv⟩

/-! ## Steps -/

/-- The outcome of a step on a tree, and the tree that a pass goes on with. -/
def attempt (step : ScopeTree → Except Failure (Int32 × ScopeTree)) (t : ScopeTree) :
    Except Failure Int32 × ScopeTree :=
  let (outcome, work) := (PassM.change step).start t ()
  (outcome, work.tree)

theorem attempt_of_ok {step : ScopeTree → Except Failure (Int32 × ScopeTree)}
    (h : step t = .ok (x, u)) : attempt step t = (.ok x, u) := by
  unfold attempt
  rw [PassM.start_eq_exec, PassM.exec_change, h]

theorem attempt_of_error {step : ScopeTree → Except Failure (Int32 × ScopeTree)} {e : Failure}
    (h : step t = .error e) : attempt step t = (.error e, t) := by
  unfold attempt
  rw [PassM.start_eq_exec, PassM.exec_change, h]

/-- If its operands are accepted, the step writes a value with the given property
    at `a`, and returns it. If they are not, it complains about them on the line,
    and leaves the tree as it is. -/
structure Atomic (step : ScopeTree → Except Failure (Int32 × ScopeTree)) (t : ScopeTree)
    (line : Nat) (a : Address) (accepted : Prop) (value : Int32 → Prop) : Prop where
  succeeds_iff : (∃ x, (attempt step t).1 = .ok x) ↔ accepted
  writes : ∀ x u, attempt step t = (.ok x, u) → value x ∧ Writes t u a x
  refuses : ¬ accepted → ∃ cause, attempt step t = (.error (.onLine line (.typing cause)), t)

/-- A step is atomic if it either writes or complains, as its operands are
    accepted or not. -/
theorem atomic_of_cases {step : ScopeTree → Except Failure (Int32 × ScopeTree)}
    {accepted : Prop} {value : Int32 → Prop}
    (hok : accepted → ∃ c x, t.item? a = some (.symbol c) ∧ value x ∧
      step t = .ok (x, t.setItem a (.symbol { c with value := x })))
    (herror : ¬ accepted → ∃ cause, step t = typeError line cause) :
    Atomic step t line a accepted value := by
  by_cases h : accepted
  · rcases hok h with ⟨c, x, hc, hx, hstep⟩
    have hattempt := attempt_of_ok hstep
    refine ⟨iff_of_true ⟨x, by rw [hattempt]⟩ h, ?_, fun hno => absurd h hno⟩
    intro x' u hx'
    rw [hattempt] at hx'
    cases hx'
    exact ⟨hx, writes_setItem hc x⟩
  · rcases herror h with ⟨cause, hstep⟩
    have hattempt := attempt_of_error hstep
    refine ⟨iff_of_false ?_ h, ?_, fun _ => ⟨cause, hattempt⟩⟩
    · rintro ⟨x, hx⟩
      rw [hattempt] at hx
      cases hx
    · intro x u hx
      rw [hattempt] at hx
      cases hx

/-! ## Arithmetic and resets -/

/-- An operation replaces its first operand by the result, or does nothing. -/
theorem fold_atomic (ha : t.item? a = some i) (hb : t.item? b = some j) (op : Arithmetic)
    (line : Nat) :
    Atomic (fun t => t.fold op a b line) t line a (op.Accepts i j) fun r =>
      ∃ x ∈ i.value?, ∃ y ∈ j.value?, r.toInt ≡ op.exact x.toInt y.toInt [ZMOD 2 ^ 32] := by
  apply atomic_of_cases
  · intro h
    rcases Item.isVariable_iff.1 h.target with ⟨c, rfl, -⟩
    rcases Item.isSymbol_iff.1 h.operand with ⟨d, rfl⟩
    rcases Arithmetic.accepts_symbol.1 h with ⟨hvar, hd⟩
    refine ⟨c, op.apply c.value d.value, ha,
      ⟨c.value, rfl, d.value, rfl, op.toInt_apply c.value d.value⟩, ?_⟩
    rw [fold_eq ha hb, if_neg (not_not_intro hvar), if_neg hd]
  · intro h
    by_cases hi : i.isVariable = true
    · rcases Item.isVariable_iff.1 hi with ⟨c, rfl, hvar⟩
      by_cases hj : j.isSymbol = true
      · rcases Item.isSymbol_iff.1 hj with ⟨d, rfl⟩
        -- All that is left is a variable where a constant is required.
        have hd : d.isVar = true ∧ op.requiresConst = true :=
          by_contra fun hd => h (Arithmetic.accepts_symbol.2 ⟨hvar, hd⟩)
        refine ⟨.notConstant op (.symbol d), ?_⟩
        rw [fold_eq ha hb, if_neg (not_not_intro hvar), if_pos hd]
        rfl
      · exact ⟨_, fold_of_not_symbol ha hvar hb hj op line⟩
    · exact ⟨_, fold_of_not_variable ha hi op b line⟩

/-- A reset replaces its target by the value of its source, or does nothing. -/
theorem reset_atomic (ha : t.item? a = some i) (hb : t.item? b = some j) (line : Nat) :
    Atomic (fun t => t.reset a b line) t line b (i.isSymbol ∧ j.isVariable) fun r =>
      i.value? = some r := by
  apply atomic_of_cases
  · rintro ⟨hi, hj⟩
    rcases Item.isSymbol_iff.1 hi with ⟨c, rfl⟩
    rcases Item.isVariable_iff.1 hj with ⟨d, rfl, hvar⟩
    exact ⟨d, c.value, hb, rfl, reset_of_variable ha hb hvar line⟩
  · intro h
    by_cases hi : i.isSymbol = true
    · rcases Item.isSymbol_iff.1 hi with ⟨c, rfl⟩
      exact ⟨_, reset_of_not_variable ha hb (fun hj => h ⟨hi, hj⟩) line⟩
    · exact ⟨_, reset_of_not_symbol ha hi b line⟩

/-! ## Additions in a row -/

/-- Adds the symbol at `b` to the variable at `a`, so many times. -/
def additions (a b : Address) (line : Nat) : Nat → ScopeTree → Except Failure ScopeTree
  | 0, t => .ok t
  | n + 1, t => do
    let (_, t) ← t.fold .add a b line
    additions a b line n t

/-- Additions in a row add up: the symbol that is added keeps its value, being
    somewhere else. -/
theorem additions_writes (hab : a ≠ b) {c d : Symbol} (hc : t.item? a = some (.symbol c))
    (hvar : c.isVar = true) (hd : t.item? b = some (.symbol d)) (line n : Nat) :
    ∃ u r, additions a b line n t = .ok u ∧ Writes t u a r ∧
      r.toInt ≡ c.value.toInt + n * d.value.toInt [ZMOD 2 ^ 32] := by
  induction n generalizing t c with
  | zero =>
      refine ⟨t, c.value, rfl, Writes.refl hc, ?_⟩
      rw [Int.natCast_zero, Int.zero_mul, Int.add_zero]
  | succ n ih =>
      have hfold := fold_eq hc hd .add line
      rw [if_neg (not_not_intro hvar), if_neg fun h => absurd h.2 Bool.false_ne_true] at hfold
      have hwrites := writes_setItem hc (Arithmetic.add.apply c.value d.value)
      have hfirst := item?_setItem_self
        (i := .symbol { c with value := Arithmetic.add.apply c.value d.value }) hc
      have hsecond := (hwrites.others b (Ne.symm hab)).trans hd
      rcases ih hfirst hvar hsecond with ⟨u, r, hrest, hu, hr⟩
      refine ⟨u, r, ?_, hwrites.trans hu, ?_⟩
      · unfold additions
        rw [hfold]
        exact hrest
      · have hsum := (Arithmetic.toInt_apply .add c.value d.value).add_right (n * d.value.toInt)
        calc r.toInt
            ≡ (Arithmetic.add.apply c.value d.value).toInt + n * d.value.toInt [ZMOD 2 ^ 32] := hr
          _ ≡ c.value.toInt + d.value.toInt + n * d.value.toInt [ZMOD 2 ^ 32] := hsum
          _ = c.value.toInt + (n + 1 : Nat) * d.value.toInt := by
            rw [Int.natCast_add, Int.natCast_one, Int.add_mul, Int.one_mul]
            omega

/-! ## Any two addresses of a tree -/

/-- Arithmetic and resets write one variable or nothing, whatever stands at the
    two addresses, and additions in a row add up. -/
theorem evaluation_atomic (ha : t.item? a = some i) (hb : t.item? b = some j) (op : Arithmetic)
    (line : Nat) :
    Atomic (fun t => t.fold op a b line) t line a (op.Accepts i j)
      (fun r => ∃ x ∈ i.value?, ∃ y ∈ j.value?,
        r.toInt ≡ op.exact x.toInt y.toInt [ZMOD 2 ^ 32]) ∧
    Atomic (fun t => t.reset a b line) t line b (i.isSymbol ∧ j.isVariable)
      (fun r => i.value? = some r) ∧
    (a ≠ b → i.isVariable → j.isSymbol → ∀ n : Nat, ∃ u r, additions a b line n t = .ok u ∧
      Writes t u a r ∧ ∃ x ∈ i.value?, ∃ y ∈ j.value?,
        r.toInt ≡ x.toInt + n * y.toInt [ZMOD 2 ^ 32]) := by
  refine ⟨fold_atomic ha hb op line, reset_atomic ha hb line, ?_⟩
  intro hab hi hj n
  rcases Item.isVariable_iff.1 hi with ⟨c, rfl, hvar⟩
  rcases Item.isSymbol_iff.1 hj with ⟨d, rfl⟩
  rcases additions_writes hab ha hvar hb line n with ⟨u, r, hrun, hu, hr⟩
  exact ⟨u, r, hrun, hu, c.value, rfl, d.value, rfl, hr⟩

/-- A variable with the largest value there is, and the constant one. -/
def brimful : ScopeTree :=
  (empty.push 0 (.symbol ⟨.var, "x", 2147483647⟩)).push 0 (.symbol ⟨.const, "one", 1⟩)

/-- One more than the largest value is the smallest. The constant cannot be reset
    to it, and nine additions of the constant are one addition of nine. -/
theorem evaluation_atomic_brimful :
    brimful.item? ⟨0, 0⟩ = some (.symbol ⟨.var, "x", 2147483647⟩) ∧
    brimful.item? ⟨0, 1⟩ = some (.symbol ⟨.const, "one", 1⟩) ∧
    (∃ u, attempt (fun t => t.fold .addImm ⟨0, 0⟩ ⟨0, 1⟩ 3) brimful = (.ok (-2147483648), u) ∧
      Writes brimful u ⟨0, 0⟩ (-2147483648)) ∧
    (∃ cause, attempt (fun t => t.reset ⟨0, 0⟩ ⟨0, 1⟩ 3) brimful =
      (.error (.onLine 3 (.typing cause)), brimful)) ∧
    ∃ u r, additions ⟨0, 0⟩ ⟨0, 1⟩ 3 9 brimful = .ok u ∧ Writes brimful u ⟨0, 0⟩ r ∧
      r.toInt ≡ 2147483647 + 9 * 1 [ZMOD 2 ^ 32] := by
  have hx : brimful.item? ⟨0, 0⟩ = some (.symbol ⟨.var, "x", 2147483647⟩) := rfl
  have hone : brimful.item? ⟨0, 1⟩ = some (.symbol ⟨.const, "one", 1⟩) := rfl
  rcases evaluation_atomic hx hone .addImm 3 with ⟨hfold, hreset, hadd⟩
  refine ⟨hx, hone, ?_, hreset.refuses (by decide), ?_⟩
  · exact ⟨_, rfl, (hfold.writes (-2147483648) _ rfl).2⟩
  · rcases hadd (by decide) rfl rfl 9 with ⟨u, r, hrun, hu, x, hx, y, hy, hr⟩
    cases hx
    cases hy
    exact ⟨u, r, hrun, hu, hr⟩

end ScopeTree

end UnrollAsm
