import UnrollAsm.Proofs.Outcome
import UnrollAsm.Proofs.Tree.Access

/-!
# What Evaluation Does

An operation and a reset look at the items at their two addresses before they write
anything, so what they do can be told from these items. If the items are of the right
sort, a value is written to a variable; and for each of the ways in which they can be
of the wrong sort there is a complaint, the first that applies.

## Main definitions

* `Item.isSymbol`, `Item.isVariable`: The sorts of items.

## Theorems

* `ScopeTree.fold_eq`: An operation on two symbols.
* `ScopeTree.reset_of_variable`: A reset of a variable.
* `ScopeTree.fold_eq_ok`, `ScopeTree.reset_eq_ok`: When they succeed, and how.
-/

namespace UnrollAsm

/-- The item is a symbol. -/
def Item.isSymbol (i : Item) : Bool :=
  i.symbol?.isSome

/-- The item is a variable. -/
def Item.isVariable (i : Item) : Bool :=
  i.symbol?.any Symbol.isVar

theorem Item.isSymbol_iff {i : Item} : i.isSymbol = true ↔ ∃ c, i = .symbol c := by
  cases i <;> simp [isSymbol, symbol?]

theorem Item.isVariable_iff {i : Item} :
    i.isVariable = true ↔ ∃ c, i = .symbol c ∧ c.isVar = true := by
  cases i <;> simp [isVariable, symbol?]

namespace ScopeTree

variable {t u : ScopeTree} {a b : Address} {i j : Item} {c d : Symbol} {op : Arithmetic}
  {line : Nat} {x : Int32}

/-! ## Arithmetic -/

/-- An operation on two symbols. -/
theorem fold_eq (hc : t.item? a = some (.symbol c)) (hd : t.item? b = some (.symbol d))
    (op : Arithmetic) (line : Nat) :
    t.fold op a b line =
      if ¬ c.isVar then .error (.onLine line (.typing (.notVariable (.symbol c))))
      else if d.isVar ∧ op.requiresConst then
        .error (.onLine line (.typing (.notConstant op (.symbol d))))
      else
        .ok (op.apply c.value d.value,
          t.setItem a (.symbol { c with value := op.apply c.value d.value })) := by
  unfold fold
  rw [item_eq_ok hc, item_eq_ok hd]
  rfl

/-- An operation asks for its first operand before it looks at the second. -/
theorem fold_of_not_variable (ha : t.item? a = some i) (hi : ¬ i.isVariable = true)
    (op : Arithmetic) (b : Address) (line : Nat) :
    t.fold op a b line = typeError line (.notVariable i) := by
  unfold fold
  rw [item_eq_ok ha]
  cases i with
  | symbol c => exact if_pos hi
  | instruction _ => rfl
  | loop _ => rfl

theorem fold_of_variable (hc : t.item? a = some (.symbol c)) (hvar : c.isVar = true)
    (op : Arithmetic) (b : Address) (line : Nat) :
    t.fold op a b line = orFault (t.item b) >>= fun j =>
      match j with
      | .symbol d =>
        if d.isVar ∧ op.requiresConst then typeError line (.notConstant op (.symbol d))
        else
          let result := op.apply c.value d.value
          return (result, t.setItem a (.symbol { c with value := result }))
      | j => typeError line (.operandNotSymbol j) := by
  unfold fold
  rw [item_eq_ok hc]
  exact if_neg (not_not_intro hvar)

theorem fold_of_not_symbol (hc : t.item? a = some (.symbol c)) (hvar : c.isVar = true)
    (hb : t.item? b = some j) (hj : ¬ j.isSymbol = true) (op : Arithmetic) (line : Nat) :
    t.fold op a b line = typeError line (.operandNotSymbol j) := by
  rw [fold_of_variable hc hvar, item_eq_ok hb]
  cases j with
  | symbol d => exact absurd rfl hj
  | instruction _ => rfl
  | loop _ => rfl

/-- When an operation succeeds, and what it does then. -/
theorem fold_eq_ok : t.fold op a b line = .ok (x, u) ↔
    ∃ c d, t.item? a = some (.symbol c) ∧ t.item? b = some (.symbol d) ∧ c.isVar = true ∧
      ¬ (d.isVar = true ∧ op.requiresConst = true) ∧ x = op.apply c.value d.value ∧
      u = t.setItem a (.symbol { c with value := x }) := by
  constructor
  · intro h
    have hfirst : ∃ i, t.item? a = some i := by
      unfold fold at h
      rcases exists_of_bind_eq_ok h with ⟨i, hi, -⟩
      exact ⟨i, item?_of_orFault hi⟩
    rcases hfirst with ⟨i, ha⟩
    by_cases hi : i.isVariable = true
    · rcases Item.isVariable_iff.1 hi with ⟨c, rfl, hvar⟩
      have hrest := h
      rw [fold_of_variable ha hvar] at hrest
      rcases exists_of_bind_eq_ok hrest with ⟨j, hj, -⟩
      have hb := item?_of_orFault hj
      by_cases hsymbol : j.isSymbol = true
      · rcases Item.isSymbol_iff.1 hsymbol with ⟨d, rfl⟩
        rw [fold_eq ha hb, if_neg (not_not_intro hvar)] at h
        split at h
        · cases h
        · rename_i hd
          cases h
          exact ⟨c, d, ha, hb, hvar, hd, rfl, rfl⟩
      · rw [fold_of_not_symbol ha hvar hb hsymbol] at h
        cases h
    · rw [fold_of_not_variable ha hi] at h
      cases h
  · rintro ⟨c, d, hc, hd, hvar, hconst, rfl, rfl⟩
    rw [fold_eq hc hd, if_neg (not_not_intro hvar), if_neg hconst]

/-- Arithmetic writes to its first operand, which it has found to be a variable. -/
theorem fold_writes (h : t.fold op a b line = .ok (x, u)) :
    ∃ c, t.item? a = some (.symbol c) ∧ c.isVar ∧
      u = t.setItem a (.symbol { c with value := x }) := by
  rcases fold_eq_ok.1 h with ⟨c, -, hc, -, hvar, -, -, hu⟩
  exact ⟨c, hc, hvar, hu⟩

/-! ## Resets -/

/-- A reset asks for the value first. -/
theorem reset_of_not_symbol (ha : t.item? a = some i) (hi : ¬ i.isSymbol = true) (b : Address)
    (line : Nat) : t.reset a b line = typeError line (.notSymbol i) := by
  unfold reset valueOf
  rw [item_eq_ok ha]
  cases i with
  | symbol c => exact absurd rfl hi
  | instruction _ => rfl
  | loop _ => rfl

theorem reset_of_not_variable (hc : t.item? a = some (.symbol c)) (hb : t.item? b = some j)
    (hj : ¬ j.isVariable = true) (line : Nat) :
    t.reset a b line = typeError line (.notResettable j) := by
  unfold reset
  rw [valueOf_eq hc, item_eq_ok hb]
  cases j with
  | symbol d =>
      have hset : d.set? c.value = none := if_neg hj
      simp only [bind, Except.bind, orFault, Except.mapError, hset]
  | instruction _ => rfl
  | loop _ => rfl

/-- A reset of a variable. -/
theorem reset_of_variable (hc : t.item? a = some (.symbol c)) (hd : t.item? b = some (.symbol d))
    (hvar : d.isVar = true) (line : Nat) :
    t.reset a b line = .ok (c.value, t.setItem b (.symbol { d with value := c.value })) := by
  have hset : d.set? c.value = some { d with value := c.value } := if_pos hvar
  unfold reset
  rw [valueOf_eq hc, item_eq_ok hd]
  simp only [bind, Except.bind, orFault, Except.mapError, hset]
  rfl

/-- When a reset succeeds, and what it does then. -/
theorem reset_eq_ok : t.reset a b line = .ok (x, u) ↔
    ∃ c d, t.item? a = some (.symbol c) ∧ t.item? b = some (.symbol d) ∧ d.isVar = true ∧
      x = c.value ∧ u = t.setItem b (.symbol { d with value := x }) := by
  constructor
  · intro h
    have hitems : ∃ i j, t.item? a = some i ∧ t.item? b = some j := by
      unfold reset valueOf at h
      rcases exists_of_bind_eq_ok h with ⟨value, hvalue, hrest⟩
      rcases exists_of_bind_eq_ok hvalue with ⟨i, hi, -⟩
      rcases exists_of_bind_eq_ok hrest with ⟨j, hj, -⟩
      exact ⟨i, j, item?_of_orFault hi, item?_of_orFault hj⟩
    rcases hitems with ⟨i, j, ha, hb⟩
    by_cases hi : i.isSymbol = true
    · rcases Item.isSymbol_iff.1 hi with ⟨c, rfl⟩
      by_cases hj : j.isVariable = true
      · rcases Item.isVariable_iff.1 hj with ⟨d, rfl, hvar⟩
        rw [reset_of_variable ha hb hvar] at h
        cases h
        exact ⟨c, d, ha, hb, hvar, rfl, rfl⟩
      · rw [reset_of_not_variable ha hb hj] at h
        cases h
    · rw [reset_of_not_symbol ha hi] at h
      cases h
  · rintro ⟨c, d, hc, hd, hvar, rfl, rfl⟩
    exact reset_of_variable hc hd hvar line

/-- A reset writes to its target, which it has found to be a variable. -/
theorem reset_writes (h : t.reset a b line = .ok (x, u)) :
    ∃ c, t.item? b = some (.symbol c) ∧ c.isVar ∧
      u = t.setItem b (.symbol { c with value := x }) := by
  rcases reset_eq_ok.1 h with ⟨-, d, -, hd, hvar, -, hu⟩
  exact ⟨d, hd, hvar, hu⟩

end ScopeTree

end UnrollAsm
