import Mathlib.Data.List.Forall2
import UnrollAsm.Proofs.Pass

/-!
# Two Runs Side by Side

A pass may be run twice, from two states or on two inputs, and the question is
what the runs have in common. A `Mirror` says by what they are compared: the
trees, what the passes keep beside them, and the failures. The logs are left out
of the comparison, since no pass reads its own log.

Two actions reflect each other if they do so from all states that are alike. They
succeed together, with results that belong to each other, or fail together, and
the states are alike again either way. Because nothing is said about particular
states, actions in a row and actions over lists need no more than their parts.

## Main definitions

* `Mirror`: What two runs are compared by.
* `Mirror.Shows`: Two states are alike.
* `Mirror.Matches`: Two outcomes belong to each other.
* `Mirror.Reflects`: Two actions come to the same, up to the mirror.

## Theorems

* `Mirror.Matches.bind`, `Mirror.Reflects.bind`: Questions and actions in a row.
* `Mirror.Reflects.mapM`, `Mirror.Reflects.forM`: Actions over lists.
* `Mirror.Reflects.ask`, `Mirror.Reflects.change`: Actions on the tree.
-/

namespace UnrollAsm

/-- What two runs are compared by: their trees, what they keep beside the tree,
    and their failures. -/
structure Mirror (σ τ : Type) where
  tree : ScopeTree → ScopeTree → Prop
  own : σ → τ → Prop
  failure : Failure → Failure → Prop

namespace Mirror

variable {σ τ α β γ δ : Type}

/-- Two states are alike, whatever has been noted in them. -/
structure Shows (M : Mirror σ τ) (w : Work σ) (v : Work τ) : Prop where
  tree : M.tree w.tree v.tree
  own : M.own w.own v.own

/-- Two outcomes belong to each other: both are results or both are failures. -/
def Matches (M : Mirror σ τ) (R : α → β → Prop) : Except Failure α → Except Failure β → Prop
  | .ok a, .ok b => R a b
  | .error e, .error e' => M.failure e e'
  | _, _ => False

/-- In states that are alike, two actions come to outcomes that belong to each
    other, and leave states that are alike. -/
def Reflects (M : Mirror σ τ) (R : α → β → Prop) (m : PassM σ α) (n : PassM τ β) : Prop :=
  ∀ w v, M.Shows w v →
    M.Matches R (m.exec w).1 (n.exec v).1 ∧ M.Shows (m.exec w).2 (n.exec v).2

namespace Matches

variable {M : Mirror σ τ} {R : α → β → Prop} {r : Except Failure α} {q : Except Failure β}

-- An outcome belongs to itself.
theorem refl {R : α → α → Prop} (hfailure : ∀ e, M.failure e e) (hR : ∀ a, R a a)
    (r : Except Failure α) : M.Matches R r r := by
  cases r with
  | error e => exact hfailure e
  | ok a => exact hR a

theorem mono {R' : α → β → Prop} (h : M.Matches R r q) (hR : ∀ a b, R a b → R' a b) :
    M.Matches R' r q := by
  cases r with
  | error e => cases q with
      | error e' => exact h
      | ok b => exact h.elim
  | ok a => cases q with
      | error e' => exact h.elim
      | ok b => exact hR a b h

theorem bind {R' : γ → δ → Prop} {f : α → Except Failure γ} {g : β → Except Failure δ}
    (h : M.Matches R r q) (hf : ∀ a b, R a b → M.Matches R' (f a) (g b)) :
    M.Matches R' (r >>= f) (q >>= g) := by
  cases r with
  | error e => cases q with
      | error e' => exact h
      | ok b => exact h.elim
  | ok a => cases q with
      | error e' => exact h.elim
      | ok b => exact hf a b h

-- The same, if the first results are equal.
theorem next {R' : γ → δ → Prop} {q : Except Failure α} {f : α → Except Failure γ}
    {g : α → Except Failure δ} (h : M.Matches Eq r q) (hf : ∀ a, M.Matches R' (f a) (g a)) :
    M.Matches R' (r >>= f) (q >>= g) := by
  refine h.bind ?_
  rintro a _ rfl
  exact hf a

end Matches

namespace Reflects

open PassM

variable {M : Mirror σ τ} {R : α → β → Prop} {m : PassM σ α} {n : PassM τ β}

theorem pure {a : α} {b : β} (h : R a b) :
    M.Reflects R (Pure.pure a : PassM σ α) (Pure.pure b : PassM τ β) :=
  fun _ _ hwv => ⟨h, hwv⟩

theorem throw {e e' : Failure} (h : M.failure e e') :
    M.Reflects R (MonadExcept.throw e : PassM σ α) (MonadExcept.throw e' : PassM τ β) :=
  fun _ _ hwv => ⟨h, hwv⟩

/-- Actions in a row. -/
theorem bind {R' : γ → δ → Prop} {f : α → PassM σ γ} {g : β → PassM τ δ}
    (h : M.Reflects R m n) (hf : ∀ a b, R a b → M.Reflects R' (f a) (g b)) :
    M.Reflects R' (m >>= f) (n >>= g) := by
  intro w v hwv
  have hmn := h w v hwv
  rw [exec_bind, exec_bind]
  rcases hm : m.exec w with ⟨r, w'⟩
  rcases hn : n.exec v with ⟨q, v'⟩
  rw [hm, hn] at hmn
  rcases hmn with ⟨hmatch, hshows⟩
  cases r with
  | error e => cases q with
      | error e' => exact ⟨hmatch, hshows⟩
      | ok b => exact hmatch.elim
  | ok a => cases q with
      | error e' => exact hmatch.elim
      | ok b => exact hf a b hmatch w' v' hshows

-- The same, if the first results are equal.
theorem next {R' : γ → δ → Prop} {n : PassM τ α} {f : α → PassM σ γ} {g : α → PassM τ δ}
    (h : M.Reflects Eq m n) (hf : ∀ a, M.Reflects R' (f a) (g a)) :
    M.Reflects R' (m >>= f) (n >>= g) := by
  refine h.bind ?_
  rintro a _ rfl
  exact hf a

/-! ## Building blocks -/

theorem ofExcept {r : Except Failure α} {q : Except Failure β} (h : M.Matches R r q) :
    M.Reflects R (MonadExcept.ofExcept r : PassM σ α) (MonadExcept.ofExcept q : PassM τ β) := by
  intro w v hwv
  rw [exec_ofExcept, exec_ofExcept]
  exact ⟨h, hwv⟩

/-- The same is asked of trees that are alike. -/
theorem ask {query : ScopeTree → Except Failure α} {query' : ScopeTree → Except Failure β}
    (h : ∀ t u, M.tree t u → M.Matches R (query t) (query' u)) :
    M.Reflects R (PassM.ask query : PassM σ α) (PassM.ask query' : PassM τ β) := by
  intro w v hwv
  rw [exec_ask, exec_ask]
  exact ⟨h _ _ hwv.tree, hwv⟩

/-- Trees that are alike are changed in the same way. -/
theorem change {step : ScopeTree → Except Failure (α × ScopeTree)}
    {step' : ScopeTree → Except Failure (β × ScopeTree)}
    (h : ∀ t u, M.tree t u →
      M.Matches (fun x y => R x.1 y.1 ∧ M.tree x.2 y.2) (step t) (step' u)) :
    M.Reflects R (PassM.change step : PassM σ α) (PassM.change step' : PassM τ β) := by
  intro w v hwv
  have hstep := h _ _ hwv.tree
  rw [exec_change, exec_change]
  generalize step w.tree = r at hstep ⊢
  generalize step' v.tree = q at hstep ⊢
  cases r with
  | error e => cases q with
      | error e' => exact ⟨hstep, hwv⟩
      | ok y => exact hstep.elim
  | ok x => cases q with
      | error e' => exact hstep.elim
      | ok y => exact ⟨hstep.1, hstep.2, hwv.own⟩

theorem note (e e' : Event) :
    M.Reflects Eq (PassM.note e : PassM σ Unit) (PassM.note e' : PassM τ Unit) :=
  fun _ _ hwv => ⟨rfl, hwv.tree, hwv.own⟩

theorem own : M.Reflects M.own (PassM.own : PassM σ σ) (PassM.own : PassM τ τ) :=
  fun _ _ hwv => ⟨hwv.own, hwv⟩

theorem setOwn {f : σ → σ} {g : τ → τ} (h : ∀ a b, M.own a b → M.own (f a) (g b)) :
    M.Reflects Eq (PassM.setOwn f : PassM σ Unit) (PassM.setOwn g : PassM τ Unit) :=
  fun _ _ hwv => ⟨rfl, hwv.tree, h _ _ hwv.own⟩

/-! ## Lists -/

section Lists

variable {S : γ → δ → Prop} {xs : List γ} {ys : List δ}

theorem mapM {f : γ → PassM σ α} {g : δ → PassM τ β} (h : List.Forall₂ S xs ys)
    (hf : ∀ x y, S x y → M.Reflects R (f x) (g y)) :
    M.Reflects (List.Forall₂ R) (xs.mapM f) (ys.mapM g) := by
  induction h with
  | nil =>
      rw [List.mapM_nil, List.mapM_nil]
      exact pure .nil
  | cons hfirst _ ih =>
      rw [List.mapM_cons, List.mapM_cons]
      refine (hf _ _ hfirst).bind fun a b hab => ih.bind fun as bs hrest => ?_
      exact pure (.cons hab hrest)

theorem forM {f : γ → PassM σ Unit} {g : δ → PassM τ Unit} (h : List.Forall₂ S xs ys)
    (hf : ∀ x y, S x y → M.Reflects Eq (f x) (g y)) :
    M.Reflects Eq (xs.forM f) (ys.forM g) := by
  induction h with
  | nil => exact pure rfl
  | cons hfirst _ ih =>
      rw [List.forM_eq_forM, List.forM_cons, List.forM_eq_forM, List.forM_cons]
      exact (hf _ _ hfirst).bind fun _ _ _ => ih

theorem foldlM {f : α → γ → PassM σ α} {g : β → δ → PassM τ β} (h : List.Forall₂ S xs ys)
    (hf : ∀ a b x y, R a b → S x y → M.Reflects R (f a x) (g b y)) {a : α} {b : β}
    (hab : R a b) : M.Reflects R (xs.foldlM f a) (ys.foldlM g b) := by
  induction h generalizing a b with
  | nil => exact pure hab
  | cons hfirst _ ih =>
      rw [List.foldlM_cons, List.foldlM_cons]
      exact (hf a b _ _ hab hfirst).bind fun a' b' hab' => ih hab'

end Lists

end Reflects

end Mirror

end UnrollAsm
