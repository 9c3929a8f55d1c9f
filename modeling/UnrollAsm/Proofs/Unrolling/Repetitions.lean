import Mathlib.Algebra.BigOperators.Group.List.Basic
import UnrollAsm.Proofs.Unrolling.Trace

/-!
# How Often an Instruction Is Carried Out

If no loop has bounds that can change, the list of what is carried out can be
counted. An address occurs in it once for every combination of trips of the loops
around it. Going into a loop multiplies by its number of trips; and of all the
items of a scope there is only one that an address can be at or inside of, so
nothing else adds to the number.

The same fact tells where in the list an address occurs: what comes from the
items in front of some item is in front of what comes from the item.

## Main definitions

* `ScopeTree.tripsAt`: The number of trips that the bounds of a loop say.
* `ScopeTree.enclosing`, `ScopeTree.repetitions`: The loops around a scope, and
  the product of their trips.
* `At`: An address is at an item, or inside the loop there.

## Theorems

* `At.unique`: An address is at one item of a scope only.
* `Unrolls.split`: What is carried out before an item, for it, and behind it.
* `Unrolls.count`: The product of the trips is how often an instruction occurs.
-/

namespace UnrollAsm

namespace ScopeTree

/-- The number of trips that the bounds of a loop say, with the values that its
    operands have. -/
def tripsAt (t : ScopeTree) (c : ScopeId) : Nat :=
  match t.boundsAt c with
  | .ok (some b) => b.tripCount?.getD 0
  | _ => 0

/-- The loops around a scope by their bodies, innermost first, up to a number of
    levels. The scope itself counts if it is the body of a loop. -/
def enclosing (t : ScopeTree) : (levels : Nat) → ScopeId → List ScopeId
  | 0, _ => []
  | levels + 1, s =>
    match t.parentAt s with
    | none => []
    | some p => s :: t.enclosing levels p

/-- The product of the trips of all loops around a scope. -/
def repetitions (t : ScopeTree) (s : ScopeId) : Nat :=
  ((t.enclosing t.size s).map t.tripsAt).prod

end ScopeTree

/-- The address `m` is `a`, or lies inside the loop that is marked there. -/
def At (t : ScopeTree) (a m : Address) : Prop :=
  m = a ∨ ∃ c, t.item? a = some (.loop c) ∧ Contains t c m.scope

/-! ## Around a scope -/

section Around

variable {t : ScopeTree}

theorem enclosing_some {s p : Nat} (hp : t.parentAt s = some p) (levels : Nat) :
    t.enclosing (levels + 1) s = s :: t.enclosing levels p := by
  rw [ScopeTree.enclosing]
  simp only [hp]

theorem enclosing_none {s : Nat} (hp : t.parentAt s = none) (levels : Nat) :
    t.enclosing levels s = [] := by
  cases levels with
  | zero => rfl
  | succ levels =>
      rw [ScopeTree.enclosing]
      simp only [hp]

theorem Rooted.enclosing_eq (ht : Rooted t) {levels levels' s : Nat} (h : s < levels)
    (h' : s < levels') : t.enclosing levels s = t.enclosing levels' s := by
  induction levels generalizing levels' s with
  | zero => omega
  | succ levels ih =>
      rcases levels' with _ | levels'
      · omega
      cases hp : t.parentAt s with
      | none => rw [enclosing_none hp, enclosing_none hp]
      | some p =>
          have hlt := ht.older s p hp
          have hrest : t.enclosing levels p = t.enclosing levels' p := ih (by omega) (by omega)
          rw [enclosing_some hp, enclosing_some hp, hrest]

theorem Rooted.repetitions_root (ht : Rooted t) : t.repetitions 0 = 1 := by
  have hnone : t.parentAt 0 = none := by
    cases hp : t.parentAt 0 with
    | none => rfl
    | some p => exact absurd (ht.older 0 p hp) (Nat.not_lt_zero p)
  unfold ScopeTree.repetitions
  rw [enclosing_none hnone]
  rfl

-- Going into a loop multiplies by its trips.
theorem Rooted.repetitions_body (ht : Rooted t) {s c : Nat} (hc : t.parentAt c = some s) :
    t.repetitions c = t.tripsAt c * t.repetitions s := by
  have hlt := ht.older c s hc
  have hsize := ScopeTree.lt_size_of_parentAt hc
  unfold ScopeTree.repetitions
  have hstep : t.enclosing t.size c = c :: t.enclosing t.size s := by
    rw [ht.enclosing_eq hsize (Nat.lt_succ_of_lt hsize), enclosing_some hc]
  rw [hstep, List.map_cons, List.prod_cons]

theorem Rooted.le_of_contains (ht : Rooted t) {s r : Nat} (h : Contains t s r) : s ≤ r := by
  induction h with
  | refl => exact Nat.le_refl s
  | tail _ hparent ih => exact Nat.le_trans ih (Nat.le_of_lt (ht.older _ _ hparent))

-- The scopes around a scope are nested in each other.
theorem Contains.total {s s' r : Nat} (h : Contains t s r) (h' : Contains t s' r) :
    Contains t s s' ∨ Contains t s' s := by
  have hright : Relator.RightUnique (Function.swap fun p c : Nat => t.parentAt c = some p) := by
    intro c p q hp hq
    exact Option.some.inj (hp.symm.trans hq)
  rcases Relation.ReflTransGen.total_of_right_unique hright
    (Relation.reflTransGen_swap.2 h) (Relation.reflTransGen_swap.2 h') with hs | hs
  · exact Or.inr (Relation.reflTransGen_swap.1 hs)
  · exact Or.inl (Relation.reflTransGen_swap.1 hs)

/-- Bodies of different loops in one scope have nothing in common. -/
theorem Rooted.sibling_eq (ht : Rooted t) {s c c' r : Nat} (hc : t.parentAt c = some s)
    (hc' : t.parentAt c' = some s) (h : Contains t c r) (h' : Contains t c' r) : c = c' := by
  have hstrict : ∀ {b b' : Nat}, t.parentAt b = some s → t.parentAt b' = some s →
      Contains t b b' → b = b' := by
    intro b b' hb hb' hin
    rcases Relation.ReflTransGen.cases_tail hin with heq | ⟨p, hp, hparent⟩
    · exact heq.symm
    · -- The scope around the second lies outside the first.
      rw [hb'] at hparent
      cases hparent
      have hle := ht.le_of_contains hp
      have hlt := ht.older b s hb
      omega
  rcases h.total h' with hin | hin
  · exact hstrict hc hc' hin
  · exact (hstrict hc' hc hin).symm

-- A marker stands in one place only.
theorem WellFormed.marker_unique (ht : WellFormed t) {c s k k' : Nat}
    (hc : t.parentAt c = some s) (hk : t.item? ⟨s, k⟩ = some (.loop c))
    (hk' : t.item? ⟨s, k'⟩ = some (.loop c)) : k = k' := by
  rcases ht.exists_body hc with ⟨m, hbody⟩
  have heq := ((hbody.marker _).1 hk).trans ((hbody.marker _).1 hk').symm
  exact congrArg Address.index heq

theorem Rooted.parentAt_of_marker (ht : Rooted t) {s k c : Nat}
    (hk : t.item? ⟨s, k⟩ = some (.loop c)) : t.parentAt c = some s := by
  rw [ScopeTree.item?_eq] at hk
  exact ht.linked s c (List.mem_of_getElem? hk)

/-- An address is at one item of a scope only. -/
theorem At.unique (ht : WellFormed t) (hrooted : Rooted t) {s k k' : Nat} {m : Address}
    (h : At t ⟨s, k⟩ m) (h' : At t ⟨s, k'⟩ m) : k = k' := by
  -- What is inside a loop is not in the scope around it.
  have houtside : ∀ {j c : Nat}, t.item? ⟨s, j⟩ = some (.loop c) → ¬ Contains t c s := by
    intro j c hj hin
    have hle := hrooted.le_of_contains hin
    have hlt := hrooted.older c s (hrooted.parentAt_of_marker hj)
    omega
  rcases h with rfl | ⟨c, hc, hin⟩
  · rcases h' with heq | ⟨c, hc, hin⟩
    · exact congrArg Address.index heq
    · exact absurd hin (houtside hc)
  · rcases h' with rfl | ⟨c', hc', hin'⟩
    · exact absurd hin (houtside hc)
    · have hparent := hrooted.parentAt_of_marker hc
      obtain rfl := hrooted.sibling_eq hparent (hrooted.parentAt_of_marker hc') hin hin'
      exact ht.marker_unique hparent hc hc'

end Around

/-! ## Parts -/

-- The parts in front of that of an item, and behind it.
theorem exists_split {R : Item × Nat → List Address → Prop} {items : List Item}
    {parts : List (List Address)} {n : Nat} (h : List.Forall₂ R (items.zipIdx n) parts) {k : Nat}
    {item : Item} (hk : items[k]? = some item) :
    ∃ front part back, parts = front ++ part :: back ∧ R (item, n + k) part ∧
      (∀ p ∈ front, ∃ j x, j < k ∧ items[j]? = some x ∧ R (x, n + j) p) ∧
      ∀ p ∈ back, ∃ j x, k < j ∧ items[j]? = some x ∧ R (x, n + j) p := by
  induction items generalizing n k parts with
  | nil => cases hk
  | cons first rest ih =>
      rw [List.zipIdx_cons] at h
      rcases h with _ | ⟨hfirst, hrest⟩
      rename_i p ps
      cases k with
      | zero =>
          cases hk
          refine ⟨[], p, ps, rfl, hfirst, fun q hq => (by cases hq), fun q hq => ?_⟩
          rcases exists_of_forall₂ hrest.flip hq with ⟨⟨x, i⟩, hx, hR⟩
          rcases List.mem_zipIdx_iff_le_and_getElem?_sub.1 hx with ⟨hle, hget⟩
          refine ⟨i - n, x, by omega, ?_, ?_⟩
          · rw [show i - n = i - (n + 1) + 1 by omega]
            exact hget
          · rw [show n + (i - n) = i by omega]
            exact hR
      | succ k =>
          rcases ih hrest hk with ⟨front, part, back, rfl, hpart, hfront, hback⟩
          refine ⟨p :: front, part, back, rfl, ?_, fun q hq => ?_, fun q hq => ?_⟩
          · rwa [Nat.add_assoc, Nat.add_comm 1 k] at hpart
          · rcases List.mem_cons.1 hq with rfl | hq
            · exact ⟨0, first, Nat.zero_lt_succ k, rfl, hfirst⟩
            · rcases hfront q hq with ⟨j, x, hj, hx, hR⟩
              refine ⟨j + 1, x, Nat.succ_lt_succ hj, hx, ?_⟩
              rwa [Nat.add_assoc, Nat.add_comm 1 j] at hR
          · rcases hback q hq with ⟨j, x, hj, hx, hR⟩
            refine ⟨j + 1, x, Nat.succ_lt_succ hj, hx, ?_⟩
            rwa [Nat.add_assoc, Nat.add_comm 1 j] at hR

section Unrolls

variable {t : ScopeTree} {depth s : Nat} {l : List Address}

-- What is gone through inside a scope stands there.
theorem Unrolls.contains (hrooted : Rooted t) (h : Unrolls t depth s l) {m : Address}
    (hm : m ∈ l) : Contains t s m.scope := by
  induction depth generalizing s l with
  | zero => exact h.elim
  | succ depth ih =>
      rcases h with ⟨parts, rfl, hparts⟩
      rcases List.mem_flatten.1 hm with ⟨part, hpart, hm⟩
      rcases exists_of_forall₂ hparts.flip hpart with ⟨⟨item, k⟩, hitem, hpart⟩
      have hk : t.item? ⟨s, k⟩ = some item := by
        rw [ScopeTree.item?_eq]
        exact List.mem_zipIdx_iff_getElem?.1 hitem
      cases item with
      | symbol _ =>
          obtain rfl : part = [] := hpart
          cases hm
      | instruction _ =>
          obtain rfl : part = [⟨s, k⟩] := hpart
          cases List.mem_singleton.1 hm
          exact .refl
      | loop c =>
          rcases hpart with ⟨trips, rfl, htrips, -⟩
          rcases List.mem_flatten.1 hm with ⟨trip, htrip, hm⟩
          exact .head (hrooted.parentAt_of_marker hk) (ih (htrips trip htrip) hm)

theorem IsPart.at (hrooted : Rooted t) {k : Nat} {item : Item} {part : List Address}
    (h : IsPart t (Unrolls t depth) s (item, k) part) (hk : t.item? ⟨s, k⟩ = some item)
    {m : Address} (hm : m ∈ part) : At t ⟨s, k⟩ m := by
  cases item with
  | symbol _ =>
      obtain rfl : part = [] := h
      cases hm
  | instruction _ =>
      obtain rfl : part = [⟨s, k⟩] := h
      exact Or.inl (List.mem_singleton.1 hm)
  | loop c =>
      rcases h with ⟨trips, rfl, htrips, -⟩
      rcases List.mem_flatten.1 hm with ⟨trip, htrip, hm⟩
      exact Or.inr ⟨c, hk, (htrips trip htrip).contains hrooted hm⟩

/-- What is carried out before an item of a scope, for the item, and behind it. -/
theorem Unrolls.split (hrooted : Rooted t) (h : Unrolls t (depth + 1) s l) {k : Nat} {item : Item}
    (hk : t.item? ⟨s, k⟩ = some item) :
    ∃ front part back, l = front ++ (part ++ back) ∧
      IsPart t (Unrolls t depth) s (item, k) part ∧
      (∀ m ∈ front, ∃ j, j < k ∧ At t ⟨s, j⟩ m) ∧ ∀ m ∈ back, ∃ j, k < j ∧ At t ⟨s, j⟩ m := by
  rcases h with ⟨parts, rfl, hparts⟩
  have hk' := hk
  rw [ScopeTree.item?_eq] at hk'
  rcases exists_split hparts hk' with ⟨front, part, back, rfl, hpart, hfront, hback⟩
  simp only [Nat.zero_add] at hpart hfront hback
  refine ⟨front.flatten, part, back.flatten, ?_, hpart, fun m hm => ?_, fun m hm => ?_⟩
  · rw [List.flatten_append, List.flatten_cons]
  · rcases List.mem_flatten.1 hm with ⟨p, hp, hm⟩
    rcases hfront p hp with ⟨j, x, hj, hx, hR⟩
    exact ⟨j, hj, hR.at hrooted ((ScopeTree.item?_eq t _).trans hx) hm⟩
  · rcases List.mem_flatten.1 hm with ⟨p, hp, hm⟩
    rcases hback p hp with ⟨j, x, hj, hx, hR⟩
    exact ⟨j, hj, hR.at hrooted ((ScopeTree.item?_eq t _).trans hx) hm⟩

-- Nothing but the item that an address is at contributes to it.
theorem Unrolls.count_part (ht : WellFormed t) (hrooted : Rooted t)
    (h : Unrolls t (depth + 1) s l) {k : Nat} {item : Item} (hk : t.item? ⟨s, k⟩ = some item)
    {m : Address} (hm : At t ⟨s, k⟩ m) :
    ∃ part, IsPart t (Unrolls t depth) s (item, k) part ∧ l.count m = part.count m := by
  rcases h.split hrooted hk with ⟨front, part, back, rfl, hpart, hfront, hback⟩
  refine ⟨part, hpart, ?_⟩
  have hfront' : front.count m = 0 := by
    refine List.count_eq_zero.2 fun hmem => ?_
    rcases hfront m hmem with ⟨j, hj, hat⟩
    exact absurd (hat.unique ht hrooted hm) (Nat.ne_of_lt hj)
  have hback' : back.count m = 0 := by
    refine List.count_eq_zero.2 fun hmem => ?_
    rcases hback m hmem with ⟨j, hj, hat⟩
    exact absurd (hat.unique ht hrooted hm) (Nat.ne_of_gt hj)
  rw [List.count_append, List.count_append, hfront', hback', Nat.zero_add, Nat.add_zero]

/-- If the bounds of loops cannot change, an instruction is carried out once for
    every combination of trips of the loops between the scope and it. -/
theorem Unrolls.count (ht : WellFormed t) (hrooted : Rooted t)
    (hsteady : ∀ (c : Nat) h, t.headerAt c = some h →
      ∃ b, Steady t h b ∧ b.tripCount? = some (t.tripsAt c))
    (h : Unrolls t depth s l) {m : Address} {i : Instruction}
    (hm : t.item? m = some (.instruction i)) (hin : Contains t s m.scope) :
    t.repetitions s * l.count m = t.repetitions m.scope := by
  induction depth generalizing s l with
  | zero => exact h.elim
  | succ depth ih =>
      rcases Relation.ReflTransGen.cases_head hin with hscope | ⟨c, hc, hin'⟩
      · -- The instruction stands in the scope itself.
        rcases m with ⟨r, k⟩
        obtain rfl : s = r := hscope
        rcases h.count_part ht hrooted hm (Or.inl rfl) with ⟨part, hpart, hcount⟩
        obtain rfl : part = [⟨s, k⟩] := hpart
        rw [hcount, List.count_singleton_self, Nat.mul_one]
      · rcases ht.exists_marker hc with ⟨k, hk⟩
        rcases h.count_part ht hrooted hk (Or.inr ⟨c, hk, hin'⟩) with
          ⟨part, ⟨trips, rfl, htrips, hpos, htripCount⟩, hcount⟩
        have hlength : trips.length = t.tripsAt c := by
          rcases ht.exists_body hc with ⟨_, hbody⟩
          rcases hbody.header with ⟨header, hheader, -⟩
          rcases hsteady c header hheader with ⟨b, hb, htripsAt⟩
          have := htripCount header b hheader hb
          rw [htripsAt, Option.some.injEq] at this
          exact this.symm
        -- Every trip has the same share, and there are as many as the bounds say.
        have hsum : ∀ ts : List (List Address), (∀ trip ∈ ts, Unrolls t depth c trip) →
            t.repetitions c * ts.flatten.count m = ts.length * t.repetitions m.scope := by
          intro ts hts
          induction ts with
          | nil => simp only [List.flatten_nil, List.count_nil, List.length_nil, Nat.mul_zero,
              Nat.zero_mul]
          | cons trip rest ihrest =>
              rw [List.flatten_cons, List.count_append, Nat.mul_add,
                ih (hts trip List.mem_cons_self) hin',
                ihrest fun x hx => hts x (List.mem_cons_of_mem _ hx), List.length_cons,
                Nat.add_mul, Nat.one_mul, Nat.add_comm]
        have htotal := hsum trips htrips
        rw [hrooted.repetitions_body hc, ← hlength, Nat.mul_assoc] at htotal
        rw [hcount]
        exact Nat.eq_of_mul_eq_mul_left hpos htotal

end Unrolls

end UnrollAsm
