import Mathlib.Data.Fintype.EquivFin
import UnrollAsm.Proofs.Outcome
import UnrollAsm.Proofs.Tree.Rooted
import UnrollAsm.Proofs.Tree.WellFormed

/-!
# What a Growing Tree Is Nested In

A tree grows by three calls: an item is appended, a scope is allocated, a loop is
opened. The scopes that they are given are just numbers, and a call goes through
if its number is one of the table. A new scope has its place in the table before
its parent is looked up there. So there is one number too many that is accepted,
the one that the new scope is about to get, and a scope that is made with it is
nested in itself.

Everything else is as it should be whatever the numbers are. The root has no
parent and every other scope has the one that it was made with, no younger than
itself, and it is known to that scope once and to no other. Hence the scopes are
a tree precisely if no call has named the scope that it makes.

What depends on this is the search for a name, which goes on to the parent for as
long as there is one. `Finds` is that search as it is, without a guard. In a tree
it ends everywhere; in a scope that is nested in itself it does not end for any
name that the scope does not hold.

## Main definitions

* `Growth`, `grow`: A call, and the tree that calls in a row make.
* `parents`: The parents that scopes were made with, in order.
* `Grown`: What every tree that has grown is like.
* `Finds`: The search for a name through the parents of a scope.
* `IsTree`, `NamesItself`: The scopes are a tree; a call has named its own scope.

## Theorems

* `Grown.perform`, `grown_of_grow`: What a call keeps, and calls in a row.
* `find_eq_ok_iff`: Look-up is the search, as long as no parent is younger.
* `finds_of_older`, `not_finds_of_self`: Where a search ends and where it does not.
* `grow_isTree_iff`: The scopes are a tree if no call has named its own scope,
  and only then.
-/

namespace UnrollAsm

namespace ScopeTree

/-! ## Allocating a scope -/

/-- The tree with one more scope, which its parent knows as its latest child. -/
def adopt (t : ScopeTree) (parent : ScopeId) (header : Option LoopHeader) : ScopeTree :=
  modify ⟨t.scopes.push (.fresh (some parent) header)⟩ parent fun scope =>
    { scope with children := scope.children.push t.size }

section Adopt

variable (t : ScopeTree) (p : ScopeId) (header : Option LoopHeader) (s : ScopeId)

@[simp] theorem size_adopt : (t.adopt p header).size = t.size + 1 := by
  unfold adopt
  rw [size_modify]
  exact Array.size_push _

/-- A view that takes a new scope for one that is not there does not show that the
    table has grown by it. -/
theorem view_grown {β : Type} (view : Option Scope → β) {scope : Scope}
    (hview : view (some scope) = view none) :
    view (t.scopes.push scope)[s]? = view t.scopes[s]? := by
  rw [Array.getElem?_push]
  split
  · rename_i hnew
    rw [hnew, Array.getElem?_eq_none (Nat.le_refl _)]
    exact hview
  · rfl

theorem parentAt_adopt :
    (t.adopt p header).parentAt s = if s = t.size then some p else t.parentAt s := by
  unfold adopt
  refine (parentAt_modify _ p s _ ?_).trans ?_
  · exact fun _ => rfl
  unfold parentAt
  rw [Array.getElem?_push]
  unfold size
  split
  · rfl
  · rfl

variable {t p} in
/-- The new scope itself may be the one that is told of it. -/
theorem childrenAt_adopt (hp : p ≤ t.size) :
    (t.adopt p header).childrenAt s =
      if p = s then t.childrenAt s ++ [t.size] else t.childrenAt s := by
  let grown : ScopeTree := ⟨t.scopes.push (.fresh (some p) header)⟩
  have hgrown : grown.childrenAt s = t.childrenAt s :=
    view_grown t s childrenOf rfl
  rw [← hgrown]
  unfold adopt childrenAt
  rw [scopes_modify]
  split
  · subst s
    have hlt : p < grown.size := by
      change p < (t.scopes.push _).size
      rw [Array.size_push]
      exact Nat.lt_succ_of_le hp
    rcases exists_scope hlt with ⟨scope, hscope⟩
    rw [hscope]
    exact Array.toList_push
  · rfl

/-- A scope is allocated if its parent is a scope or the scope itself. -/
theorem addChild_eq_ok {t u : ScopeTree} {p id : ScopeId} {header : Option LoopHeader} :
    t.addChild p header = .ok (id, u) ↔ p ≤ t.size ∧ id = t.size ∧ u = t.adopt p header := by
  have hsize : (t.scopes.push (.fresh (some p) header)).size = t.size + 1 := Array.size_push _
  unfold addChild
  rw [bind_eq_ok]
  constructor
  · rintro ⟨scope, hscope, h⟩
    cases h
    refine ⟨?_, rfl, rfl⟩
    unfold ScopeTree.scope at hscope
    split at hscope
    · rename_i hget
      exact Nat.le_of_lt_succ (Nat.lt_of_lt_of_eq (Array.getElem?_eq_some_iff.1 hget).1 hsize)
    · cases hscope
  · rintro ⟨hp, rfl, rfl⟩
    have hlt : p < (t.scopes.push (.fresh (some p) header)).size := by
      rw [hsize]
      exact Nat.lt_succ_of_le hp
    exact ⟨_, scope_eq_ok (Array.getElem?_eq_getElem hlt), rfl⟩

end Adopt

/-- An item is appended to a scope. -/
theorem add_eq_ok {t u : ScopeTree} {s : ScopeId} {i : Item} {a : Address}
    (h : t.add s i = .ok (a, u)) : u = t.push s i := by
  unfold ScopeTree.add at h
  rcases exists_of_bind_eq_ok h with ⟨scope, -, h⟩
  cases h
  rfl

end ScopeTree

/-! ## Calls -/

/-- A call that makes a tree grow. -/
inductive Growth where
  | add (s : ScopeId) (item : Item)
  | addChild (parent : ScopeId) (header : Option LoopHeader)
  | openLoop (parent : ScopeId) (header : LoopHeader)
  deriving DecidableEq, Repr

namespace Growth

/-- The tree after a call. -/
def perform (t : ScopeTree) : Growth → Except Fault ScopeTree
  | add s item => return (← t.add s item).2
  | addChild parent header => return (← t.addChild parent header).2
  | openLoop parent header => return (← t.openLoop parent header).2

/-- The parent that a call names for a new scope. -/
def parent? : Growth → Option ScopeId
  | add _ _ => none
  | addChild parent _ | openLoop parent _ => some parent

end Growth

/-- The tree that calls in a row make out of the empty one. -/
def grow (calls : List Growth) : Except Fault ScopeTree :=
  calls.foldlM Growth.perform .empty

/-- The parents that scopes were made with, in order. -/
def parents (calls : List Growth) : List ScopeId :=
  calls.filterMap Growth.parent?

/-- What a tree is like whose scopes were made with the given parents: the root
    has none, no parent is younger than its scope, and a scope is known to its
    parent once and to no other scope. -/
structure Grown (t : ScopeTree) (made : List ScopeId) : Prop where
  size : t.size = made.length + 1
  root : t.parentAt 0 = none
  parent : ∀ k : Nat, t.parentAt (k + 1) = made[k]?
  notYounger : ∀ s p : Nat, t.parentAt s = some p → p ≤ s
  children : ∀ p s : Nat, (t.childrenAt p).count s = if t.parentAt s = some p then 1 else 0

namespace Grown

variable {t u : ScopeTree} {made : List ScopeId}

theorem empty : Grown .empty [] where
  size := rfl
  root := rfl
  parent _ := rfl
  notYounger s p h := by
    cases s with
    | zero => cases h
    | succ s => cases h
  children p s := by
    cases p with
    | zero => cases s <;> rfl
    | succ p => cases s <;> rfl

-- Items have nothing to do with what scopes are nested in.
theorem push (h : Grown t made) (s : ScopeId) (i : Item) : Grown (t.push s i) made where
  size := (ScopeTree.size_push t s i).trans h.size
  root := (ScopeTree.parentAt_push t s i 0).trans h.root
  parent k := (ScopeTree.parentAt_push t s i (k + 1)).trans (h.parent k)
  notYounger r p hp := h.notYounger r p (by rwa [ScopeTree.parentAt_push] at hp)
  children p r := by
    rw [ScopeTree.childrenAt_push, ScopeTree.parentAt_push]
    exact h.children p r

-- There is no scope at the end of the table yet.
theorem parentAt_size (h : Grown t made) : t.parentAt t.size = none := by
  rw [h.size, h.parent, List.getElem?_eq_none (Nat.le_refl _)]

/-- A new scope has the parent that it is made with. -/
theorem adopt (h : Grown t made) {p : ScopeId} (hp : p ≤ t.size) (header : Option LoopHeader) :
    Grown (t.adopt p header) (made ++ [p]) where
  size := by
    rw [ScopeTree.size_adopt, List.length_append, List.length_singleton, h.size]
  root := by
    have hne : 0 ≠ t.size := by
      rw [h.size]
      exact (Nat.succ_ne_zero _).symm
    rw [ScopeTree.parentAt_adopt, if_neg hne]
    exact h.root
  parent k := by
    rw [ScopeTree.parentAt_adopt, h.size, h.parent, List.getElem?_append]
    rcases Nat.lt_trichotomy k made.length with hk | rfl | hk
    · have hne : k + 1 ≠ made.length + 1 := by omega
      rw [if_neg hne, if_pos hk]
    · rw [if_pos rfl, if_neg (Nat.lt_irrefl _), Nat.sub_self]
      rfl
    · have hne : k + 1 ≠ made.length + 1 := by omega
      have hlen : [p].length ≤ k - made.length := by
        rw [List.length_singleton]
        omega
      rw [if_neg hne, if_neg (Nat.not_lt_of_gt hk), List.getElem?_eq_none (Nat.le_of_lt hk),
        List.getElem?_eq_none hlen]
  notYounger s q hq := by
    rw [ScopeTree.parentAt_adopt] at hq
    split at hq
    · subst s
      cases hq
      exact hp
    · exact h.notYounger s q hq
  children q s := by
    have hcount : ((t.adopt p header).childrenAt q).count s =
        (t.childrenAt q).count s + if p = q ∧ s = t.size then 1 else 0 := by
      rw [ScopeTree.childrenAt_adopt header q hp]
      by_cases hq : p = q
      · rw [if_pos hq, List.count_append, List.count_singleton]
        simp only [hq, true_and, beq_iff_eq, @eq_comm _ s]
      · rw [if_neg hq, if_neg fun hs => hq hs.1, Nat.add_zero]
    rw [hcount, h.children, ScopeTree.parentAt_adopt]
    by_cases hs : s = t.size
    · subst s
      simp only [h.parentAt_size, reduceCtorEq, if_false, and_true, if_true, Nat.zero_add,
        Option.some.injEq]
    · have hnew : ¬ (p = q ∧ s = t.size) := fun hq => hs hq.2
      rw [if_neg hs, if_neg hnew, Nat.add_zero]

/-- What a call does to a tree that has grown. -/
theorem perform (h : Grown t made) {c : Growth} (hc : c.perform t = .ok u) :
    Grown u (made ++ c.parent?.toList) := by
  cases c with
  | add s item =>
      rcases exists_of_bind_eq_ok hc with ⟨⟨a, v⟩, hadd, hv⟩
      cases hv
      rw [ScopeTree.add_eq_ok hadd, Growth.parent?, Option.toList_none, List.append_nil]
      exact h.push s item
  | addChild p header =>
      rcases exists_of_bind_eq_ok hc with ⟨⟨id, v⟩, hchild, hv⟩
      cases hv
      rcases ScopeTree.addChild_eq_ok.1 hchild with ⟨hp, -, rfl⟩
      exact h.adopt hp header
  | openLoop p header =>
      rcases exists_of_bind_eq_ok hc with ⟨⟨id, v⟩, hopen, hv⟩
      cases hv
      unfold ScopeTree.openLoop at hopen
      rcases exists_of_bind_eq_ok hopen with ⟨⟨id', w⟩, hchild, hrest⟩
      rcases exists_of_bind_eq_ok hrest with ⟨⟨a, x⟩, hadd, hx⟩
      cases hx
      rcases ScopeTree.addChild_eq_ok.1 hchild with ⟨hp, -, rfl⟩
      rw [ScopeTree.add_eq_ok hadd]
      exact (h.adopt hp (some header)).push p _

/-- What calls in a row do. -/
theorem performAll (h : Grown t made) {calls : List Growth}
    (hcalls : calls.foldlM Growth.perform t = .ok u) : Grown u (made ++ parents calls) := by
  induction calls generalizing t made with
  | nil =>
      cases hcalls
      rw [parents, List.filterMap_nil, List.append_nil]
      exact h
  | cons c rest ih =>
      rw [List.foldlM_cons] at hcalls
      rcases exists_of_bind_eq_ok hcalls with ⟨next, hnext, hrest⟩
      have hgrown := ih (h.perform hnext) hrest
      rw [List.append_assoc] at hgrown
      unfold parents at hgrown ⊢
      rw [List.filterMap_cons]
      cases hparent : c.parent? with
      | none =>
          rw [hparent] at hgrown
          exact hgrown
      | some p =>
          rw [hparent] at hgrown
          exact hgrown

end Grown

theorem grown_of_grow {calls : List Growth} {t : ScopeTree} (h : grow calls = .ok t) :
    Grown t (parents calls) :=
  Grown.empty.performAll h

/-! ## Searching for a name -/

/-- The search for a name in a scope and then in what it is nested in comes to an
    end, with a symbol or without one. -/
inductive Finds (t : ScopeTree) (name : String) : ScopeId → Option Address → Prop
  | here {s : ScopeId} {a : Address} : t.findLocal s name = .ok (some a) → Finds t name s (some a)
  | nowhere {s : ScopeId} :
      t.findLocal s name = .ok none → t.parent? s = .ok none → Finds t name s none
  | outer {s p : ScopeId} {found : Option Address} : t.findLocal s name = .ok none →
      t.parent? s = .ok (some p) → Finds t name p found → Finds t name s found

section Search

variable {t : ScopeTree} {name : String} {s : ScopeId} {found : Option Address}

-- A search starts in a scope that exists.
theorem Finds.lt_size (h : Finds t name s found) : s < t.size := by
  have hlocal : ∃ a, t.findLocal s name = .ok a := by
    cases h with
    | here h => exact ⟨_, h⟩
    | nowhere h _ => exact ⟨_, h⟩
    | outer h _ _ => exact ⟨_, h⟩
  rcases hlocal with ⟨a, ha⟩
  unfold ScopeTree.findLocal at ha
  rcases exists_of_bind_eq_ok ha with ⟨scope, hscope, -⟩
  unfold ScopeTree.scope at hscope
  split at hscope
  · rename_i hget
    exact (Array.getElem?_eq_some_iff.1 hget).1
  · cases hscope

theorem findLocal_eq_none (hs : s < t.size) :
    t.findLocal s name = .ok none ↔ (t.itemsAt s).findIdx? (Item.isNamed name) = none := by
  rw [ScopeTree.findLocal_eq hs, Except.ok.injEq, Option.map_eq_none_iff]

/-- Look-up is the search, as long as no parent is younger than its scope. -/
theorem find_eq_ok_iff (hs : s < t.size)
    (hparents : ∀ s p : Nat, t.parentAt s = some p → p ≤ s) :
    t.find s name = .ok found ↔ Finds t name s found := by
  constructor
  · intro h
    induction s using Nat.strongRecOn with
    | ind s ih =>
        have hlocal := ScopeTree.findLocal_eq hs name
        rw [ScopeTree.find_step hs] at h
        cases hidx : (t.itemsAt s).findIdx? (Item.isNamed name) with
        | some index =>
            rw [hidx] at h hlocal
            cases h
            exact .here hlocal
        | none =>
            rw [hidx] at h hlocal
            have hparent := ScopeTree.parent?_eq hs
            cases hp : t.parentAt s with
            | none =>
                rw [hp] at h hparent
                cases h
                exact .nowhere hlocal hparent
            | some p =>
                rw [hp] at h hparent
                dsimp only at h
                split at h
                · rename_i hlt
                  exact .outer hlocal hparent (ih p hlt (Nat.lt_trans hlt hs) h)
                · cases h
  · intro h
    induction h with
    | @here s a hlocal =>
        rw [ScopeTree.findLocal_eq hs] at hlocal
        rw [ScopeTree.find_step hs]
        cases hidx : (t.itemsAt s).findIdx? (Item.isNamed name) with
        | some index =>
            rw [hidx] at hlocal
            cases hlocal
            rfl
        | none =>
            rw [hidx] at hlocal
            cases hlocal
    | @nowhere s hlocal hparent =>
        rw [ScopeTree.parent?_eq hs, Except.ok.injEq] at hparent
        rw [ScopeTree.find_step hs, (findLocal_eq_none hs).1 hlocal, hparent]
    | @outer s p found hlocal hparent hrest ih =>
        rw [ScopeTree.parent?_eq hs, Except.ok.injEq] at hparent
        have hrec := ih hrest.lt_size
        -- A scope that is its own parent is one whose search does not end.
        rcases Nat.lt_or_eq_of_le (hparents s p hparent) with hlt | rfl
        · rw [ScopeTree.find_step hs, (findLocal_eq_none hs).1 hlocal, hparent]
          exact (if_pos hlt).trans hrec
        · exact hrec

/-- Where all parents are older, a search ends. -/
theorem finds_of_older (hparents : ∀ s p : Nat, t.parentAt s = some p → p < s)
    (hs : s < t.size) (name : String) : ∃ found, Finds t name s found := by
  rcases exists_find_of_older hparents hs name with ⟨found, hfound⟩
  have hle : ∀ s p : Nat, t.parentAt s = some p → p ≤ s := fun s p hp =>
    Nat.le_of_lt (hparents s p hp)
  exact ⟨found, (find_eq_ok_iff hs hle).1 hfound⟩

/-- In a scope that is nested in itself, the search for a name does not end
    unless the scope holds it. -/
theorem not_finds_of_self (hself : t.parentAt s = some s)
    (hname : (t.itemsAt s).findIdx? (Item.isNamed name) = none) : ¬ Finds t name s found := by
  have hs := ScopeTree.lt_size_of_parentAt hself
  have hlocal := (findLocal_eq_none hs).2 hname
  have hparent := (ScopeTree.parent?_eq hs).trans (congrArg Except.ok hself)
  intro h
  induction h with
  | here h =>
      rw [hlocal] at h
      cases h
  | nowhere _ h =>
      rw [hparent] at h
      cases h
  | outer _ h _ ih =>
      rw [hparent] at h
      cases h
      exact ih hself hname hs hlocal hparent

/-- There is a name that none of the items has. -/
theorem exists_unused_name (items : List Item) :
    ∃ name, items.findIdx? (Item.isNamed name) = none := by
  let names := items.filterMap fun i => i.symbol?.map Symbol.name
  rcases Infinite.exists_notMem_finset names.toFinset with ⟨name, hname⟩
  refine ⟨name, List.findIdx?_eq_none_iff.2 fun i hi => ?_⟩
  cases i with
  | symbol c =>
      refine decide_eq_false fun hc => hname ?_
      exact List.mem_toFinset.2 (List.mem_filterMap.2 ⟨.symbol c, hi, congrArg some hc⟩)
  | instruction _ => rfl
  | loop _ => rfl

end Search

/-! ## Trees -/

/-- The scopes are a tree: only the root has no parent, every other parent is an
    older scope, and a scope is among the children of its parent once and of no
    other scope. -/
structure IsTree (t : ScopeTree) : Prop where
  root : t.parentAt 0 = none
  older : ∀ s : Nat, 0 < s → s < t.size → ∃ p < s, t.parentAt s = some p
  children : ∀ p s : Nat, (t.childrenAt p).count s = if t.parentAt s = some p then 1 else 0

/-- One of the calls has named as a parent the very scope that it makes. -/
def NamesItself (calls : List Growth) : Prop :=
  ∃ k, (parents calls)[k]? = some (k + 1)

namespace Grown

variable {t : ScopeTree} {made : List ScopeId}

/-- Every scope but the root has a parent. -/
theorem exists_parent (h : Grown t made) {s : Nat} (hpos : 0 < s) (hs : s < t.size) :
    ∃ p, t.parentAt s = some p := by
  cases s with
  | zero => exact absurd hpos (Nat.lt_irrefl 0)
  | succ k =>
      rw [h.size] at hs
      exact ⟨_, (h.parent k).trans (List.getElem?_eq_getElem (Nat.lt_of_succ_lt_succ hs))⟩

/-- The scopes are a tree if none of them is nested in itself. -/
theorem isTree_iff (h : Grown t made) : IsTree t ↔ ∀ s : Nat, t.parentAt s ≠ some s := by
  constructor
  · intro ht s hself
    cases s with
    | zero =>
        rw [h.root] at hself
        cases hself
    | succ k =>
        rcases ht.older (k + 1) (Nat.succ_pos k) (ScopeTree.lt_size_of_parentAt hself) with
          ⟨p, hlt, hp⟩
        rw [hself] at hp
        cases hp
        exact Nat.lt_irrefl _ hlt
  · intro hself
    refine ⟨h.root, fun s hpos hs => ?_, h.children⟩
    rcases h.exists_parent hpos hs with ⟨p, hp⟩
    refine ⟨p, Nat.lt_of_le_of_ne (h.notYounger s p hp) ?_, hp⟩
    rintro rfl
    exact hself p hp

/-- Every search ends if no scope is nested in itself. -/
theorem finds_iff (h : Grown t made) :
    (∀ s < t.size, ∀ name, ∃ found, Finds t name s found) ↔
      ∀ s : Nat, t.parentAt s ≠ some s := by
  constructor
  · intro hfinds s hself
    rcases exists_unused_name (t.itemsAt s) with ⟨name, hname⟩
    rcases hfinds s (ScopeTree.lt_size_of_parentAt hself) name with ⟨found, hfound⟩
    exact not_finds_of_self hself hname hfound
  · intro hself s hs name
    refine finds_of_older (fun s p hp => ?_) hs name
    refine Nat.lt_of_le_of_ne (h.notYounger s p hp) ?_
    rintro rfl
    exact hself p hp

end Grown

/-- A scope is nested in itself if the call that has made it has named it. -/
theorem namesItself_iff {calls : List Growth} {t : ScopeTree} (h : Grown t (parents calls)) :
    NamesItself calls ↔ ∃ s : Nat, t.parentAt s = some s := by
  constructor
  · rintro ⟨k, hk⟩
    exact ⟨k + 1, (h.parent k).trans hk⟩
  · rintro ⟨s, hs⟩
    cases s with
    | zero =>
        rw [h.root] at hs
        cases hs
    | succ k => exact ⟨k, (h.parent k).symm.trans hs⟩

/-- Whatever calls have made a tree, its scopes have the parents that they were
    made with, and look-up is the search through the parents. The scopes are a
    tree, and every search ends, if and only if no call has named the scope that
    it makes. -/
theorem grow_isTree_iff {calls : List Growth} {t : ScopeTree} (h : grow calls = .ok t) :
    Grown t (parents calls) ∧
    (∀ s < t.size, ∀ name found, t.find s name = .ok found ↔ Finds t name s found) ∧
    (IsTree t ↔ ¬ NamesItself calls) ∧
    ((∀ s < t.size, ∀ name, ∃ found, Finds t name s found) ↔ ¬ NamesItself calls) := by
  have hgrown := grown_of_grow h
  have hself : (∀ s : Nat, t.parentAt s ≠ some s) ↔ ¬ NamesItself calls := by
    rw [namesItself_iff hgrown, not_exists]
  exact ⟨hgrown, fun s hs _ _ => find_eq_ok_iff hs hgrown.notYounger,
    hgrown.isTree_iff.trans hself, hgrown.finds_iff.trans hself⟩

/-- The first scope that is allocated may be given its own number. It is then its
    own parent and its own child, and no search for a name in it comes to an end. -/
theorem grow_isTree_iff_selfNested :
    ∃ t, grow [.addChild 1 none] = .ok t ∧ t.parentAt 1 = some 1 ∧ t.childrenAt 1 = [1] ∧
      ¬ IsTree t ∧ ∀ name found, ¬ Finds t name 1 found := by
  have hgrow : grow [.addChild 1 none] =
      .ok ⟨#[.fresh none none, ⟨some 1, #[1], #[], none⟩]⟩ := rfl
  have hnames : NamesItself [.addChild 1 none] := ⟨0, rfl⟩
  have htree := (grow_isTree_iff hgrow).2.2.1
  exact ⟨_, hgrow, rfl, rfl, fun ht => htree.1 ht hnames, fun _ _ => not_finds_of_self rfl rfl⟩

end UnrollAsm
