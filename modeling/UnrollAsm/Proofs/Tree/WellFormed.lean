import Mathlib.Data.List.Basic
import UnrollAsm.Proofs.Tree.Rooted

/-!
# Well-Formed Trees

What assembly relies on when it follows an address. A scope other than the root
is the body of exactly one loop: it has a header, and one marker leads to it,
which stands in the scope around it. Whatever an instruction or a header refers
to is a symbol that stands in front of it, in the same scope or in front of the
marker that leads there from a scope further out.

A tree grows by one item at a time, at the end of a scope, and opening a loop is
an item with a new scope behind it. Growth moves nothing, so an address that was
in front of another stays there, and only the new item has to be looked at.

## Main definitions

* `Precedes`: An address stands in front of another.
* `Defines`: An address leads to a symbol in front of another address.
* `BodyOf`: A scope is the body of the loop that a marker stands for.
* `WellFormed`: Every scope is the body of its loop, and every operand is
  defined before it is used.

## Theorems

* `ScopeTree.item?_push`, `ScopeTree.item?_nest`: The items after growth.
* `WellFormed.push`: Appending an item that refers to what is in front of it.
* `WellFormed.nest`: Opening a loop whose bounds are in front of it.
-/

namespace UnrollAsm

/-- The body whose place an item marks. -/
def Item.body? : Item → Option ScopeId
  | .loop body => some body
  | .symbol _ | .instruction _ => none

/-- The operands of a loop. -/
def LoopHeader.operands (h : LoopHeader) : List Address :=
  [h.start, h.stop, h.step]

/-- The scopes that a scope knows to be nested in it. -/
def ScopeTree.childrenAt (t : ScopeTree) (s : ScopeId) : List ScopeId :=
  t.scopes[s]?.elim [] fun scope => scope.children.toList

/-- The address `a` stands in front of another: further up in the same scope, or
    further out, in front of the marker that leads to the scope of the other. -/
inductive Precedes (t : ScopeTree) (a : Address) : Address → Prop
  | here {index : Nat} : a.index < index → Precedes t a ⟨a.scope, index⟩
  | outer {m : Address} {s index : Nat} :
      t.item? m = some (.loop s) → Precedes t a m → Precedes t a ⟨s, index⟩

/-- The address `a` leads to a symbol that stands in front of `m`. -/
structure Defines (t : ScopeTree) (a m : Address) : Prop where
  precedes : Precedes t a m
  symbol : ∃ c, t.item? a = some (.symbol c)

/-- The scope `s` is the body of the loop whose marker stands at `m`, and of no
    other loop. -/
structure BodyOf (t : ScopeTree) (s : Nat) (m : Address) : Prop where
  parent : t.parentAt s = some m.scope
  older : m.scope < s
  marker : ∀ a, t.item? a = some (.loop s) ↔ a = m
  header : ∃ h, t.headerAt s = some h ∧ ∀ a ∈ h.operands, Defines t a m

/-- Every scope but the root is the body of a loop, scopes know their loops in
    order, and every operand is defined before it is used. -/
structure WellFormed (t : ScopeTree) : Prop where
  root : t.parentAt 0 = none
  bodies : ∀ s : Nat, 0 < s → s < t.size → ∃ m, BodyOf t s m
  children : ∀ s : Nat, t.childrenAt s = (t.itemsAt s).filterMap Item.body?
  /-- An instruction knows its scope. -/
  scopes : ∀ m i, t.item? m = some (.instruction i) → i.scope = m.scope
  operands : ∀ m i, t.item? m = some (.instruction i) → ∀ a ∈ i.action.operands, Defines t a m
  /-- Only variables are reset. -/
  resets : ∀ m i source written, t.item? m = some (.instruction i) →
    i.action = .reset source written → ∃ c, t.item? written = some (.symbol c) ∧ c.isVar

/-! ## Items after growth -/

namespace ScopeTree

variable {t : ScopeTree} {s : Nat}

-- The items of one scope after an append.
theorem getElem?_snoc {l : List Item} {i x : Item} {k : Nat} :
    (l ++ [i])[k]? = some x ↔ l[k]? = some x ∨ (k = l.length ∧ x = i) := by
  rcases Nat.lt_trichotomy k l.length with hk | hk | hk
  · rw [List.getElem?_append_left hk]
    constructor
    · exact Or.inl
    · rintro (h | ⟨hlen, -⟩)
      · exact h
      · omega
  · subst hk
    simp only [List.getElem?_concat_length, Option.some.injEq,
      List.getElem?_eq_none (Nat.le_refl _), reduceCtorEq, false_or, true_and]
    exact eq_comm
  · have hnone : (l ++ [i])[k]? = none := by
      rw [List.getElem?_eq_none_iff, List.length_append]
      simp only [List.length_cons, List.length_nil]
      omega
    rw [hnone, List.getElem?_eq_none (Nat.le_of_lt hk)]
    simp only [reduceCtorEq, false_or, false_iff, not_and]
    intro hlen
    omega

/-- The items of a tree after an append: those from before, and the new one. -/
theorem item?_push (i : Item) (hs : s < t.size) (a : Address) (x : Item) :
    (t.push s i).item? a = some x ↔
      t.item? a = some x ∨ (a = ⟨s, (t.itemsAt s).length⟩ ∧ x = i) := by
  rcases a with ⟨r, k⟩
  simp only [item?_eq, Address.mk.injEq]
  by_cases hr : s = r
  · subst hr
    rw [itemsAt_push_self i hs, getElem?_snoc]
    simp only [true_and]
  · rw [itemsAt_push_of_ne hr]
    have hne : r ≠ s := fun h => hr h.symm
    simp only [hne, false_and, or_false]

/-- The items of a tree after a loop has been opened: those from before, and the
    marker. -/
theorem item?_nest (h : LoopHeader) (hs : s < t.size) (a : Address) (x : Item) :
    (t.nest s h).item? a = some x ↔
      t.item? a = some x ∨ (a = ⟨s, (t.itemsAt s).length⟩ ∧ x = .loop t.size) := by
  rcases a with ⟨r, k⟩
  simp only [item?_eq, Address.mk.injEq]
  rcases Nat.lt_trichotomy r t.size with hr | hr | hr
  · rw [itemsAt_nest h hr]
    by_cases hsr : s = r
    · subst hsr
      rw [if_pos rfl, getElem?_snoc]
      simp only [true_and]
    · have hne : r ≠ s := fun h => hsr h.symm
      rw [if_neg hsr]
      simp only [hne, false_and, or_false]
  · -- The body is new and has no items yet.
    subst hr
    have hnew : t.itemsAt t.size = [] := by
      unfold itemsAt ScopeTree.size
      simp only [Array.getElem?_eq_none (Nat.le_refl _), Option.elim_none]
    have hne : t.size ≠ s := Nat.ne_of_gt hs
    rw [itemsAt_nest_body h hs, hnew]
    simp only [hne, false_and, or_false]
  · have hold : t.itemsAt r = [] := by
      unfold itemsAt
      simp only [Array.getElem?_eq_none (Nat.le_of_lt hr), Option.elim_none]
    have hnew : (t.nest s h).itemsAt r = [] := by
      have hsize : (t.nest s h).scopes.size ≤ r := by
        have hlen : (t.nest s h).scopes.size = t.size + 1 := size_nest t s h
        omega
      unfold itemsAt
      simp only [Array.getElem?_eq_none hsize, Option.elim_none]
    have hne : r ≠ s := Nat.ne_of_gt (Nat.lt_trans hs hr)
    rw [hold, hnew]
    simp only [hne, false_and, or_false]

/-- The children of a scope that may not be there. -/
def childrenOf (scope? : Option Scope) : List ScopeId :=
  scope?.elim [] fun scope => scope.children.toList

theorem childrenAt_modify (t : ScopeTree) (s r : ScopeId) (f : Scope → Scope)
    (hf : ∀ scope, (f scope).children = scope.children) :
    (t.modify s f).childrenAt r = t.childrenAt r :=
  view_modify childrenOf t s r f fun scope => congrArg Array.toList (hf scope)

theorem childrenAt_push (t : ScopeTree) (s : Nat) (i : Item) (r : Nat) :
    (t.push s i).childrenAt r = t.childrenAt r :=
  childrenAt_modify t s r _ fun _ => rfl

theorem childrenAt_nest (h : LoopHeader) {r : Nat} (hr : r < t.size) :
    (t.nest s h).childrenAt r =
      if s = r then t.childrenAt r ++ [t.size] else t.childrenAt r := by
  rcases exists_scope hr with ⟨scope, hscope⟩
  unfold childrenAt
  rw [scopes_nest h hr, hscope]
  split
  · exact Array.toList_push
  · rfl

theorem childrenAt_nest_body (h : LoopHeader) (hs : s < t.size) :
    (t.nest s h).childrenAt t.size = [] :=
  congrArg childrenOf (scopes_nest_body h hs)

end ScopeTree

/-! ## Addresses after growth -/

/-- The tree has gained the item `i` at `m`, and kept what it had. -/
structure Gains (t u : ScopeTree) (m : Address) (i : Item) : Prop where
  item : ∀ a x, u.item? a = some x ↔ t.item? a = some x ∨ (a = m ∧ x = i)

namespace Gains

variable {t u : ScopeTree} {m a b : Address} {i : Item}

theorem push {s : Nat} (i : Item) (hs : s < t.size) :
    Gains t (t.push s i) ⟨s, (t.itemsAt s).length⟩ i :=
  ⟨ScopeTree.item?_push i hs⟩

theorem nest {s : Nat} (h : LoopHeader) (hs : s < t.size) :
    Gains t (t.nest s h) ⟨s, (t.itemsAt s).length⟩ (.loop t.size) :=
  ⟨ScopeTree.item?_nest h hs⟩

theorem keep (h : Gains t u m i) {x : Item} (hx : t.item? a = some x) : u.item? a = some x :=
  (h.item a x).2 (Or.inl hx)

theorem precedes (h : Gains t u m i) (hab : Precedes t a b) : Precedes u a b := by
  induction hab with
  | here hlt => exact .here hlt
  | outer hmarker _ ih => exact .outer (h.keep hmarker) ih

theorem defines (h : Gains t u m i) (hab : Defines t a b) : Defines u a b := by
  rcases hab.symbol with ⟨c, hc⟩
  exact ⟨h.precedes hab.precedes, c, h.keep hc⟩

-- A scope stays the body of its loop, unless another marker leads to it.
theorem bodyOf (h : Gains t u m i) {s : Nat} (hs : BodyOf t s b) (hi : i ≠ .loop s)
    (hparent : u.parentAt s = t.parentAt s) (hheader : u.headerAt s = t.headerAt s) :
    BodyOf u s b where
  parent := hparent.trans hs.parent
  older := hs.older
  marker := by
    intro a
    rw [h.item, hs.marker]
    constructor
    · rintro (ha | ⟨-, hx⟩)
      · exact ha
      · exact absurd hx.symm hi
    · exact Or.inl
  header := by
    rcases hs.header with ⟨hd, hhd, hops⟩
    exact ⟨hd, hheader.trans hhd, fun a ha => h.defines (hops a ha)⟩

end Gains

/-! ## Growth -/

namespace WellFormed

variable {t : ScopeTree} {s : Nat}

theorem empty : WellFormed .empty := by
  have hitems : ∀ a x, ScopeTree.empty.item? a ≠ some x := by
    rintro ⟨r, k⟩ x
    cases r <;> simp [ScopeTree.empty, ScopeTree.item?, Scope.fresh]
  have hsize : ScopeTree.empty.size = 1 := rfl
  refine ⟨rfl, fun s hpos hs => ?_, fun s => ?_, fun m i hm => absurd hm (hitems _ _),
    fun m i hm => absurd hm (hitems _ _), fun m i _ _ hm => absurd hm (hitems _ _)⟩
  · omega
  · cases s <;> simp [ScopeTree.empty, ScopeTree.childrenAt, ScopeTree.itemsAt, Scope.fresh]

/-- Appending an item other than a marker keeps a tree well formed, if the item
    refers to symbols in front of its place only. -/
theorem push (h : WellFormed t) {i : Item} (hs : s < t.size) (hloop : i.body? = none)
    (hscope : ∀ j, i = .instruction j → j.scope = s)
    (hops : ∀ j, i = .instruction j → ∀ a ∈ j.action.operands,
      Defines t a ⟨s, (t.itemsAt s).length⟩)
    (hreset : ∀ j source written, i = .instruction j → j.action = .reset source written →
      ∃ c, t.item? written = some (.symbol c) ∧ c.isVar) :
    WellFormed (t.push s i) := by
  have hgains := Gains.push i hs
  refine ⟨?_, fun r hpos hr => ?_, fun r => ?_, fun m j hm => ?_, fun m j hm => ?_,
    fun m j source written hm hact => ?_⟩
  · rw [ScopeTree.parentAt_push]
    exact h.root
  · rw [ScopeTree.size_push] at hr
    rcases h.bodies r hpos hr with ⟨m, hm⟩
    refine ⟨m, hgains.bodyOf hm ?_ (ScopeTree.parentAt_push t s i r)
      (ScopeTree.headerAt_push t s i r)⟩
    intro hi
    rw [hi] at hloop
    cases hloop
  · rw [ScopeTree.childrenAt_push, h.children]
    by_cases hr : s = r
    · subst hr
      rw [ScopeTree.itemsAt_push_self i hs, List.filterMap_append]
      simp only [List.filterMap_cons_none hloop, List.filterMap_nil, List.append_nil]
    · rw [ScopeTree.itemsAt_push_of_ne hr]
  · rcases (hgains.item m _).1 hm with hm | ⟨rfl, hj⟩
    · exact h.scopes m j hm
    · exact hscope j hj.symm
  · intro a ha
    rcases (hgains.item m _).1 hm with hm | ⟨rfl, hj⟩
    · exact hgains.defines (h.operands m j hm a ha)
    · exact hgains.defines (hops j hj.symm a ha)
  · have hvar : ∃ c, t.item? written = some (.symbol c) ∧ c.isVar := by
      rcases (hgains.item m _).1 hm with hm | ⟨-, hj⟩
      · exact h.resets m j source written hm hact
      · exact hreset j source written hj.symm hact
    rcases hvar with ⟨c, hc, hkind⟩
    exact ⟨c, hgains.keep hc, hkind⟩

-- A symbol refers to nothing.
theorem push_symbol (h : WellFormed t) (hs : s < t.size) (c : Symbol) :
    WellFormed (t.push s (.symbol c)) := by
  refine h.push hs rfl ?_ ?_ ?_
  · intro j hj
    cases hj
  · intro j hj
    cases hj
  · intro j source written hj
    cases hj

theorem push_instruction (h : WellFormed t) (hs : s < t.size) (source : SourceLine)
    {action : Action}
    (hops : ∀ a ∈ action.operands, Defines t a ⟨s, (t.itemsAt s).length⟩)
    (hreset : ∀ a b, action = .reset a b → ∃ c, t.item? b = some (.symbol c) ∧ c.isVar) :
    WellFormed (t.push s (.instruction ⟨s, source, action⟩)) := by
  refine h.push hs rfl ?_ ?_ ?_
  · rintro j ⟨⟩
    rfl
  · rintro j ⟨⟩
    exact hops
  · rintro j a b ⟨⟩ hact
    exact hreset a b hact

/-- Opening a loop keeps a tree well formed, if the operands of the loop are in
    front of its marker. -/
theorem nest (h : WellFormed t) (hs : s < t.size) {header : LoopHeader}
    (hmarkers : ∀ a, t.item? a ≠ some (.loop t.size))
    (hops : ∀ a ∈ header.operands, Defines t a ⟨s, (t.itemsAt s).length⟩) :
    WellFormed (t.nest s header) := by
  have hgains := Gains.nest header hs
  refine ⟨?_, fun r hpos hr => ?_, fun r => ?_, fun m j hm => ?_, fun m j hm => ?_,
    fun m j source written hm hact => ?_⟩
  · rw [ScopeTree.parentAt_nest header (by omega)]
    exact h.root
  · rw [ScopeTree.size_nest] at hr
    by_cases hlt : r < t.size
    · rcases h.bodies r hpos hlt with ⟨m, hm⟩
      refine ⟨m, hgains.bodyOf hm ?_ (ScopeTree.parentAt_nest header hlt)
        (ScopeTree.headerAt_nest header hlt)⟩
      rintro ⟨⟩
      omega
    · -- The new body has the new marker, and the number is used nowhere else.
      have hr' : r = t.size := by omega
      subst hr'
      refine ⟨_, ScopeTree.parentAt_nest_body header hs, hs, fun a => ?_, header,
        ScopeTree.headerAt_nest_body header hs, fun a ha => hgains.defines (hops a ha)⟩
      rw [hgains.item]
      constructor
      · rintro (ha | ⟨ha, -⟩)
        · exact absurd ha (hmarkers a)
        · exact ha
      · exact fun ha => Or.inr ⟨ha, rfl⟩
  · by_cases hlt : r < t.size
    · rw [ScopeTree.childrenAt_nest header hlt, ScopeTree.itemsAt_nest header hlt, h.children]
      split
      · rw [List.filterMap_append]
        rfl
      · rfl
    · by_cases hr : r = t.size
      · subst hr
        rw [ScopeTree.childrenAt_nest_body header hs, ScopeTree.itemsAt_nest_body header hs]
        rfl
      · have hnone : (t.nest s header).scopes[r]? = none := by
          have hlen : (t.nest s header).scopes.size = t.size + 1 := ScopeTree.size_nest t s header
          exact Array.getElem?_eq_none (by omega)
        unfold ScopeTree.childrenAt ScopeTree.itemsAt
        rw [hnone]
        rfl
  · rcases (hgains.item m _).1 hm with hm | ⟨-, hj⟩
    · exact h.scopes m j hm
    · cases hj
  · intro a ha
    rcases (hgains.item m _).1 hm with hm | ⟨-, hj⟩
    · exact hgains.defines (h.operands m j hm a ha)
    · cases hj
  · rcases (hgains.item m _).1 hm with hm | ⟨-, hj⟩
    · rcases h.resets m j source written hm hact with ⟨c, hc, hkind⟩
      exact ⟨c, hgains.keep hc, hkind⟩
    · cases hj

end WellFormed

end UnrollAsm
