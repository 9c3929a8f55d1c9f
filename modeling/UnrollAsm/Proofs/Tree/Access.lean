import Mathlib.Data.List.Basic
import UnrollAsm.Program.Evaluate

/-!
# Views of a Scope Tree

A scope tree is a table of records, and every operation on it is a `modify` of
that table or a `push` at its end. What later arguments need to know about a
scope is seldom the whole record: it is its list of items, its header, or the
scope around it. The three views below give exactly these, with an empty answer
for a scope that does not exist, and each operation is described once by what
it does to each view.

An append is the only way in which a scope grows. `ScopeTree.push` is the tree
after an append; `add` and `openLoop` are `push` together with an address or a
scope number.

## Main definitions

* `ScopeTree.itemsAt`, `ScopeTree.headerAt`, `ScopeTree.parentAt`: The views.
* `ScopeTree.push`: The tree with one more item in a scope.
* `ScopeTree.nest`: The tree with one more loop in a scope.

## Theorems

* `ScopeTree.view_modify`, `ScopeTree.view_nest`, `ScopeTree.view_clear`: Views that
  do not show a change.
* `ScopeTree.item?_eq`: The item at an address, through the view of its scope.
* `ScopeTree.itemsAt_push_self`, `ScopeTree.itemsAt_setItem`: Items after a change.
* `ScopeTree.headerAt_setHeader_of_ne`: Headers after a change.
* `ScopeTree.add_eq`, `ScopeTree.openLoop_eq`: Growth as `push` and `nest`.
-/

namespace UnrollAsm

namespace ScopeTree

/-- The items of a scope. -/
def itemsAt (t : ScopeTree) (s : ScopeId) : List Item :=
  t.scopes[s]?.elim [] fun scope => scope.items.toList

/-- The header of the loop whose body a scope is. -/
def headerAt (t : ScopeTree) (s : ScopeId) : Option LoopHeader :=
  t.scopes[s]?.bind Scope.header

/-- The scope around a scope. -/
def parentAt (t : ScopeTree) (s : ScopeId) : Option ScopeId :=
  t.scopes[s]?.bind Scope.parent

/-- The tree with one more item in a scope. -/
def push (t : ScopeTree) (s : ScopeId) (item : Item) : ScopeTree :=
  t.modify s fun scope => { scope with items := scope.items.push item }

/-- The tree with one more loop in a scope: a body without items, known to the
    scope as its latest child and marked among its items. -/
def nest (t : ScopeTree) (s : ScopeId) (header : LoopHeader) : ScopeTree :=
  push (modify ⟨t.scopes.push (.fresh (some s) (some header))⟩ s fun scope =>
    { scope with children := scope.children.push t.size }) s (.loop t.size)

theorem scopes_modify (t : ScopeTree) (s : ScopeId) (f : Scope → Scope) (r : ScopeId) :
    (t.modify s f).scopes[r]? = if s = r then t.scopes[r]?.map f else t.scopes[r]? :=
  Array.getElem?_modify

/-- The items of a scope that may not be there. -/
def itemsOf (scope? : Option Scope) : List Item :=
  scope?.elim [] fun scope => scope.items.toList

section Views

variable {β : Type} (view : Option Scope → β)

/-- A view does not show a change of a scope if it is the same on all scopes that
    are changed in this way. -/
theorem view_map {f : Scope → Scope} (hf : ∀ scope, view (some (f scope)) = view (some scope))
    (scope? : Option Scope) : view (scope?.map f) = view scope? := by
  cases scope? with
  | none => rfl
  | some scope => exact hf scope

theorem view_modify (t : ScopeTree) (s r : ScopeId) (f : Scope → Scope)
    (hf : ∀ scope, view (some (f scope)) = view (some scope)) :
    view (t.modify s f).scopes[r]? = view t.scopes[r]? := by
  rw [scopes_modify]
  split
  · exact view_map view hf _
  · rfl

end Views

@[simp] theorem size_modify (t : ScopeTree) (s : ScopeId) (f : Scope → Scope) :
    (t.modify s f).size = t.size :=
  Array.size_modify

@[simp] theorem size_push (t : ScopeTree) (s : ScopeId) (item : Item) :
    (t.push s item).size = t.size :=
  size_modify t s _

@[simp] theorem size_nest (t : ScopeTree) (s : ScopeId) (h : LoopHeader) :
    (t.nest s h).size = t.size + 1 := by
  unfold nest
  rw [size_push, size_modify]
  exact Array.size_push _

/-- A scope below the size of the tree exists. -/
theorem exists_scope {t : ScopeTree} {s : ScopeId} (hs : s < t.size) :
    ∃ scope, t.scopes[s]? = some scope :=
  ⟨_, Array.getElem?_eq_getElem hs⟩

theorem scope_eq_ok {t : ScopeTree} {s : ScopeId} {scope : Scope}
    (h : t.scopes[s]? = some scope) : t.scope s = .ok scope := by
  unfold ScopeTree.scope
  rw [h]

/-- The item at an address, through the view of its scope. -/
theorem item?_eq (t : ScopeTree) (a : Address) : t.item? a = (t.itemsAt a.scope)[a.index]? := by
  unfold item? itemsAt
  cases t.scopes[a.scope]? with
  | none => rfl
  | some scope => exact Array.getElem?_toList.symm

theorem item_eq_ok {t : ScopeTree} {a : Address} {i : Item} (h : t.item? a = some i) :
    t.item a = .ok i := by
  unfold ScopeTree.item
  rw [h]

theorem valueOf_eq {t : ScopeTree} {a : Address} {c : Symbol} (h : t.item? a = some (.symbol c))
    (line : Nat) : t.valueOf a line = .ok c.value := by
  unfold valueOf
  rw [item_eq_ok h]
  rfl

theorem item?_of_orFault {t : ScopeTree} {a : Address} {i : Item}
    (h : orFault (t.item a) = .ok i) : t.item? a = some i := by
  unfold ScopeTree.item at h
  cases hitem : t.item? a with
  | none =>
      rw [hitem] at h
      cases h
  | some j =>
      rw [hitem] at h
      cases h
      rfl

theorem scopes_of_orFault {t : ScopeTree} {s : ScopeId} {scope : Scope}
    (h : orFault (t.scope s) = .ok scope) : t.scopes[s]? = some scope := by
  unfold ScopeTree.scope at h
  cases hscope : t.scopes[s]? with
  | none =>
      rw [hscope] at h
      cases h
  | some found =>
      rw [hscope] at h
      cases h
      rfl

/-- The bounds of a loop are those that its header asks for. -/
theorem boundsAt_of_headerAt {t : ScopeTree} {s : ScopeId} {h : LoopHeader}
    (hheader : t.headerAt s = some h) : t.boundsAt s = (t.boundsOf h).map some := by
  rcases Option.bind_eq_some_iff.1 hheader with ⟨scope, hscope, hown⟩
  unfold boundsAt
  rw [scope_eq_ok hscope]
  simp only [orFault, Except.mapError, bind, Except.bind, hown]
  cases t.boundsOf h with
  | error e => rfl
  | ok b => rfl

/-- Looking a name up, through the views of a scope. -/
theorem find_step {t : ScopeTree} {s : ScopeId} (hs : s < t.size) (name : String) :
    t.find s name =
      match (t.itemsAt s).findIdx? (Item.isNamed name), t.parentAt s with
      | some index, _ => .ok (some ⟨s, index⟩)
      | none, none => .ok none
      | none, some parent =>
        if parent < s then t.find parent name else .error (.endlessLookup s) := by
  rcases exists_scope hs with ⟨scope, hscope⟩
  have hfind : scope.find? name = (t.itemsAt s).findIdx? (Item.isNamed name) := by
    unfold Scope.find? itemsAt
    rw [hscope, Option.elim_some, ← List.findIdx?_toArray, Array.toArray_toList]
  have hparent : t.parentAt s = scope.parent := by
    unfold parentAt
    rw [hscope, Option.bind_some]
  rewrite [ScopeTree.find, hscope, hparent, ← hfind]
  cases hfound : scope.find? name with
  | some index => simp only [hfound]
  | none =>
      cases houter : scope.parent with
      | none => simp only [hfound, houter]
      | some parent => simp only [hfound, houter]

/-! ## Items after a change -/

theorem itemsAt_modify_of_ne {t : ScopeTree} {s r : ScopeId} {f : Scope → Scope} (h : s ≠ r) :
    (t.modify s f).itemsAt r = t.itemsAt r := by
  unfold itemsAt
  rw [scopes_modify, if_neg h]

theorem itemsAt_push_of_ne {t : ScopeTree} {s r : ScopeId} {i : Item} (h : s ≠ r) :
    (t.push s i).itemsAt r = t.itemsAt r :=
  itemsAt_modify_of_ne h

theorem itemsAt_push_self {t : ScopeTree} {s : ScopeId} (i : Item) (hs : s < t.size) :
    (t.push s i).itemsAt s = t.itemsAt s ++ [i] := by
  rcases exists_scope hs with ⟨scope, hscope⟩
  unfold itemsAt push
  rw [scopes_modify, if_pos rfl, hscope]
  exact Array.toList_push

theorem itemsAt_setItem (t : ScopeTree) (a : Address) (i : Item) (s : ScopeId) :
    (t.setItem a i).itemsAt s =
      if a.scope = s then (t.itemsAt s).set a.index i else t.itemsAt s := by
  by_cases h : a.scope = s
  · unfold itemsAt setItem
    rw [if_pos h, scopes_modify, if_pos h]
    cases t.scopes[s]? with
    | none => rfl
    | some scope =>
        simp only [Option.map_some, Option.elim_some, Array.toList_modify]
        rw [List.set_eq_modify]
  · rw [if_neg h]
    exact itemsAt_modify_of_ne h

theorem item?_setItem_self {t : ScopeTree} {a : Address} {i j : Item} (h : t.item? a = some j) :
    (t.setItem a i).item? a = some i := by
  rw [item?_eq] at h ⊢
  rw [itemsAt_setItem, if_pos rfl]
  exact List.getElem?_set_self (List.getElem?_eq_some_iff.1 h).1

theorem itemsAt_modify (t : ScopeTree) (s r : ScopeId) (f : Scope → Scope)
    (hf : ∀ scope, (f scope).items = scope.items) : (t.modify s f).itemsAt r = t.itemsAt r :=
  view_modify itemsOf t s r f
    fun scope => congrArg Array.toList (hf scope)

@[simp] theorem itemsAt_setHeader (t : ScopeTree) (b : ScopeId) (h : LoopHeader) (s : ScopeId) :
    (t.setHeader b h).itemsAt s = t.itemsAt s :=
  itemsAt_modify t b s _ fun _ => rfl

/-! ## Headers and parents after a change -/

theorem item?_setItem_of_ne {t : ScopeTree} {a b : Address} {i : Item} (h : a ≠ b) :
    (t.setItem a i).item? b = t.item? b := by
  rcases a with ⟨r, k⟩
  rcases b with ⟨s, n⟩
  rw [item?_eq, item?_eq, itemsAt_setItem]
  by_cases hrs : r = s
  · have hkn : k ≠ n := by
      rintro rfl
      exact h (by rw [hrs])
    rw [if_pos hrs]
    exact List.getElem?_set_ne hkn
  · rw [if_neg hrs]

theorem headerAt_modify (t : ScopeTree) (s r : ScopeId) (f : Scope → Scope)
    (hf : ∀ scope, (f scope).header = scope.header) :
    (t.modify s f).headerAt r = t.headerAt r :=
  view_modify (Option.bind · Scope.header) t s r f hf

theorem parentAt_modify (t : ScopeTree) (s r : ScopeId) (f : Scope → Scope)
    (hf : ∀ scope, (f scope).parent = scope.parent) :
    (t.modify s f).parentAt r = t.parentAt r :=
  view_modify (Option.bind · Scope.parent) t s r f hf

@[simp] theorem headerAt_push (t : ScopeTree) (s : ScopeId) (i : Item) (r : ScopeId) :
    (t.push s i).headerAt r = t.headerAt r :=
  headerAt_modify t s r _ fun _ => rfl

@[simp] theorem parentAt_push (t : ScopeTree) (s : ScopeId) (i : Item) (r : ScopeId) :
    (t.push s i).parentAt r = t.parentAt r :=
  parentAt_modify t s r _ fun _ => rfl

@[simp] theorem headerAt_setItem (t : ScopeTree) (a : Address) (i : Item) (r : ScopeId) :
    (t.setItem a i).headerAt r = t.headerAt r :=
  headerAt_modify t a.scope r _ fun _ => rfl

theorem headerAt_setHeader_of_ne {t : ScopeTree} {s r : ScopeId} (h : LoopHeader) (hne : s ≠ r) :
    (t.setHeader s h).headerAt r = t.headerAt r := by
  unfold headerAt setHeader
  rw [scopes_modify, if_neg hne]

theorem headerAt_setHeader_self {t : ScopeTree} {s : Nat} {h h' : LoopHeader}
    (hs : t.headerAt s = some h) : (t.setHeader s h').headerAt s = some h' := by
  unfold headerAt at hs ⊢
  rcases Option.bind_eq_some_iff.1 hs with ⟨scope, hscope, -⟩
  unfold setHeader
  rw [scopes_modify, if_pos rfl, hscope]
  rfl

theorem item?_setHeader (t : ScopeTree) (s : Nat) (h : LoopHeader) (a : Address) :
    (t.setHeader s h).item? a = t.item? a := by
  rw [item?_eq, item?_eq, itemsAt_setHeader]

/-! ## Growth -/

/-- Appending succeeds in a scope that exists, and returns the next position. -/
theorem add_eq {t : ScopeTree} {s : ScopeId} (i : Item) (hs : s < t.size) :
    t.add s i = .ok (⟨s, (t.itemsAt s).length⟩, t.push s i) := by
  rcases exists_scope hs with ⟨scope, hscope⟩
  unfold ScopeTree.add itemsAt
  rw [scope_eq_ok hscope, hscope]
  rfl

/-- Opening a loop succeeds in a scope that exists, and returns the next scope
    number. -/
theorem openLoop_eq {t : ScopeTree} {s : ScopeId} (h : LoopHeader) (hs : s < t.size) :
    t.openLoop s h = .ok (t.size, t.nest s h) := by
  have hgrown : s < (⟨t.scopes.push (.fresh (some s) (some h))⟩ : ScopeTree).size := by
    simp only [ScopeTree.size, Array.size_push]
    exact Nat.lt_succ_of_lt hs
  rcases exists_scope hgrown with ⟨scope, hscope⟩
  unfold ScopeTree.openLoop addChild
  simp only [scope_eq_ok hscope, bind, Except.bind, pure, Except.pure]
  rw [add_eq _ (by rw [size_modify]; exact hgrown)]
  rfl

/-- Opening a loop tells its scope of the new body, and leaves the others alone. -/
theorem scopes_nest {t : ScopeTree} {s r : Nat} (h : LoopHeader) (hr : r < t.size) :
    (t.nest s h).scopes[r]? =
      if s = r then
        t.scopes[r]?.map fun scope =>
          { scope with children := scope.children.push t.size
                       items := scope.items.push (.loop t.size) }
      else t.scopes[r]? := by
  have hgrown : (t.scopes.push (.fresh (some s) (some h)))[r]? = t.scopes[r]? := by
    rw [Array.getElem?_push]
    exact if_neg (Nat.ne_of_lt hr)
  unfold nest push
  rw [scopes_modify, scopes_modify, hgrown]
  by_cases hs : s = r
  · rw [if_pos hs, if_pos hs, if_pos hs, Option.map_map]
    rfl
  · rw [if_neg hs, if_neg hs, if_neg hs]

/-- The body of a loop that has just been opened. -/
theorem scopes_nest_body {t : ScopeTree} {s : Nat} (h : LoopHeader) (hs : s < t.size) :
    (t.nest s h).scopes[t.size]? = some (.fresh (some s) (some h)) := by
  unfold nest push
  rw [scopes_modify, scopes_modify, if_neg (Nat.ne_of_lt hs), if_neg (Nat.ne_of_lt hs)]
  exact Array.getElem?_push_size

/-- A view that shows neither items nor children does not show that a loop has been
    opened in a scope. -/
theorem view_nest {β : Type} (view : Option Scope → β)
    (hview : ∀ (scope : Scope) children items,
      view (some { scope with children, items }) = view (some scope))
    {t : ScopeTree} {s r : Nat} (h : LoopHeader) (hr : r < t.size) :
    view (t.nest s h).scopes[r]? = view t.scopes[r]? := by
  rw [scopes_nest h hr]
  split
  · exact view_map view (fun scope => hview scope _ _) _
  · rfl

theorem itemsAt_nest {t : ScopeTree} {s r : Nat} (h : LoopHeader) (hr : r < t.size) :
    (t.nest s h).itemsAt r =
      if s = r then t.itemsAt r ++ [.loop t.size] else t.itemsAt r := by
  rcases exists_scope hr with ⟨scope, hscope⟩
  unfold itemsAt
  rw [scopes_nest h hr, hscope]
  split
  · exact Array.toList_push
  · rfl

theorem itemsAt_nest_body {t : ScopeTree} {s : Nat} (h : LoopHeader) (hs : s < t.size) :
    (t.nest s h).itemsAt t.size = [] :=
  congrArg itemsOf (scopes_nest_body h hs)

theorem headerAt_nest_body {t : ScopeTree} {s : Nat} (h : LoopHeader) (hs : s < t.size) :
    (t.nest s h).headerAt t.size = some h :=
  congrArg (Option.bind · Scope.header) (scopes_nest_body h hs)

theorem parentAt_nest_body {t : ScopeTree} {s : Nat} (h : LoopHeader) (hs : s < t.size) :
    (t.nest s h).parentAt t.size = some s :=
  congrArg (Option.bind · Scope.parent) (scopes_nest_body h hs)

theorem headerAt_nest {t : ScopeTree} {s r : Nat} (h : LoopHeader) (hr : r < t.size) :
    (t.nest s h).headerAt r = t.headerAt r :=
  view_nest (Option.bind · Scope.header) (fun _ _ _ => rfl) h hr

theorem parentAt_nest {t : ScopeTree} {s r : Nat} (h : LoopHeader) (hr : r < t.size) :
    (t.nest s h).parentAt r = t.parentAt r :=
  view_nest (Option.bind · Scope.parent) (fun _ _ _ => rfl) h hr

/-! ## Clearing -/

/-- A view that does not show items does not show that they have been cleared. -/
theorem view_clear {β : Type} (view : Option Scope → β)
    (hview : ∀ (scope : Scope) items, view (some { scope with items }) = view (some scope))
    (t : ScopeTree) (s : ScopeId) : view t.clear.scopes[s]? = view t.scopes[s]? := by
  unfold clear
  rw [Array.getElem?_map]
  exact view_map view (fun scope => hview scope _) _

theorem itemsAt_clear (t : ScopeTree) (s : ScopeId) :
    t.clear.itemsAt s = (t.itemsAt s).map Item.clear := by
  unfold itemsAt clear
  rw [Array.getElem?_map]
  cases t.scopes[s]? with
  | none => rfl
  | some scope => exact Array.toList_map

theorem item?_clear (t : ScopeTree) (a : Address) :
    t.clear.item? a = (t.item? a).map Item.clear := by
  rw [item?_eq, item?_eq, itemsAt_clear, List.getElem?_map]

theorem parentAt_clear (t : ScopeTree) (s : ScopeId) : t.clear.parentAt s = t.parentAt s :=
  view_clear (Option.bind · Scope.parent) (fun _ _ => rfl) t s

theorem headerAt_clear (t : ScopeTree) (s : ScopeId) : t.clear.headerAt s = t.headerAt s :=
  view_clear (Option.bind · Scope.header) (fun _ _ => rfl) t s

@[simp] theorem size_clear (t : ScopeTree) : t.clear.size = t.size :=
  Array.size_map

/-! ## Equal scopes have equal views -/

theorem itemsAt_congr {t u : ScopeTree} {s : ScopeId} (h : u.scopes[s]? = t.scopes[s]?) :
    u.itemsAt s = t.itemsAt s :=
  congrArg itemsOf h

theorem headerAt_congr {t u : ScopeTree} {s : ScopeId} (h : u.scopes[s]? = t.scopes[s]?) :
    u.headerAt s = t.headerAt s :=
  congrArg (Option.bind · Scope.header) h

theorem parentAt_congr {t u : ScopeTree} {s : ScopeId} (h : u.scopes[s]? = t.scopes[s]?) :
    u.parentAt s = t.parentAt s :=
  congrArg (Option.bind · Scope.parent) h

theorem scopes_push_of_ne {t : ScopeTree} {s r : ScopeId} {i : Item} (h : s ≠ r) :
    (t.push s i).scopes[r]? = t.scopes[r]? := by
  unfold push
  rw [scopes_modify, if_neg h]

end ScopeTree

end UnrollAsm
