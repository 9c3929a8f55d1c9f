import UnrollAsm.Proofs.Session.FailStop
import UnrollAsm.Proofs.Session.Points

/-!
# Assembly Changes Values Only

What a request to assemble does to the tree of a session. Unrolling writes through
addresses that were resolved while the program was read, in loops inside loops, and
may break off anywhere; clearing then goes over all scopes at once. Whatever the
outcome, the tree that is left has the same scopes with the same items in the same
places. Variables have other values and headers remember another run; and after a
success, and only then, all instructions are cleared.

The skeleton of a tree is what unrolling keeps, and `Revalued` says what that means
for a reader of the tree: item by item, scope by scope.

## Main definitions

* `Item.Revalued`, `Scope.Revalued`, `ScopeTree.Revalued`: What may have become of
  an item, a scope and a tree.

## Theorems

* `ScopeTree.revalued_of_skeleton`: Trees of one skeleton differ in values only.
* `ScopeTree.Revalued.clear`: Clearing makes a difference to actions only.
* `assemble_revalues`: A request to assemble, at all of its points and at its end.
-/

namespace UnrollAsm

/-- What may have become of an item, given what becomes of an action. A variable
    has some value, and all else is what it was. -/
inductive Item.Revalued (fate : Action → Action) : Item → Item → Prop
  | const (name : String) (value : Int32) :
      Revalued fate (.symbol ⟨.const, name, value⟩) (.symbol ⟨.const, name, value⟩)
  | var (name : String) (value value' : Int32) :
      Revalued fate (.symbol ⟨.var, name, value⟩) (.symbol ⟨.var, name, value'⟩)
  | loop (body : ScopeId) : Revalued fate (.loop body) (.loop body)
  | instruction (scope : ScopeId) (source : SourceLine) (action : Action) :
      Revalued fate (.instruction ⟨scope, source, action⟩)
        (.instruction ⟨scope, source, fate action⟩)

/-- What may have become of a header: it remembers another run. -/
inductive LoopHeader.Revalued : LoopHeader → LoopHeader → Prop
  | run (start stop step : Address) (source : SourceLine) (b b' : Bounds) (v v' : Int32) :
      Revalued ⟨start, stop, step, source, b, v⟩ ⟨start, stop, step, source, b', v'⟩

/-- What may have become of a scope, item by item. -/
structure Scope.Revalued (fate : Action → Action) (s s' : Scope) : Prop where
  parent : s'.parent = s.parent
  children : s'.children = s.children
  items : List.Forall₂ (Item.Revalued fate) s.items.toList s'.items.toList
  header : Option.Rel LoopHeader.Revalued s.header s'.header

/-- What may have become of a tree, scope by scope. -/
def ScopeTree.Revalued (fate : Action → Action) (t u : ScopeTree) : Prop :=
  List.Forall₂ (Scope.Revalued fate) t.scopes.toList u.scopes.toList

/-! ## Trees of one skeleton -/

theorem Item.revalued_of_skeleton {i j : Item} (h : i.skeleton = j.skeleton) :
    i.Revalued id j := by
  cases j with
  | loop body =>
      rw [Item.eq_of_skeleton_eq rfl h]
      exact .loop body
  | instruction x =>
      rw [Item.eq_of_skeleton_eq rfl h]
      exact .instruction x.scope x.source x.action
  | symbol y =>
      rcases Item.skeleton_eq_symbol h with ⟨x, rfl, hskel⟩
      rcases y with ⟨kind, name, value⟩
      cases kind with
      | const =>
          rw [Symbol.eq_of_skeleton_eq rfl hskel]
          exact .const name value
      | var =>
          rcases x with ⟨kind', name', value'⟩
          have hkind := congrArg Symbol.kind hskel
          have hname := congrArg Symbol.name hskel
          simp only [Symbol.skeleton_kind, Symbol.skeleton_name] at hkind hname
          subst hkind hname
          exact .var name' value' value

theorem LoopHeader.revalued_of_skeleton {h h' : LoopHeader} (hskel : h.skeleton = h'.skeleton) :
    h.Revalued h' := by
  rcases h with ⟨start, stop, step, source, b, v⟩
  rcases h' with ⟨start', stop', step', source', b', v'⟩
  simp only [LoopHeader.skeleton, LoopHeader.mk.injEq, and_true] at hskel
  rcases hskel with ⟨rfl, rfl, rfl, rfl⟩
  exact .run start stop step source b b' v v'

-- Lists with equal images are related member by member.
theorem forall₂_of_map_eq {α β : Type} {f : α → β} {l l' : List α} (h : l.map f = l'.map f) :
    List.Forall₂ (fun a a' => f a = f a') l l' := by
  rw [← List.forall₂_map_right_iff (R := fun a b => f a = b), ← h,
    ← List.forall₂_map_left_iff (R := Eq), List.forall₂_eq_eq_eq]

theorem Scope.revalued_of_skeleton {s s' : Scope} (h : s.skeleton = s'.skeleton) :
    s.Revalued id s' := by
  rcases s with ⟨parent, children, items, header⟩
  rcases s' with ⟨parent', children', items', header'⟩
  simp only [Scope.skeleton, Scope.mk.injEq] at h
  rcases h with ⟨rfl, rfl, hitems, hheader⟩
  refine ⟨rfl, rfl, ?_, ?_⟩
  · have hlists := congrArg Array.toList hitems
    rw [Array.toList_map, Array.toList_map] at hlists
    exact (forall₂_of_map_eq hlists).imp fun _ _ => Item.revalued_of_skeleton
  · cases header with
    | none =>
        cases header' with
        | none => exact .none
        | some h' => cases hheader
    | some h =>
        cases header' with
        | none => cases hheader
        | some h' => exact .some (LoopHeader.revalued_of_skeleton (Option.some.inj hheader))

namespace ScopeTree

/-- Trees of one skeleton differ in the values of variables and in what headers
    remember, and in nothing else. -/
theorem revalued_of_skeleton {t u : ScopeTree} (h : t.skeleton = u.skeleton) :
    t.Revalued id u := by
  have hscopes := congrArg (fun v : ScopeTree => v.scopes.toList) h
  simp only [skeleton, Array.toList_map] at hscopes
  exact (forall₂_of_map_eq hscopes).imp fun _ _ => Scope.revalued_of_skeleton

end ScopeTree

/-! ## Clearing -/

theorem Item.Revalued.clear {i j : Item} (h : i.Revalued id j) :
    i.Revalued (fun _ => .cleared) j.clear := by
  cases h with
  | const name value => exact .const name value
  | var name value value' => exact .var name value value'
  | loop body => exact .loop body
  | instruction scope source action => exact .instruction scope source action

/-- Clearing a tree that differs in values makes a difference to actions only, and
    to all of them. -/
theorem ScopeTree.Revalued.clear {t u : ScopeTree} (h : t.Revalued id u) :
    t.Revalued (fun _ => .cleared) u.clear := by
  unfold ScopeTree.Revalued ScopeTree.clear at *
  rw [Array.toList_map, List.forall₂_map_right_iff]
  refine h.imp fun s s' hs => ⟨hs.parent, hs.children, ?_, hs.header⟩
  rw [Array.toList_map, List.forall₂_map_right_iff]
  exact hs.items.imp fun _ _ => Item.Revalued.clear

/-! ## Sessions -/

-- The tree after unrolling, by the outcome.
theorem revalued_unroll (a : Assembler) (h : Rooted a.tree) :
    (∀ f, a.unroll.answer = .error f → a.tree.Revalued id a.unroll.after.tree) ∧
    (∀ words, a.unroll.answer = .ok words →
      a.tree.Revalued (fun _ => .cleared) a.unroll.after.tree) := by
  have hkeeps : Keeps a.tree 0 ⟨a.tree, #[], #[]⟩ (Unrolling.walk a.target a.tree.size 0)
      (Unrolling.walk a.target a.tree.size 0) := Unrolling.walk_keeps h (Or.inl rfl) rfl
  have hskel : (Unrolling.run a.target a.tree).2.tree.skeleton = a.tree.skeleton :=
    hkeeps.kept.skeleton
  have hsame := ScopeTree.revalued_of_skeleton hskel.symm
  unfold Assembler.unroll
  generalize Unrolling.run a.target a.tree = outcome at hsame
  rcases outcome with ⟨(d | f) | ⟨⟩, w⟩
  · exact ⟨fun _ _ => hsame, fun words hwords => by cases hwords⟩
  · exact ⟨fun _ _ => hsame, fun words hwords => by cases hwords⟩
  · exact ⟨fun f hf => (by cases hf), fun _ _ => hsame.clear⟩

/-- For every program read by calls that all succeeded: at all points of
    assembling it, and where assembling fails, the tree is the one that was read
    but for the values of variables and for what loop headers remember. After a
    success, all instructions are cleared on top of that. -/
theorem assemble_revalues (target : Target) (calls : List Call) (hreads : .assemble ∉ calls)
    (hnone : firstError (.new target) calls = none) :
    (∀ v, Unrolling.Point target (history target calls).tree.size .root
        ⟨(history target calls).tree, #[], #[]⟩ v →
      (history target calls).tree.Revalued id v.tree) ∧
    (∀ f, (history target calls).assemble.answer = .error f →
      (history target calls).tree.Revalued id (history target calls).assemble.after.tree) ∧
    (∀ words, (history target calls).assemble.answer = .ok words →
      (history target calls).tree.Revalued (fun _ => .cleared)
        (history target calls).assemble.after.tree) := by
  have hrooted := (healthy_history target calls).rooted
  have hpending : (history target calls).assembled = false := by
    rw [assembled_history hnone]
    exact decide_eq_false hreads
  rw [assemble_of_pending (failure_eq_none hnone) hpending]
  refine ⟨fun v hv => ScopeTree.revalued_of_skeleton ?_, revalued_unroll _ hrooted⟩
  exact (hv.skeleton hrooted rfl).symm

/-- A loop that fails in its second trip, when the line has left the cache. -/
def leavingLine : List Call :=
  [.parse [(1, "VAR line 7"), (2, "LOOP 0 2 1"), (3, "SETDIC line"), (4, "ADD line 1"),
    (5, "POOL")]]

-- The variable and the index have moved on, and nothing is cleared.
theorem assemble_leavingLine :
    (∃ f, (history sampleTarget leavingLine).assemble.answer = .error f) ∧
      (history sampleTarget leavingLine).assemble.after.tree ≠
        (history sampleTarget leavingLine).tree ∧
      (history sampleTarget leavingLine).tree.Revalued id
        (history sampleTarget leavingLine).assemble.after.tree := by
  have hreads : Call.assemble ∉ leavingLine := by decide +kernel
  have hnone : firstError (.new sampleTarget) leavingLine = none := by decide +kernel
  have hanswer : (history sampleTarget leavingLine).assemble.answer =
      .error (.onLine 3 (.range (.beyondCache .line 8 8))) := by decide +kernel
  refine ⟨⟨_, hanswer⟩, by decide +kernel, ?_⟩
  exact (assemble_revalues sampleTarget leavingLine hreads hnone).2.1 _ hanswer

end UnrollAsm
