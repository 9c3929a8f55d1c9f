import UnrollAsm.Proofs.Mirror
import UnrollAsm.Proofs.Renaming.Lines
import UnrollAsm.Proofs.Tree.Access

/-!
# Renamed Trees

When the lines of a program are renamed, so are the symbols in its tree, and the
texts of lines that the tree keeps are other texts. Nothing else changes. To mask
a tree is to rename its symbols and to drop these texts; a tree is another one
renamed if the two are the same once the one is masked by the renaming and the
other by no renaming at all.

Names enter into an operation on trees in one place only, the search for a symbol,
and there they are compared for equality. An injective renaming is therefore not
noticed: the search ends at the same address. Everything else works on addresses
and values. If it fails, the error may speak of names and texts, but it has the
same kind and concerns the same line.

## Main definitions

* `ScopeTree.mask`: The tree under other names, and without the texts of lines.
* `ScopeTree.Renames`: A tree is another one, renamed.
* `Renaming.mirror`: What a run and the renamed one are compared by.

## Theorems

* `ScopeTree.find_mask`: Searching under other names.
* `ScopeTree.Renames.modify`: Changing a scope in both trees.
* `ScopeTree.Renames.add`, `ScopeTree.Renames.openLoop`: Growth of both trees.
* `ScopeTree.Renames.valueOf`, `ScopeTree.Renames.encode`: The same is read.
* `ScopeTree.Renames.fold`, `ScopeTree.Renames.reset`: The same is written.
* `LoopHeader.advance_mask`: Headers do not look at the text of their line.
-/

namespace UnrollAsm

/-- The line without its text. -/
def SourceLine.mask (l : SourceLine) : SourceLine :=
  { l with text := "" }

/-- The symbol under another name. -/
def Symbol.rename (f : String → String) (c : Symbol) : Symbol :=
  { c with name := f c.name }

/-- The item under another name, and without the text of its line. -/
def Item.mask (f : String → String) : Item → Item
  | .symbol c => .symbol (c.rename f)
  | .instruction i => .instruction { i with source := i.source.mask }
  | .loop body => .loop body

/-- The header without the text of its line. -/
def LoopHeader.mask (h : LoopHeader) : LoopHeader :=
  { h with source := h.source.mask }

/-- The scope with all items and the header masked. -/
def Scope.mask (f : String → String) (s : Scope) : Scope :=
  { s with items := s.items.map (Item.mask f), header := s.header.map LoopHeader.mask }

/-- The tree under other names, and without the texts of lines. -/
def ScopeTree.mask (f : String → String) (t : ScopeTree) : ScopeTree :=
  ⟨t.scopes.map (Scope.mask f)⟩

/-- The second tree is the first one under other names. The texts of lines do not
    matter. -/
def ScopeTree.Renames (f : String → String) (t u : ScopeTree) : Prop :=
  t.mask f = u.mask id

/-- What a run and the renamed one are compared by: the trees are the same up to
    names, and so are the failures up to their wording. -/
def Renaming.mirror (ρ : Renaming) {σ : Type} (own : σ → σ → Prop) : Mirror σ σ where
  tree := ScopeTree.Renames ρ.token
  own := own
  failure e e' := e.brief = e'.brief

/-! ## Items and headers -/

@[simp] theorem Symbol.isVar_rename (f : String → String) (c : Symbol) :
    (c.rename f).isVar = c.isVar := rfl

-- What two items have in common that are the same up to names.
theorem Item.mask_cases {f : String → String} {i j : Item} (h : i.mask f = j.mask id) :
    (∃ c, i = .symbol c ∧ j = .symbol (c.rename f)) ∨
    (∃ s source source' action, source.number = source'.number ∧
      i = .instruction ⟨s, source, action⟩ ∧ j = .instruction ⟨s, source', action⟩) ∨
    ∃ body, i = .loop body ∧ j = .loop body := by
  cases i with
  | symbol c =>
      cases j with
      | symbol d => exact Or.inl ⟨c, rfl, h.symm⟩
      | instruction _ => cases h
      | loop _ => cases h
  | instruction i =>
      cases j with
      | symbol _ => cases h
      | instruction j =>
          rcases i with ⟨s, source, action⟩
          rcases j with ⟨s', source', action'⟩
          simp only [mask, SourceLine.mask, instruction.injEq, Instruction.mk.injEq,
            SourceLine.mk.injEq, and_true] at h
          rcases h with ⟨rfl, hnumber, rfl⟩
          exact Or.inr (Or.inl ⟨s, source, source', action, hnumber, rfl, rfl⟩)
      | loop _ => cases h
  | loop body =>
      cases j with
      | symbol _ => cases h
      | instruction _ => cases h
      | loop body' => exact Or.inr (Or.inr ⟨body, rfl, h.symm⟩)

theorem Item.isNamed_mask {f : String → String} (hf : Function.Injective f) (name : String)
    (i : Item) : (i.mask f).isNamed (f name) = i.isNamed name := by
  cases i with
  | symbol c => exact decide_eq_decide.2 hf.eq_iff
  | instruction _ => rfl
  | loop _ => rfl

namespace LoopHeader

theorem create_mask (start stop step : Address) (bounds : Bounds) (source : SourceLine) :
    create start stop step bounds source.mask =
      (create start stop step bounds source).map mask := by
  unfold create
  cases bounds.check <;> rfl

theorem begin_mask (h : LoopHeader) (bounds : Bounds) :
    h.mask.begin bounds = (h.begin bounds).map mask := by
  unfold begin
  cases bounds.check <;> rfl

/-- Moving the index does not look at the text of the line. -/
theorem advance_mask (h : LoopHeader) (stop step : Int32) :
    h.mask.advance stop step = (h.advance stop step).map fun x => (x.1, x.2.mask) := by
  rcases h with ⟨start, stop', step', source, bounds, current⟩
  unfold advance mask
  dsimp only
  by_cases hzero : step = 0
  · rw [if_pos hzero, if_pos hzero]
    rfl
  · rw [if_neg hzero, if_neg hzero]
    by_cases hsign : decide (step < 0) ≠ decide (bounds.step < 0)
    · rw [if_pos hsign, if_pos hsign]
      rfl
    · rw [if_neg hsign, if_neg hsign]
      cases sum? current step <;> rfl

end LoopHeader

/-! ## What is the same once it is masked -/

section Masked

variable {ε α β γ : Type}

-- Both are missing, or both are there and are the same once they are masked.
theorem cases_of_map_eq {x : Option α} {y : Option β} {m : α → γ} {m' : β → γ}
    (h : x.map m = y.map m') :
    x = none ∧ y = none ∨ ∃ a b, x = some a ∧ y = some b ∧ m a = m' b := by
  cases x with
  | none => exact Or.inl ⟨rfl, Option.map_eq_none_iff.1 h.symm⟩
  | some a =>
      rcases Option.map_eq_some_iff.1 h.symm with ⟨b, hb, hab⟩
      exact Or.inr ⟨a, b, rfl, hb, hab.symm⟩

-- Both fail for one reason, or both succeed with results that are the same once
-- they are masked.
theorem outcomes_of_map_eq {r q : Except ε α} {m : α → γ} (h : r.map m = q.map m) :
    (∃ e, r = .error e ∧ q = .error e) ∨ ∃ a b, r = .ok a ∧ q = .ok b ∧ m a = m b := by
  cases r with
  | error e =>
      cases q with
      | error e' =>
          cases h
          exact Or.inl ⟨e, rfl, rfl⟩
      | ok b => cases h
  | ok a =>
      cases q with
      | error e' => cases h
      | ok b => exact Or.inr ⟨a, b, rfl, rfl, Except.ok.inj h⟩

-- The same entry is changed in two tables.
theorem map_modify_eq {xs ys : Array α} {m m' : α → β} {g g' : α → α}
    (h : xs.map m = ys.map m') (hg : ∀ a b, m a = m' b → m (g a) = m' (g' b)) (k : Nat) :
    (xs.modify k g).map m = (ys.modify k g').map m' := by
  apply Array.ext_getElem?
  intro r
  have hr := congrArg (fun zs : Array β => zs[r]?) h
  simp only [Array.getElem?_map] at hr
  rw [Array.getElem?_map, Array.getElem?_map, Array.getElem?_modify, Array.getElem?_modify]
  by_cases hk : k = r
  · rw [if_pos hk, if_pos hk]
    rcases cases_of_map_eq hr with ⟨hx, hy⟩ | ⟨a, b, hx, hy, hab⟩
    · rw [hx, hy]
      rfl
    · rw [hx, hy]
      exact congrArg some (hg a b hab)
  · rw [if_neg hk, if_neg hk]
    exact hr

end Masked

/-! ## Scopes and trees -/

theorem Scope.header_of_mask {f : String → String} {a b : Scope} (h : a.mask f = b.mask id) :
    a.header.map LoopHeader.mask = b.header.map LoopHeader.mask := by
  have hheader : (a.mask f).header = (b.mask id).header := by rw [h]
  exact hheader

theorem Scope.items_of_mask {f : String → String} {a b : Scope} (h : a.mask f = b.mask id) :
    List.Forall₂ (fun i j => i.mask f = j.mask id) a.items.toList b.items.toList := by
  have hitems : (a.mask f).items.toList = (b.mask id).items.toList := by rw [h]
  simp only [mask, Array.toList_map] at hitems
  rw [← List.forall₂_eq_eq_eq, List.forall₂_map_left_iff, List.forall₂_map_right_iff] at hitems
  exact hitems

theorem Scope.find?_mask {f : String → String} (hf : Function.Injective f) (s : Scope)
    (name : String) : (s.mask f).find? (f name) = s.find? name := by
  have hcomp : Item.isNamed (f name) ∘ Item.mask f = Item.isNamed name := by
    funext i
    exact Item.isNamed_mask hf name i
  unfold find? mask
  rw [Array.findIdx?_map, hcomp]

namespace ScopeTree

@[simp] theorem size_mask (f : String → String) (t : ScopeTree) : (t.mask f).size = t.size :=
  Array.size_map

theorem scopes_mask (f : String → String) (t : ScopeTree) (s : ScopeId) :
    (t.mask f).scopes[s]? = t.scopes[s]?.map (Scope.mask f) :=
  Array.getElem?_map

theorem item?_mask (f : String → String) (t : ScopeTree) (a : Address) :
    (t.mask f).item? a = (t.item? a).map (Item.mask f) := by
  unfold item?
  rw [scopes_mask]
  cases t.scopes[a.scope]? with
  | none => rfl
  | some scope => exact Array.getElem?_map

/-- An injective renaming of a tree and of a name is not noticed by the search for
    the name. -/
theorem find_mask {f : String → String} (hf : Function.Injective f) (t : ScopeTree) (s : ScopeId)
    (name : String) : (t.mask f).find s (f name) = t.find s name := by
  induction s using Nat.strongRecOn with
  | ind s ih =>
      rw [find.eq_1, find.eq_1 t, scopes_mask]
      cases t.scopes[s]? with
      | none => rfl
      | some scope =>
          have hparent : (scope.mask f).parent = scope.parent := rfl
          dsimp only [Option.map_some]
          rw [Scope.find?_mask hf, hparent]
          cases scope.find? name with
          | some index => rfl
          | none =>
              cases scope.parent with
              | none => rfl
              | some parent =>
                  dsimp only
                  split
                  · rename_i hlt
                    exact ih parent hlt
                  · rfl

theorem findLocal_mask {f : String → String} (hf : Function.Injective f) (t : ScopeTree)
    (s : ScopeId) (name : String) : (t.mask f).findLocal s (f name) = t.findLocal s name := by
  unfold findLocal scope
  rw [scopes_mask]
  cases t.scopes[s]? with
  | none => rfl
  | some scope =>
      have hfound := Scope.find?_mask hf scope name
      exact congrArg (fun found : Option Nat => Except.ok (found.map (Address.mk s))) hfound

namespace Renames

variable {f : String → String} {t u : ScopeTree}

theorem empty (f : String → String) : Renames f .empty .empty := by
  simp [Renames, mask, ScopeTree.empty, Scope.fresh, Scope.mask]

theorem size (h : Renames f t u) : t.size = u.size := by
  rw [← size_mask f, h, size_mask]

theorem find (h : Renames f t u) (hf : Function.Injective f) (s : ScopeId) (name : String) :
    t.find s name = u.find s (f name) := by
  rw [← find_mask hf, h]
  exact find_mask Function.injective_id u s (f name)

theorem findLocal (h : Renames f t u) (hf : Function.Injective f) (s : ScopeId) (name : String) :
    t.findLocal s name = u.findLocal s (f name) := by
  rw [← findLocal_mask hf, h]
  exact findLocal_mask Function.injective_id u s (f name)

theorem scopes (h : Renames f t u) (s : ScopeId) :
    t.scopes[s]?.map (Scope.mask f) = u.scopes[s]?.map (Scope.mask id) := by
  rw [← scopes_mask, h, scopes_mask]

/-- The same scope is changed in both trees. -/
theorem modify (h : Renames f t u) (s : ScopeId) {g g' : Scope → Scope}
    (hg : ∀ a b, a.mask f = b.mask id → (g a).mask f = (g' b).mask id) :
    Renames f (t.modify s g) (u.modify s g') :=
  congrArg ScopeTree.mk (map_modify_eq (congrArg ScopeTree.scopes h) hg s)

theorem setItem (h : Renames f t u) (a : Address) {i j : Item} (hij : i.mask f = j.mask id) :
    Renames f (t.setItem a i) (u.setItem a j) := by
  refine h.modify a.scope fun x y hxy => ?_
  simp only [Scope.mask, Scope.mk.injEq] at hxy ⊢
  rcases hxy with ⟨hparent, hchildren, hitems, hheader⟩
  exact ⟨hparent, hchildren, map_modify_eq hitems (fun _ _ _ => hij) a.index, hheader⟩

theorem setHeader (h : Renames f t u) (s : ScopeId) {header header' : LoopHeader}
    (hmask : header.mask = header'.mask) :
    Renames f (t.setHeader s header) (u.setHeader s header') := by
  refine h.modify s fun x y hxy => ?_
  simp only [Scope.mask, Scope.mk.injEq] at hxy ⊢
  exact ⟨hxy.1, hxy.2.1, hxy.2.2.1, congrArg some hmask⟩

theorem push (h : Renames f t u) (s : ScopeId) {i j : Item} (hij : i.mask f = j.mask id) :
    Renames f (t.push s i) (u.push s j) := by
  refine h.modify s fun x y hxy => ?_
  simp only [Scope.mask, Scope.mk.injEq] at hxy ⊢
  rcases hxy with ⟨hparent, hchildren, hitems, hheader⟩
  refine ⟨hparent, hchildren, ?_, hheader⟩
  rw [Array.map_push, Array.map_push, hitems, hij]

-- A new scope in both trees.
theorem grow (h : Renames f t u) (parent : Option ScopeId) {header header' : LoopHeader}
    (hmask : header.mask = header'.mask) :
    Renames f ⟨t.scopes.push (.fresh parent (some header))⟩
      ⟨u.scopes.push (.fresh parent (some header'))⟩ := by
  have hscopes : t.scopes.map (Scope.mask f) = u.scopes.map (Scope.mask id) :=
    congrArg ScopeTree.scopes h
  have hfresh : (Scope.fresh parent (some header)).mask f =
      (Scope.fresh parent (some header')).mask id := by
    simp only [Scope.fresh, Scope.mask, Option.map_some, hmask, Array.map_empty]
  refine congrArg ScopeTree.mk ?_
  rw [Array.map_push, Array.map_push, hscopes, hfresh]

end Renames

end ScopeTree

/-! ## Questions and changes -/

theorem orFault_bind {α β : Type} (x : Except Fault α) (g : α → Except Fault β) :
    orFault (x >>= g) = orFault x >>= fun a => orFault (g a) := by
  cases x <;> rfl

namespace ScopeTree

namespace Renames

variable {ρ : Renaming} {σ : Type} {own : σ → σ → Prop} {t u : ScopeTree}

-- The same answer on both sides.
theorem same {α : Type} (r : Except Failure α) : (ρ.mirror own).Matches Eq r r :=
  Mirror.Matches.refl (fun _ => rfl) (fun _ => rfl) r

theorem masked {α β : Type} {m : α → β} {r q : Except Diagnostic α} (h : r.map m = q.map m) :
    (ρ.mirror own).Matches (fun a b => m a = m b) (orRefuse r) (orRefuse q) := by
  rcases outcomes_of_map_eq h with ⟨d, rfl, rfl⟩ | ⟨a, b, rfl, rfl, hab⟩
  · exact rfl
  · exact hab

theorem scope (h : Renames ρ.token t u) (s : ScopeId) :
    (ρ.mirror own).Matches (fun a b => a.mask ρ.token = b.mask id) (orFault (t.scope s))
      (orFault (u.scope s)) := by
  unfold ScopeTree.scope
  rcases cases_of_map_eq (h.scopes s) with ⟨ht, hu⟩ | ⟨a, b, ht, hu, hab⟩
  · rw [ht, hu]
    exact rfl
  · rw [ht, hu]
    exact hab

theorem parent? (h : Renames ρ.token t u) (s : ScopeId) :
    (ρ.mirror own).Matches Eq (orFault (t.parent? s)) (orFault (u.parent? s)) := by
  unfold ScopeTree.parent?
  rw [orFault_bind, orFault_bind]
  refine (h.scope s).bind fun a b hab => ?_
  have hparent : (a.mask ρ.token).parent = (b.mask id).parent := congrArg Scope.parent hab
  exact hparent

theorem item (h : Renames ρ.token t u) (a : Address) :
    (ρ.mirror own).Matches (fun i j => i.mask ρ.token = j.mask id) (orFault (t.item a))
      (orFault (u.item a)) := by
  have hitem : (t.item? a).map (Item.mask ρ.token) = (u.item? a).map (Item.mask id) := by
    rw [← item?_mask, h, item?_mask]
  unfold ScopeTree.item
  rcases cases_of_map_eq hitem with ⟨ht, hu⟩ | ⟨i, j, ht, hu, hij⟩
  · rw [ht, hu]
    exact rfl
  · rw [ht, hu]
    exact hij

theorem add (h : Renames ρ.token t u) (s : ScopeId) {i j : Item}
    (hij : i.mask ρ.token = j.mask id) :
    (ρ.mirror own).Matches (fun x y => x.1 = y.1 ∧ Renames ρ.token x.2 y.2)
      (orFault (t.add s i)) (orFault (u.add s j)) := by
  unfold ScopeTree.add
  rw [orFault_bind, orFault_bind]
  refine (h.scope s).bind fun a b hab => ?_
  have hsize : a.items.size = b.items.size := (Scope.items_of_mask hab).length_eq
  exact ⟨congrArg (Address.mk s) hsize, h.push s hij⟩

-- The new scope has the same number in both trees.
theorem addChild (h : Renames ρ.token t u) (s : ScopeId) {header header' : LoopHeader}
    (hmask : header.mask = header'.mask) :
    (ρ.mirror own).Matches (fun x y => x.1 = y.1 ∧ Renames ρ.token x.2 y.2)
      (orFault (t.addChild s (some header))) (orFault (u.addChild s (some header'))) := by
  have hgrown := h.grow (some s) hmask
  unfold ScopeTree.addChild
  rw [orFault_bind, orFault_bind]
  refine (hgrown.scope s).bind fun _ _ _ => ?_
  refine ⟨h.size, hgrown.modify s fun a b hab => ?_⟩
  simp only [Scope.mask, Scope.mk.injEq] at hab ⊢
  rw [h.size, hab.2.1]
  exact ⟨hab.1, rfl, hab.2.2⟩

theorem openLoop (h : Renames ρ.token t u) (s : ScopeId) {header header' : LoopHeader}
    (hmask : header.mask = header'.mask) :
    (ρ.mirror own).Matches (fun x y => x.1 = y.1 ∧ Renames ρ.token x.2 y.2)
      (orFault (t.openLoop s header)) (orFault (u.openLoop s header')) := by
  unfold ScopeTree.openLoop
  rw [orFault_bind, orFault_bind]
  refine (h.addChild s hmask).bind ?_
  rintro ⟨body, t'⟩ ⟨_, u'⟩ ⟨rfl, hgrown⟩
  dsimp only
  rw [orFault_bind, orFault_bind]
  refine (hgrown.add s (i := .loop body) rfl).bind fun x y hxy => ?_
  exact ⟨rfl, hxy.2⟩

theorem valueOf (h : Renames ρ.token t u) (a : Address) (line : Nat) :
    (ρ.mirror own).Matches Eq (t.valueOf a line) (u.valueOf a line) := by
  refine (h.item a).bind fun i j hij => ?_
  rcases Item.mask_cases hij with ⟨c, rfl, rfl⟩ | ⟨s, l, l', action, -, rfl, rfl⟩ |
    ⟨body, rfl, rfl⟩
  · exact rfl
  · exact rfl
  · exact rfl

theorem boundsOf (h : Renames ρ.token t u) {header header' : LoopHeader}
    (hmask : header.mask = header'.mask) :
    (ρ.mirror own).Matches Eq (t.boundsOf header) (u.boundsOf header') := by
  rcases header with ⟨start, stop, step, source, bounds, current⟩
  rcases header' with ⟨start', stop', step', source', bounds', current'⟩
  simp only [LoopHeader.mask, SourceLine.mask, LoopHeader.mk.injEq, SourceLine.mk.injEq,
    and_true] at hmask
  rcases hmask with ⟨rfl, rfl, rfl, hnumber, rfl, rfl⟩
  unfold ScopeTree.boundsOf
  dsimp only
  rw [hnumber]
  refine (h.valueOf start _).next fun x => (h.valueOf stop _).next fun y => ?_
  exact (h.valueOf step _).next fun z => rfl

theorem encode (h : Renames ρ.token t u) (target : Target) (line : Nat) (command : Command) :
    (ρ.mirror own).Matches Eq (t.encode target line command) (u.encode target line command) := by
  cases command with
  | noOperand id => exact same _
  | oneOperand a id => exact (same _).next fun _ => (h.valueOf a line).next fun _ => same _
  | twoOperand a b id =>
      exact (same _).next fun _ => (h.valueOf a line).next fun _ =>
        (h.valueOf b line).next fun _ => same _
  | threeOperand a b c id =>
      exact (same _).next fun _ => (h.valueOf a line).next fun _ =>
        (h.valueOf b line).next fun _ => (h.valueOf c line).next fun _ => same _

/-- Arithmetic on the same operands writes the same value. -/
theorem fold (h : Renames ρ.token t u) (op : Arithmetic) (a b : Address) (line : Nat) :
    (ρ.mirror own).Matches (fun x y => x.1 = y.1 ∧ Renames ρ.token x.2 y.2)
      (t.fold op a b line) (u.fold op a b line) := by
  refine (h.item a).bind fun i j hij => ?_
  rcases Item.mask_cases hij with ⟨c, rfl, rfl⟩ | ⟨s, l, l', action, -, rfl, rfl⟩ |
    ⟨body, rfl, rfl⟩
  · dsimp only
    rw [Symbol.isVar_rename]
    by_cases hvar : c.isVar
    · rw [if_neg (not_not_intro hvar), if_neg (not_not_intro hvar)]
      refine (h.item b).bind fun i j hij => ?_
      rcases Item.mask_cases hij with ⟨d, rfl, rfl⟩ | ⟨s, l, l', action, -, rfl, rfl⟩ |
        ⟨body, rfl, rfl⟩
      · dsimp only
        rw [Symbol.isVar_rename]
        by_cases hconst : d.isVar ∧ op.requiresConst
        · rw [if_pos hconst, if_pos hconst]
          exact rfl
        · rw [if_neg hconst, if_neg hconst]
          exact ⟨rfl, h.setItem a rfl⟩
      · exact rfl
      · exact rfl
    · rw [if_pos hvar, if_pos hvar]
      exact rfl
  · exact rfl
  · exact rfl

/-- A reset copies the same value. -/
theorem reset (h : Renames ρ.token t u) (a b : Address) (line : Nat) :
    (ρ.mirror own).Matches (fun x y => x.1 = y.1 ∧ Renames ρ.token x.2 y.2)
      (t.reset a b line) (u.reset a b line) := by
  refine (h.valueOf a line).next fun x => (h.item b).bind fun i j hij => ?_
  rcases Item.mask_cases hij with ⟨c, rfl, rfl⟩ | ⟨s, l, l', action, -, rfl, rfl⟩ |
    ⟨body, rfl, rfl⟩
  · dsimp only
    unfold Symbol.set?
    rw [Symbol.isVar_rename]
    by_cases hvar : c.isVar
    · rw [if_pos hvar, if_pos hvar]
      exact ⟨rfl, h.setItem b rfl⟩
    · rw [if_neg hvar, if_neg hvar]
      exact rfl
  · exact rfl
  · exact rfl

end Renames

end ScopeTree

end UnrollAsm
