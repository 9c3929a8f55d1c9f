import Mathlib.Data.List.Forall2
import UnrollAsm.Proofs.Pass
import UnrollAsm.Proofs.Tree.Rooted
import UnrollAsm.Session.Reading

/-!
# How Reading Grows a Tree

Everything that reading one statement can do to the tree and to the current
scope, said once. A statement first supplies the literals among its operands,
where they are not yet visible; then it appends what it stands for, opens a loop,
or returns from one. `Grows` lists the ways. If the statement is refused, the
tree has at most gained literals.

Nothing is assumed of the tree but that it is rooted and has the current scope,
so the description holds after failed calls and after assembly as well. Whatever
else has to be known of reading is derived from `Grows`, and the reader itself is
not opened again.

## Main definitions

* `Resolved`: The address that an operand is resolved to.
* `Stocks`: A tree has gained literals.
* `Unresolved`: An operand cannot be resolved.
* `Grows`, `GrowsAll`: The effect of a statement, and of lines in a row.
* `Sound`: The state that reading starts from and keeps.
* `Reading.Invariant`, `Reading.InvariantOn`: What literals and statements keep.

## Theorems

* `Reading.readStatement_meets`: Reading a statement grows the tree.
* `Grows.sound`: The state stays sound.
* `Reading.readProgram_meets`: Reading a program grows the tree line by line.
* `Reading.InvariantOn.run`: An invariant holds after a pass, however it ends.
-/

namespace UnrollAsm

/-- The operand is found at an address under its written form, literals
    included. -/
def Resolved (t : ScopeTree) (s : Nat) (op : Operand) (a : Address) : Prop :=
  t.find s op.text = .ok (some a)

/-- A tree has gained literals in the scope `s`, none of which was visible
    before. -/
inductive Stocks (s : Nat) (t : ScopeTree) : ScopeTree → Prop
  | refl : Stocks s t t
  | push {u : ScopeTree} {v : Int32} :
      Stocks s t u → u.find s (Text.decimal v) = .ok none →
      Stocks s t (u.push s (.symbol (.literal v)))

/-- The operand is a name that is not found, whatever literals may have been
    supplied by then. -/
def Unresolved (t : ScopeTree) (s : Nat) (op : Operand) : Prop :=
  ∃ u name, Stocks s t u ∧ op = .name name ∧ u.find s name = .ok none

/-- The effect of a statement on the tree and the current scope. -/
inductive Grows (target : Target) (source : SourceLine) :
    Statement → ScopeTree → Nat → ScopeTree → Nat → Prop
  | empty {t : ScopeTree} {s : Nat} : Grows target source .empty t s t s
  | const {t : ScopeTree} {s : Nat} {name : String} {value : Int32} :
      (t.itemsAt s).findIdx? (Item.isNamed name) = none →
      Grows target source (.const name value) t s (t.push s (.symbol ⟨.const, name, value⟩)) s
  | reset {t u : ScopeTree} {s : Nat} {name : String} {value : Operand} {a b : Address}
      {c : Symbol} :
      Stocks s t u → Resolved u s value a → Resolved u s (.name name) b →
      u.item? b = some (.symbol c) → c.isVar →
      Grows target source (.var name value) t s
        (u.push s (.instruction ⟨s, source, .reset a b⟩)) s
  | declare {t u : ScopeTree} {s : Nat} {name : String} {value : Operand} {a : Address}
      {v : Int32} :
      Stocks s t u → Resolved u s value a →
      (∀ b c, Resolved u s (.name name) b → u.item? b = some (.symbol c) → c.isVar = false) →
      (u.itemsAt s).findIdx? (Item.isNamed name) = none →
      Grows target source (.var name value) t s
        ((u.push s (.symbol ⟨.var, name, v⟩)).push s
          (.instruction ⟨s, source, .reset a ⟨s, (u.itemsAt s).length⟩⟩)) s
  | loop {t u : ScopeTree} {s : Nat} {start stop step : Operand} {h : LoopHeader} :
      Stocks s t u → Resolved u s start h.start → Resolved u s stop h.stop →
      Resolved u s step h.step → h.source = source →
      u.boundsOf h = .ok h.bounds → h.bounds.check = .ok () →
      Grows target source (.loop start stop step) t s (u.nest s h) u.size
  | pool {t : ScopeTree} {s p : Nat} :
      t.parentAt s = some p → Grows target source .pool t s t p
  | command {t u : ScopeTree} {s : Nat} {mnemonic : String} {operands : List Operand}
      {cls : InstructionClass} {id : Nat} {addresses : List Address} {action : Action} :
      target.resolve? mnemonic = some (cls, id) → Stocks s t u →
      List.Forall₂ (Resolved u s) operands addresses →
      Reading.action? id mnemonic cls addresses = some action →
      Grows target source (.command mnemonic operands) t s
        (u.push s (.instruction ⟨s, source, action⟩)) s

/-! ## Sound states -/

/-- The tree is rooted and has the current scope. -/
structure Sound (t : ScopeTree) (s : Nat) : Prop where
  rooted : Rooted t
  current : s < t.size

-- An instruction or a symbol in the current scope.
theorem Sound.push {t : ScopeTree} {s : Nat} (h : Sound t s) {i : Item} (hi : ∀ c, i ≠ .loop c) :
    Sound (t.push s i) s where
  rooted := h.rooted.push h.current hi
  current := by
    rw [ScopeTree.size_push]
    exact h.current

/-! ## Literals -/

namespace Stocks

variable {s : Nat} {t u v : ScopeTree}

theorem trans (h : Stocks s t u) (h' : Stocks s u v) : Stocks s t v := by
  induction h' with
  | refl => exact h
  | push _ hnone ih => exact push ih hnone

theorem size_eq (h : Stocks s t u) : u.size = t.size := by
  induction h with
  | refl => rfl
  | push _ _ ih => rw [ScopeTree.size_push, ih]

theorem sound (h : Stocks s t u) (ht : Sound t s) : Sound u s := by
  induction h with
  | refl => exact ht
  | push _ _ ih => exact ih.push (by intro c hc; cases hc)

-- What has been resolved stays where it is. A literal is only supplied where it
-- was not visible, so it has another name than anything found before.
theorem resolved (h : Stocks s t u) (hs : s < t.size) {op : Operand} {a : Address}
    (ha : Resolved t s op a) : Resolved u s op a := by
  induction h with
  | refl => exact ha
  | @push u v hstock hnone ih =>
      unfold Resolved at ih ⊢
      have hname : Item.isNamed op.text (.symbol (.literal v)) = false := by
        refine decide_eq_false fun hname : Text.decimal v = op.text => ?_
        rw [hname, ih] at hnone
        cases hnone
      rw [find_push hname s (hstock.size_eq ▸ hs), ih]

theorem unresolved (h : Stocks s t u) {op : Operand} (hop : Unresolved u s op) :
    Unresolved t s op := by
  rcases hop with ⟨x, name, hx, hname, hnone⟩
  exact ⟨x, name, h.trans hx, hname, hnone⟩

end Stocks

/-- A state has gained literals in the current scope. -/
structure Supplied (w v : Work ScopeId) : Prop where
  own : v.own = w.own
  stocks : Stocks w.own w.tree v.tree

namespace Supplied

variable {w v x : Work ScopeId}

theorem refl (w : Work ScopeId) : Supplied w w :=
  ⟨rfl, .refl⟩

theorem trans (h : Supplied w v) (h' : Supplied v x) : Supplied w x :=
  ⟨h'.own.trans h.own, h.stocks.trans (h.own ▸ h'.stocks)⟩

theorem sound (h : Supplied w v) (hw : Sound w.tree w.own) : Sound v.tree v.own := by
  rw [h.own]
  exact h.stocks.sound hw

end Supplied

namespace Reading

open PassM

variable {w : Work ScopeId}

/-! ## The building blocks -/

theorem append_exec (item : Item) (hw : Sound w.tree w.own) :
    (append item).exec w = (.ok ⟨w.own, (w.tree.itemsAt w.own).length⟩,
      { w with tree := w.tree.push w.own item }) := by
  unfold append current
  rw [exec_bind, exec_own]
  dsimp only
  rw [exec_change, ScopeTree.add_eq item hw.current]
  rfl

theorem appendAction_exec (source : SourceLine) (action : Action) (hw : Sound w.tree w.own) :
    (appendAction source action).exec w =
      (.ok (), { w with tree := w.tree.push w.own (.instruction ⟨w.own, source, action⟩) }) := by
  unfold appendAction current
  rw [exec_bind, exec_own]
  dsimp only
  rw [exec_bind, append_exec _ hw]
  rfl

theorem lookup_exec (name : String) (hw : Sound w.tree w.own) :
    ∃ found, w.tree.find w.own name = .ok found ∧ (lookup name).exec w = (.ok found, w) := by
  rcases hw.rooted.exists_find hw.current name with ⟨found, hfound⟩
  refine ⟨found, hfound, ?_⟩
  unfold lookup current
  rw [exec_bind, exec_own]
  dsimp only
  rw [exec_ask, hfound]
  rfl

-- The value of an operand that has been resolved.
theorem valueOf_resolved {t : ScopeTree} {s : Nat} {op : Operand} {a : Address} (line : Nat)
    (hs : s < t.size) (h : Resolved t s op a) : ∃ v, t.valueOf a line = .ok v := by
  rcases symbol_of_find hs h with ⟨c, hc, -⟩
  exact ⟨c.value, ScopeTree.valueOf_eq hc line⟩

-- Literals are supplied if need be, so only a name can be refused.
theorem resolve_meets (line : Nat) (op : Operand) (hw : Sound w.tree w.own) :
    (resolve line op).Meets w (fun a v => Supplied w v ∧ Resolved v.tree w.own op a)
      (fun v => Supplied w v ∧ Unresolved w.tree w.own op) := by
  cases op with
  | literal value =>
      rcases lookup_exec (Text.decimal value) hw with ⟨found, hfound, hexec⟩
      refine Meets.next hexec ?_
      cases found with
      | some a => exact Meets.pure ⟨Supplied.refl w, hfound⟩
      | none =>
          -- The literal is supplied, and found from now on.
          refine Meets.of_exec (append_exec _ hw) ⟨⟨rfl, .push .refl hfound⟩, ?_⟩
          exact find_push_self (decide_eq_true rfl) hw.current hfound
  | name name =>
      rcases lookup_exec name hw with ⟨found, hfound, hexec⟩
      refine Meets.next hexec ?_
      cases found with
      | some a => exact Meets.pure ⟨Supplied.refl w, hfound⟩
      | none => exact Meets.refuse ⟨Supplied.refl w, w.tree, name, .refl, rfl, hfound⟩

theorem mapM_resolve_meets (line : Nat) (operands : List Operand) (hw : Sound w.tree w.own) :
    (operands.mapM (resolve line)).Meets w
      (fun addresses v =>
        Supplied w v ∧ List.Forall₂ (Resolved v.tree w.own) operands addresses)
      (fun v => Supplied w v ∧ ∃ op ∈ operands, Unresolved w.tree w.own op) := by
  induction operands generalizing w with
  | nil =>
      rw [List.mapM_nil]
      exact Meets.pure ⟨Supplied.refl w, .nil⟩
  | cons op rest ih =>
      rw [List.mapM_cons]
      refine (resolve_meets line op hw).andThen ?_
        fun _ h => ⟨h.1, op, List.mem_cons_self, h.2⟩
      rintro a v ⟨hv, ha⟩
      refine (ih (hv.sound hw)).andThen ?_ ?_
      · rintro addresses x ⟨hx, hrest⟩
        refine Meets.pure ⟨hv.trans hx, .cons ?_ (hv.own ▸ hrest)⟩
        exact (hv.own ▸ hx.stocks).resolved (hv.stocks.size_eq ▸ hw.current) ha
      · rintro x ⟨hx, op', hmem, hop'⟩
        refine ⟨hv.trans hx, op', List.mem_cons_of_mem _ hmem, ?_⟩
        exact hv.stocks.unresolved (hv.own ▸ hop')

/-- The operands of a loop, one after the other. What was resolved first is still
    where it was when the last literal is in. -/
theorem resolve_three_meets {β : Type} {start stop step : Operand}
    {k : Address → Address → Address → ReadM β} {post : β → Work ScopeId → Prop}
    {left : Work ScopeId → Prop} (line : Nat) (hw : Sound w.tree w.own)
    (hk : ∀ a b c u log, Stocks w.own w.tree u → Resolved u w.own start a →
      Resolved u w.own stop b → Resolved u w.own step c →
      (k a b c).Meets ⟨u, log, w.own⟩ post left)
    (hleft : ∀ v, Supplied w v → (∃ op ∈ [start, stop, step], Unresolved w.tree w.own op) →
      left v) :
    (resolve line start >>= fun a => resolve line stop >>= fun b =>
      resolve line step >>= fun c => k a b c).Meets w post left := by
  refine (resolve_meets line start hw).andThen ?_
    fun v h => hleft v h.1 ⟨start, by simp, h.2⟩
  rintro a v ⟨hv, ha⟩
  refine (resolve_meets line stop (hv.sound hw)).andThen ?_ fun x h =>
    hleft x (hv.trans h.1) ⟨stop, by simp, hv.stocks.unresolved (hv.own ▸ h.2)⟩
  rintro b v' ⟨hv', hb⟩
  have hwv' := hv.trans hv'
  refine (resolve_meets line step (hwv'.sound hw)).andThen ?_ fun x h =>
    hleft x (hwv'.trans h.1) ⟨step, by simp, hwv'.stocks.unresolved (hwv'.own ▸ h.2)⟩
  rintro c x ⟨hx, hc⟩
  have ha' : Resolved x.tree w.own start a :=
    (hv.own ▸ (hv'.trans hx).stocks).resolved (hv.stocks.size_eq ▸ hw.current) ha
  have hb' : Resolved x.tree w.own stop b :=
    (hwv'.own ▸ hx.stocks).resolved (hwv'.stocks.size_eq ▸ hw.current) (hv.own ▸ hb)
  have hc' : Resolved x.tree w.own step c := hwv'.own ▸ hc
  rcases x with ⟨u, log, s⟩
  rcases hwv'.trans hx with ⟨rfl, hstock⟩
  exact hk a b c u log hstock ha' hb' hc'

/-! ## Statements -/

variable {target : Target} {source : SourceLine}

-- After a statement the tree has grown, or has at most gained literals.
theorem declareConst_meets (name : String) (value : Int32) (hw : Sound w.tree w.own) :
    (declareConst source.number name value).Meets w
      (fun _ v => Grows target source (.const name value) w.tree w.own v.tree v.own)
      (Supplied w) := by
  refine Meets.next (exec_own w) ?_
  have hlocal := ScopeTree.findLocal_eq hw.current name
  refine Meets.next ((exec_ask _ w).trans (by rw [hlocal]; rfl)) ?_
  cases hidx : (w.tree.itemsAt w.own).findIdx? (Item.isNamed name) with
  | some index =>
      rcases ScopeTree.symbol_of_findIdx? hidx with ⟨c, hc, -⟩
      refine Meets.next ((exec_ask _ w).trans (by rw [ScopeTree.item_eq_ok hc]; rfl)) ?_
      exact Meets.refuse (Supplied.refl w)
  | none => exact Meets.next (append_exec _ hw) (Meets.pure (.const hidx))

theorem declareVar_exec (line : Nat) (name : String) {op : Operand} {a : Address}
    (hw : Sound w.tree w.own) (ha : Resolved w.tree w.own op a) :
    ∃ x, (declareVar line name a).exec w = (.ok ⟨w.own, (w.tree.itemsAt w.own).length⟩,
      { w with tree := w.tree.push w.own (.symbol ⟨.var, name, x⟩) }) := by
  rcases valueOf_resolved line hw.current ha with ⟨x, hx⟩
  refine ⟨x, ?_⟩
  unfold declareVar
  rw [exec_bind, exec_ask, hx]
  exact append_exec _ hw

/-- The variable that a variable line writes to: one that is visible, or a new one
    where no variable of the name is visible and the scope has no such symbol. -/
theorem targetVar_meets (line : Nat) (name : String) {op : Operand} {a : Address}
    (hw : Sound w.tree w.own) (ha : Resolved w.tree w.own op a) :
    (targetVar line name a).Meets w
      (fun b v =>
        (v = w ∧ Resolved w.tree w.own (.name name) b ∧
          ∃ c, w.tree.item? b = some (.symbol c) ∧ c.isVar) ∨
        (b = ⟨w.own, (w.tree.itemsAt w.own).length⟩ ∧
          (∃ x, v = { w with tree := w.tree.push w.own (.symbol ⟨.var, name, x⟩) }) ∧
          (∀ b c, Resolved w.tree w.own (.name name) b → w.tree.item? b = some (.symbol c) →
            c.isVar = false) ∧
          (w.tree.itemsAt w.own).findIdx? (Item.isNamed name) = none))
      (fun v => v = w) := by
  rcases declareVar_exec line name hw ha with ⟨x, hx⟩
  refine Meets.next (exec_own w) ?_
  rcases lookup_exec name hw with ⟨found, hfound, hexec⟩
  refine Meets.next hexec ?_
  cases found with
  | none =>
      refine Meets.of_exec hx (Or.inr ⟨rfl, ⟨x, rfl⟩, fun b c hb _ => ?_,
        findIdx?_of_find hw.current hfound⟩)
      rw [Resolved, Operand.text, hfound] at hb
      cases hb
  | some b =>
      rcases symbol_of_find hw.current hfound with ⟨c, hc, -⟩
      refine Meets.next ((exec_ask _ w).trans (by rw [ScopeTree.item_eq_ok hc]; rfl)) ?_
      by_cases hvar : c.isVar = true
      · -- The name denotes a variable already.
        rw [if_pos (by exact hvar)]
        exact Meets.pure (Or.inl ⟨rfl, hfound, c, hc, hvar⟩)
      · rw [if_neg (by exact hvar)]
        split
        · exact Meets.refuse rfl
        · rename_i houter
          refine Meets.of_exec hx (Or.inr ⟨rfl, ⟨x, rfl⟩, fun b' c' hb hc' => ?_,
            findIdx?_of_outer hw.current hfound houter⟩)
          rw [Resolved, Operand.text, hfound] at hb
          cases hb
          rw [hc] at hc'
          cases hc'
          exact Bool.not_eq_true _ ▸ hvar

theorem var_meets (name : String) (value : Operand) (hw : Sound w.tree w.own) :
    (readStatement target source (.var name value)).Meets w
      (fun _ v => Grows target source (.var name value) w.tree w.own v.tree v.own)
      (Supplied w) := by
  refine (resolve_meets source.number value hw).andThen ?_ fun _ h => h.1
  rintro a v ⟨hv, ha⟩
  have hsound := hv.sound hw
  rcases v with ⟨u, log, s⟩
  rcases hv with ⟨rfl, hstock⟩
  refine (targetVar_meets source.number name hsound ha).andThen ?_ fun v hv => hv ▸ ⟨rfl, hstock⟩
  rintro b v (⟨rfl, hb, c, hc, hvar⟩ | ⟨rfl, ⟨x, rfl⟩, hlacks, hfresh⟩)
  · exact Meets.of_exec (appendAction_exec source _ hsound) (.reset hstock ha hb hc hvar)
  · have hgrown : Sound (u.push w.own (.symbol ⟨.var, name, x⟩)) w.own :=
      hsound.push (by intro c hc; cases hc)
    exact Meets.of_exec (appendAction_exec source _ hgrown) (.declare hstock ha hlacks hfresh)

theorem eq_of_create {start stop step : Address} {bounds : Bounds}
    {source : SourceLine} {h : LoopHeader}
    (hh : LoopHeader.create start stop step bounds source = .ok h) :
    h = ⟨start, stop, step, source, bounds, bounds.start⟩ := by
  unfold LoopHeader.create at hh
  split at hh
  · cases hh
    rfl
  · cases hh

theorem check_of_create {start stop step : Address} {bounds : Bounds}
    {source : SourceLine} {h : LoopHeader}
    (hh : LoopHeader.create start stop step bounds source = .ok h) : bounds.check = .ok () := by
  unfold LoopHeader.create at hh
  split at hh
  · assumption
  · cases hh

theorem openLoop_meets (start stop step : Operand) (hw : Sound w.tree w.own) :
    (openLoop source start stop step).Meets w
      (fun _ v => Grows target source (.loop start stop step) w.tree w.own v.tree v.own)
      (Supplied w) := by
  refine resolve_three_meets source.number hw ?_ fun v hv _ => hv
  intro a b c u log hstock ha hb hc
  have hsound := hstock.sound hw
  rcases valueOf_resolved source.number hsound.current ha with ⟨va, hva⟩
  rcases valueOf_resolved source.number hsound.current hb with ⟨vb, hvb⟩
  rcases valueOf_resolved source.number hsound.current hc with ⟨vc, hvc⟩
  refine Meets.next ((exec_ask _ _).trans (by rw [hva])) ?_
  refine Meets.next ((exec_ask _ _).trans (by rw [hvb])) ?_
  refine Meets.next ((exec_ask _ _).trans (by rw [hvc])) ?_
  refine Meets.orRefuse (fun h hh => ?_) ⟨rfl, hstock⟩
  refine Meets.next (exec_own _) ?_
  refine Meets.next ((exec_change _ _).trans
    (by rw [ScopeTree.openLoop_eq h hsound.current]; rfl)) ?_
  refine Meets.next (exec_note _ _) ?_
  refine Meets.of_exec (exec_setOwn _ _) ?_
  have hcheck := check_of_create hh
  cases eq_of_create hh
  refine .loop hstock ha hb hc rfl ?_ hcheck
  unfold ScopeTree.boundsOf
  rw [hva, hvb, hvc]
  rfl

theorem closeLoop_meets (hw : Sound w.tree w.own) :
    (closeLoop source.number).Meets w
      (fun _ v => Grows target source .pool w.tree w.own v.tree v.own) (Supplied w) := by
  refine Meets.next (exec_own w) ?_
  have hparent := ScopeTree.parent?_eq hw.current
  refine Meets.next ((exec_ask _ w).trans (by rw [hparent]; rfl)) ?_
  cases hp : w.tree.parentAt w.own with
  | none => exact Meets.refuse (Supplied.refl w)
  | some p =>
      refine Meets.next (exec_setOwn _ w) ?_
      exact Meets.of_exec (exec_note _ _) (.pool hp)

theorem command_meets (mnemonic : String) (operands : List Operand) (hw : Sound w.tree w.own) :
    (command target source mnemonic operands).Meets w
      (fun _ v => Grows target source (.command mnemonic operands) w.tree w.own v.tree v.own)
      (Supplied w) := by
  unfold command
  cases hresolve : target.resolve? mnemonic with
  | none => exact Meets.refuse (Supplied.refl w)
  | some entry =>
      rcases entry with ⟨cls, id⟩
      dsimp only
      split
      · exact Meets.refuse (Supplied.refl w)
      · refine (mapM_resolve_meets source.number operands hw).andThen ?_ fun _ h => h.1
        rintro addresses v ⟨hv, haddr⟩
        have hsound := hv.sound hw
        rcases v with ⟨u, log, s⟩
        rcases hv with ⟨rfl, hstock⟩
        cases haction : action? id mnemonic cls addresses with
        | none => exact Meets.refuse ⟨rfl, hstock⟩
        | some action =>
            exact Meets.of_exec (appendAction_exec source action hsound)
              (.command hresolve hstock haddr haction)

/-- Reading a statement grows the tree. If it is refused, the tree has at most
    gained literals. -/
theorem readStatement_meets (st : Statement) (hw : Sound w.tree w.own) :
    (readStatement target source st).Meets w
      (fun _ v => Grows target source st w.tree w.own v.tree v.own) (Supplied w) := by
  cases st with
  | empty => exact Meets.pure .empty
  | const name value => exact declareConst_meets name value hw
  | var name value => exact var_meets name value hw
  | loop start stop step => exact openLoop_meets start stop step hw
  | pool => exact closeLoop_meets hw
  | command mnemonic operands => exact command_meets mnemonic operands hw

end Reading

/-! ## Growth keeps the state sound -/

theorem Grows.sound {target : Target} {source : SourceLine} {st : Statement} {t t' : ScopeTree}
    {s s' : Nat} (h : Grows target source st t s t' s') (hsound : Sound t s) : Sound t' s' := by
  cases h with
  | empty => exact hsound
  | const => exact hsound.push (by intro c hc; cases hc)
  | reset hstock _ _ _ _ => exact (hstock.sound hsound).push (by intro c hc; cases hc)
  | declare hstock _ _ =>
      exact ((hstock.sound hsound).push (by intro c hc; cases hc)).push (by intro c hc; cases hc)
  | loop hstock _ _ _ _ _ _ =>
      have hu := hstock.sound hsound
      refine ⟨hu.rooted.nest _ hu.current, ?_⟩
      rw [ScopeTree.size_nest]
      exact Nat.lt_succ_self _
  | pool hp =>
      refine ⟨hsound.rooted, ?_⟩
      exact Nat.lt_trans (hsound.rooted.older _ _ hp) hsound.current
  | command _ hstock _ _ => exact (hstock.sound hsound).push (by intro c hc; cases hc)

/-! ## Lines in a row -/

/-- The effect of lines in a row, all of them statements. -/
inductive GrowsAll (target : Target) :
    List (Nat × String) → ScopeTree → Nat → ScopeTree → Nat → Prop
  | nil {t : ScopeTree} {s : Nat} : GrowsAll target [] t s t s
  | cons {t u v : ScopeTree} {s r q : Nat} {number : Nat} {text : String} {st : Statement}
      {rest : List (Nat × String)} :
      Statement.parse number text = .ok st → Grows target (.of number text) st t s u r →
      GrowsAll target rest u r v q → GrowsAll target ((number, text) :: rest) t s v q

theorem GrowsAll.sound {target : Target} {lines : List (Nat × String)} {t t' : ScopeTree}
    {s s' : Nat} (h : GrowsAll target lines t s t' s') (hsound : Sound t s) : Sound t' s' := by
  induction h with
  | nil => exact hsound
  | cons _ hgrows _ ih => exact ih (hgrows.sound hsound)

namespace Reading

open PassM

variable {target : Target} {w : Work ScopeId}

theorem readLine_meets (number : Nat) (text : String) (hw : Sound w.tree w.own) :
    (readLine target number text).Meets w
      (fun _ v => ∃ st, Statement.parse number text = .ok st ∧
        Grows target (.of number text) st w.tree w.own v.tree v.own)
      (fun v => Sound v.tree v.own) := by
  refine Meets.orRefuse (fun st hst => ?_) hw
  refine Meets.next (exec_note _ w) ?_
  refine (readStatement_meets st (by exact hw)).andThen ?_ fun v hv => hv.sound hw
  intro _ v hv
  exact Meets.pure ⟨st, hst, hv⟩

-- The fold counts statements, and the count plays no part in what it does.
theorem foldlM_readLine_meets (lines : List (Nat × String)) (count : Nat)
    (hw : Sound w.tree w.own) :
    (lines.foldlM (fun count (number, text) => do
        return count + (← readLine target number text)) count).Meets w
      (fun _ v => GrowsAll target lines w.tree w.own v.tree v.own)
      (fun v => Sound v.tree v.own) := by
  induction lines generalizing w count with
  | nil => exact Meets.pure .nil
  | cons line rest ih =>
      rcases line with ⟨number, text⟩
      rw [List.foldlM_cons, bind_assoc]
      refine (readLine_meets number text hw).andThen ?_ fun _ h => h
      rintro n v ⟨st, hst, hgrows⟩
      rw [pure_bind]
      refine (ih (count + n) (hgrows.sound hw)).mono ?_ fun _ h => h
      intro _ x hx
      exact .cons hst hgrows hx

/-- Reading a program grows the tree line by line, and ends outside every loop.
    If it is refused, the state is sound. -/
theorem readProgram_meets (lines : List (Nat × String)) (hw : Sound w.tree w.own) :
    (readProgram target lines).Meets w
      (fun _ v => GrowsAll target lines w.tree w.own v.tree v.own ∧
        v.tree.headerAt v.own = none)
      (fun v => Sound v.tree v.own) := by
  refine (foldlM_readLine_meets lines 0 hw).andThen ?_ fun _ h => h
  intro n v hgrows
  have hv := hgrows.sound hw
  rcases ScopeTree.exists_scope hv.current with ⟨scope, hscope⟩
  unfold finish
  rw [bind_assoc]
  refine Meets.next (exec_own v) ?_
  rw [bind_assoc]
  refine Meets.next ((exec_ask _ v).trans (by rw [ScopeTree.scope_eq_ok hscope]; rfl)) ?_
  cases hheader : scope.header with
  | some header => exact hv
  | none =>
      refine Meets.pure ⟨hgrows, ?_⟩
      unfold ScopeTree.headerAt
      rw [hscope]
      exact hheader

/-! ## What reading keeps -/

/-- What holds of the tree and the current scope, and is kept by literals and by
    the statements of some lines. -/
structure InvariantOn (target : Target) (lines : List (Nat × String))
    (P : ScopeTree → Nat → Prop) : Prop where
  stocks : ∀ {t u : ScopeTree} {s : Nat}, Sound t s → P t s → Stocks s t u → P u s
  grows : ∀ {number : Nat} {text : String} {st : Statement} {t t' : ScopeTree} {s s' : Nat},
    (number, text) ∈ lines → Statement.parse number text = .ok st → Sound t s → P t s →
      Grows target (.of number text) st t s t' s' → P t' s'

/-- What holds of the tree and the current scope, and is kept by literals and by
    every statement. -/
structure Invariant (target : Target) (P : ScopeTree → Nat → Prop) : Prop where
  stocks : ∀ {t u : ScopeTree} {s : Nat}, Sound t s → P t s → Stocks s t u → P u s
  grows : ∀ {source : SourceLine} {st : Statement} {t t' : ScopeTree} {s s' : Nat},
    Sound t s → P t s → Grows target source st t s t' s' → P t' s'

variable {P : ScopeTree → Nat → Prop}

theorem Invariant.on (hP : Invariant target P) (lines : List (Nat × String)) :
    InvariantOn target lines P :=
  ⟨hP.stocks, fun _ _ => hP.grows⟩

namespace InvariantOn

variable {lines : List (Nat × String)}

theorem readLine (hP : InvariantOn target lines P) {number : Nat} {text : String}
    (hline : (number, text) ∈ lines) (hw : Sound w.tree w.own) (h : P w.tree w.own) :
    (readLine target number text).Meets w (fun _ v => Sound v.tree v.own ∧ P v.tree v.own)
      (fun v => Sound v.tree v.own ∧ P v.tree v.own) := by
  refine Meets.orRefuse (fun st hst => ?_) ⟨hw, h⟩
  refine Meets.next (exec_note _ w) ?_
  refine (readStatement_meets st (by exact hw)).andThen (fun _ v hgrows => ?_) fun v hv => ?_
  · exact Meets.pure ⟨hgrows.sound hw, hP.grows hline hst hw h hgrows⟩
  · refine ⟨hv.sound hw, ?_⟩
    rw [hv.own]
    exact hP.stocks hw h hv.stocks

/-- An invariant holds after any of the lines in a row, and where reading them
    has broken off. -/
theorem readLines (hP : InvariantOn target lines P) {part : List (Nat × String)}
    (hpart : ∀ line ∈ part, line ∈ lines) (count : Nat) (hw : Sound w.tree w.own)
    (h : P w.tree w.own) :
    (part.foldlM (fun count (number, text) => do
        return count + (← Reading.readLine target number text)) count).Meets w
      (fun _ v => Sound v.tree v.own ∧ P v.tree v.own)
      (fun v => Sound v.tree v.own ∧ P v.tree v.own) := by
  induction part generalizing w count with
  | nil => exact Meets.pure ⟨hw, h⟩
  | cons line rest ih =>
      rcases line with ⟨number, text⟩
      rw [List.foldlM_cons, bind_assoc]
      refine (hP.readLine (hpart _ List.mem_cons_self) hw h).andThen ?_ fun _ hv => hv
      rintro n v ⟨hv, hPv⟩
      rw [pure_bind]
      exact ih (fun line hline => hpart line (List.mem_cons_of_mem _ hline)) (count + n) hv hPv

/-- An invariant holds after a pass, however the pass ends. -/
theorem run (hP : InvariantOn target lines P) {t : ScopeTree} (ht : Rooted t) (h : P t 0) :
    ∃ s, P (Reading.run target t lines).2.tree s := by
  have hlines : (Reading.readLines target lines).Meets ⟨t, #[], 0⟩ _ _ :=
    hP.readLines (fun _ hline => hline) 0 ⟨ht, ht.nonempty⟩ h
  have hpass : (readProgram target lines).Meets ⟨t, #[], 0⟩ (fun _ v => P v.tree v.own)
      (fun v => P v.tree v.own) := by
    refine hlines.andThen (fun n v hv => ?_) fun _ hv => hv.2
    -- Whether a loop is still open is asked of the tree, and changes nothing.
    rcases ScopeTree.exists_scope hv.1.current with ⟨scope, hscope⟩
    unfold finish
    rw [bind_assoc]
    refine Meets.next (exec_own v) ?_
    rw [bind_assoc]
    refine Meets.next ((exec_ask _ v).trans (by rw [ScopeTree.scope_eq_ok hscope]; rfl)) ?_
    cases scope.header with
    | some header => exact hv.2
    | none => exact Meets.pure hv.2
  exact ⟨_, hpass.state⟩

end InvariantOn

/-- What all statements keep holds after a pass over any lines. -/
theorem Invariant.run (hP : Invariant target P) {t : ScopeTree} (ht : Rooted t) (h : P t 0)
    (lines : List (Nat × String)) : ∃ s, P (Reading.run target t lines).2.tree s :=
  (hP.on lines).run ht h

end Reading

end UnrollAsm
