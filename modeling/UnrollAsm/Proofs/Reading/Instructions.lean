import UnrollAsm.Proofs.Outcome
import UnrollAsm.Proofs.Reading.WellFormed

/-!
# What Reading Puts into a Tree

Where the parts of a tree come from. A statement adds one instruction at most,
which carries the line of the statement, and a command among them has a machine
id from the table that its mnemonic was found in. A variable that is declared is
followed by the instruction that sets it. A loop has bounds that were in order
when it was opened; and since reading changes no value, they still are when it is
done.

## Main definitions

* `Listed`: Every machine id is in its table.
* `Distinct`: No two instructions come from one line.
* `Settled`: Every variable is followed by its first reset.
* `Checked`: Every loop has bounds that are in order.

## Theorems

* `Grows.keep`, `Grows.views`: What is in a tree stays there.
* `Grows.headers`: A statement opens one loop at most.
* `Grows.instructions`: A statement adds one instruction at most.
* `GrowsAll.distinct`: Lines with different numbers have different instructions.
* `listed_invariant`, `settled_invariant`, `checked_invariant`: What reading keeps.
-/

namespace UnrollAsm

/-- The machine ids of all commands are in the tables of their classes. -/
def Listed (target : Target) (t : ScopeTree) : Prop :=
  ∀ m i command, t.item? m = some (.instruction i) → i.action = .emit command →
    ∃ mnemonic, (mnemonic, command.machineId) ∈ (target.table command.instructionClass).entries

/-- No two instructions come from one line. -/
def Distinct (t : ScopeTree) : Prop :=
  ∀ m m' i i', t.item? m = some (.instruction i) → t.item? m' = some (.instruction i') →
    i.source.number = i'.source.number → m = m'

/-- A variable is followed by an instruction that resets it. -/
def Settled (t : ScopeTree) : Prop :=
  ∀ x v, t.item? x = some (.symbol v) → v.isVar = true →
    ∃ i a, t.item? ⟨x.scope, x.index + 1⟩ = some (.instruction i) ∧ i.action = .reset a x

/-- The operands of every loop have the values that its header shows, and these
    are in order. -/
def Checked (t : ScopeTree) : Prop :=
  ∀ (c : Nat) h, t.headerAt c = some h → t.boundsOf h = .ok h.bounds ∧ h.bounds.check = .ok ()

/-! ## Items -/

section Items

variable {t u : ScopeTree} {s : Nat}

-- No tree has items before anything is read.
theorem item?_empty (a : Address) : ScopeTree.empty.item? a = none := by
  rcases a with ⟨r, k⟩
  cases r <;> simp [ScopeTree.empty, ScopeTree.item?, Scope.fresh]

theorem ScopeTree.lt_size_of_headerAt {c : Nat} {h : LoopHeader} (hh : t.headerAt c = some h) :
    c < t.size := by
  unfold ScopeTree.headerAt at hh
  rcases Option.bind_eq_some_iff.1 hh with ⟨scope, hscope, -⟩
  exact (Array.getElem?_eq_some_iff.1 hscope).1

theorem Stocks.keep (h : Stocks s t u) (hs : s < t.size) {a : Address} {x : Item}
    (hx : t.item? a = some x) : u.item? a = some x := by
  induction h with
  | refl => exact hx
  | push hrest _ ih => exact (Gains.push _ (hrest.size_eq ▸ hs)).keep ih

-- All that is new is literals.
theorem Stocks.item_cases (h : Stocks s t u) (hs : s < t.size) {a : Address} {x : Item}
    (hx : u.item? a = some x) : t.item? a = some x ∨ ∃ v, x = .symbol (.literal v) := by
  induction h with
  | refl => exact Or.inl hx
  | push hrest _ ih =>
      rcases ((Gains.push _ (hrest.size_eq ▸ hs)).item a x).1 hx with hx | ⟨-, rfl⟩
      · exact ih hx
      · exact Or.inr ⟨_, rfl⟩

theorem Stocks.headerAt_eq (h : Stocks s t u) (c : Nat) : u.headerAt c = t.headerAt c := by
  induction h with
  | refl => rfl
  | push _ _ ih => exact (ScopeTree.headerAt_push _ _ _ _).trans ih

theorem Stocks.parentAt_eq (h : Stocks s t u) (c : Nat) : u.parentAt c = t.parentAt c := by
  induction h with
  | refl => rfl
  | push _ _ ih => exact (ScopeTree.parentAt_push _ _ _ _).trans ih

end Items

section Grows

variable {target : Target} {source : SourceLine} {st : Statement} {t t' : ScopeTree} {s s' : Nat}

-- The two appends of a declaration.
theorem Gains.declare {u : ScopeTree} (hs : s < u.size) (c : Symbol) (i : Item) :
    Gains (u.push s (.symbol c)) ((u.push s (.symbol c)).push s i)
      ⟨s, (u.itemsAt s).length + 1⟩ i := by
  have hsu : s < (u.push s (.symbol c)).size := by
    rw [ScopeTree.size_push]
    exact hs
  have hgains := Gains.push i hsu
  rwa [ScopeTree.itemsAt_push_self _ hs, List.length_append, List.length_singleton] at hgains

/-- What is in a tree stays there. -/
theorem Grows.keep (h : Grows target source st t s t' s') (hs : s < t.size) {a : Address}
    {x : Item} (hx : t.item? a = some x) : t'.item? a = some x := by
  cases h with
  | empty => exact hx
  | const => exact (Gains.push _ hs).keep hx
  | reset hstock _ _ _ _ => exact (Gains.push _ (hstock.size_eq ▸ hs)).keep (hstock.keep hs hx)
  | declare hstock _ _ =>
      have hsu := hstock.size_eq ▸ hs
      exact (Gains.declare hsu _ _).keep ((Gains.push _ hsu).keep (hstock.keep hs hx))
  | loop hstock _ _ _ _ _ _ =>
      exact (Gains.nest _ (hstock.size_eq ▸ hs)).keep (hstock.keep hs hx)
  | pool _ => exact hx
  | command _ hstock _ _ =>
      exact (Gains.push _ (hstock.size_eq ▸ hs)).keep (hstock.keep hs hx)

/-- What is around a scope, and what opened it, stays as it is. -/
theorem Grows.views (h : Grows target source st t s t' s') {c : Nat} (hc : c < t.size) :
    t'.parentAt c = t.parentAt c ∧ t'.headerAt c = t.headerAt c := by
  cases h with
  | empty => exact ⟨rfl, rfl⟩
  | pool _ => exact ⟨rfl, rfl⟩
  | const => exact ⟨ScopeTree.parentAt_push _ _ _ c, ScopeTree.headerAt_push _ _ _ c⟩
  | reset hstock _ _ _ _ | command _ hstock _ _ =>
      rw [ScopeTree.parentAt_push, ScopeTree.headerAt_push]
      exact ⟨hstock.parentAt_eq c, hstock.headerAt_eq c⟩
  | declare hstock _ _ =>
      rw [ScopeTree.parentAt_push, ScopeTree.headerAt_push, ScopeTree.parentAt_push,
        ScopeTree.headerAt_push]
      exact ⟨hstock.parentAt_eq c, hstock.headerAt_eq c⟩
  | loop hstock _ _ _ _ _ _ =>
      have hcu := hstock.size_eq ▸ hc
      rw [ScopeTree.parentAt_nest _ hcu, ScopeTree.headerAt_nest _ hcu]
      exact ⟨hstock.parentAt_eq c, hstock.headerAt_eq c⟩

/-- A statement adds the header of one loop at most, and only if it opens it. -/
theorem Grows.headers (h : Grows target source st t s t' s') (hs : s < t.size) {c : Nat}
    {header : LoopHeader} (hh : t'.headerAt c = some header) :
    t.headerAt c = some header ∨
      (header.source = source ∧ ∃ start stop step, st = .loop start stop step) := by
  by_cases hc : c < t.size
  · rw [(h.views hc).2] at hh
    exact Or.inl hh
  · -- Only a loop has made the tree longer.
    have hlt := ScopeTree.lt_size_of_headerAt hh
    cases h with
    | empty => exact absurd hlt hc
    | pool _ => exact absurd hlt hc
    | const =>
        rw [ScopeTree.size_push] at hlt
        exact absurd hlt hc
    | reset hstock _ _ _ _ | command _ hstock _ _ =>
        rw [ScopeTree.size_push, hstock.size_eq] at hlt
        exact absurd hlt hc
    | declare hstock _ _ =>
        rw [ScopeTree.size_push, ScopeTree.size_push, hstock.size_eq] at hlt
        exact absurd hlt hc
    | @loop _ u _ start stop step _ hstock _ _ _ hsource _ _ =>
        have hsize := hstock.size_eq
        rw [ScopeTree.size_nest] at hlt
        obtain rfl : c = u.size := by omega
        rw [ScopeTree.headerAt_nest_body _ (hsize ▸ hs)] at hh
        cases hh
        exact Or.inr ⟨hsource, start, stop, step, rfl⟩

-- A machine id is taken from the first table that lists its mnemonic.
theorem mem_entries_of_resolve? {mnemonic : String} {cls : InstructionClass} {id : Nat}
    (h : target.resolve? mnemonic = some (cls, id)) :
    (mnemonic, id) ∈ (target.table cls).entries := by
  rcases List.exists_of_findSome?_eq_some h with ⟨cls', -, hcls⟩
  rcases Option.map_eq_some_iff.1 hcls with ⟨id', hid, hpair⟩
  cases hpair
  rcases Option.map_eq_some_iff.1 hid with ⟨entry, hfind, rfl⟩
  have hname : entry.1 = mnemonic := by simpa using List.find?_some hfind
  rw [← hname]
  exact List.mem_of_find?_eq_some hfind

-- A command has the class and the machine id that its mnemonic was resolved to.
theorem command_of_action? {id : Nat} {mnemonic : String} {cls : InstructionClass}
    {addresses : List Address} {command : Command}
    (h : Reading.action? id mnemonic cls addresses = some (.emit command)) :
    command.instructionClass = cls ∧ command.machineId = id := by
  unfold Reading.action? at h
  split at h
  · cases h
    exact ⟨rfl, rfl⟩
  · cases h
    exact ⟨rfl, rfl⟩
  · cases h
    exact ⟨rfl, rfl⟩
  · cases h
    exact ⟨rfl, rfl⟩
  · rcases Option.map_eq_some_iff.1 h with ⟨op, -, hop⟩
    cases hop
  · cases h

/-- A statement adds one instruction at most. It comes from the line of the
    statement, and its class and machine id are those of the mnemonic there. -/
theorem Grows.instructions (h : Grows target source st t s t' s') (hs : s < t.size) :
    ∃ new : Address, ∀ m i, t'.item? m = some (.instruction i) →
      t.item? m = some (.instruction i) ∨ (m = new ∧ i.source = source ∧
        ∀ command, i.action = .emit command → ∃ mnemonic operands,
          st = .command mnemonic operands ∧
          target.resolve? mnemonic = some (command.instructionClass, command.machineId)) := by
  -- Literals are no instructions.
  have hold : ∀ {u : ScopeTree}, Stocks s t u → ∀ {m i}, u.item? m = some (.instruction i) →
      t.item? m = some (.instruction i) := by
    intro u hstock m i hm
    rcases hstock.item_cases hs hm with hm | ⟨v, hv⟩
    · exact hm
    · cases hv
  cases h with
  | empty => exact ⟨⟨0, 0⟩, fun m i hm => Or.inl hm⟩
  | pool _ => exact ⟨⟨0, 0⟩, fun m i hm => Or.inl hm⟩
  | const =>
      refine ⟨⟨0, 0⟩, fun m i hm => ?_⟩
      rcases ((Gains.push _ hs).item m _).1 hm with hm | ⟨-, hi⟩
      · exact Or.inl hm
      · cases hi
  | @loop _ u _ _ _ _ header hstock _ _ _ _ _ _ =>
      refine ⟨⟨0, 0⟩, fun m i hm => ?_⟩
      rcases ((Gains.nest header (hstock.size_eq ▸ hs)).item m _).1 hm with hm | ⟨-, hi⟩
      · exact Or.inl (hold hstock hm)
      · cases hi
  | @reset _ u _ _ _ _ _ _ hstock _ _ _ _ =>
      refine ⟨⟨s, (u.itemsAt s).length⟩, fun m i hm => ?_⟩
      rcases ((Gains.push _ (hstock.size_eq ▸ hs)).item m _).1 hm with hm | ⟨rfl, hi⟩
      · exact Or.inl (hold hstock hm)
      · cases hi
        exact Or.inr ⟨rfl, rfl, fun command haction => by cases haction⟩
  | @declare _ u _ _ _ _ _ hstock _ _ =>
      have hsu := hstock.size_eq ▸ hs
      refine ⟨⟨s, (u.itemsAt s).length + 1⟩, fun m i hm => ?_⟩
      rcases ((Gains.declare hsu _ _).item m _).1 hm with hm | ⟨rfl, hi⟩
      · rcases ((Gains.push _ hsu).item m _).1 hm with hm | ⟨-, hi⟩
        · exact Or.inl (hold hstock hm)
        · cases hi
      · cases hi
        exact Or.inr ⟨rfl, rfl, fun command haction => by cases haction⟩
  | @command _ u _ _ _ _ _ _ _ hresolve hstock _ haction =>
      refine ⟨⟨s, (u.itemsAt s).length⟩, fun m i hm => ?_⟩
      rcases ((Gains.push _ (hstock.size_eq ▸ hs)).item m _).1 hm with hm | ⟨rfl, hi⟩
      · exact Or.inl (hold hstock hm)
      · cases hi
        refine Or.inr ⟨rfl, rfl, fun command hemit => ?_⟩
        rcases command_of_action? (haction.trans (congrArg some hemit)) with ⟨rfl, rfl⟩
        exact ⟨_, _, rfl, hresolve⟩

end Grows

/-! ## Machine ids -/

theorem Listed.empty (target : Target) : Listed target .empty := by
  intro m i command hm
  rw [item?_empty] at hm
  cases hm

theorem listed_invariant (target : Target) :
    Reading.Invariant target fun t _ => Listed target t where
  stocks hsound h hstock m i command hm haction := by
    rcases hstock.item_cases hsound.current hm with hm | ⟨v, hv⟩
    · exact h m i command hm haction
    · cases hv
  grows hsound h hgrows m i command hm haction := by
    rcases hgrows.instructions hsound.current with ⟨new, hnew⟩
    rcases hnew m i hm with hm | ⟨-, -, hlisted⟩
    · exact h m i command hm haction
    · rcases hlisted command haction with ⟨mnemonic, -, -, hresolve⟩
      exact ⟨mnemonic, mem_entries_of_resolve? hresolve⟩

/-! ## Lines -/

theorem Distinct.empty : Distinct .empty := by
  intro m m' i i' hm
  rw [item?_empty] at hm
  cases hm

/-- Lines with different numbers have different instructions, provided that the
    tree has none of these lines yet. -/
theorem GrowsAll.distinct {target : Target} {lines : List (Nat × String)} {t t' : ScopeTree}
    {s s' : Nat} (h : GrowsAll target lines t s t' s') (hsound : Sound t s) (ht : Distinct t)
    (hnodup : (lines.map Prod.fst).Nodup)
    (hnew : ∀ m i, t.item? m = some (.instruction i) → i.source.number ∉ lines.map Prod.fst) :
    Distinct t' := by
  induction h with
  | nil => exact ht
  | @cons t u _ s _ _ number text _ rest _ hgrows _ ih =>
      rw [List.map_cons, List.nodup_cons] at hnodup
      rcases hgrows.instructions hsound.current with ⟨new, hinstructions⟩
      have hfresh : ∀ m i, t.item? m = some (.instruction i) → i.source.number ≠ number ∧
          i.source.number ∉ rest.map Prod.fst := by
        intro m i hm
        have := hnew m i hm
        rw [List.map_cons, List.mem_cons, not_or] at this
        exact this
      refine ih (hgrows.sound hsound) (fun m m' i i' hm hm' heq => ?_) hnodup.2 fun m i hm => ?_
      · rcases hinstructions m i hm with hm | ⟨rfl, hi, -⟩
        · rcases hinstructions m' i' hm' with hm' | ⟨rfl, hi', -⟩
          · exact ht m m' i i' hm hm' heq
          · rw [hi'] at heq
            exact absurd heq (hfresh m i hm).1
        · rcases hinstructions m' i' hm' with hm' | ⟨rfl, -, -⟩
          · rw [hi] at heq
            exact absurd heq.symm (hfresh m' i' hm').1
          · rfl
      · rcases hinstructions m i hm with hm | ⟨-, hi, -⟩
        · exact (hfresh m i hm).2
        · rw [hi]
          exact hnodup.1

/-! ## Variables -/

theorem Settled.empty : Settled .empty := by
  intro x v hx
  rw [item?_empty] at hx
  cases hx

section Settled

variable {t u : ScopeTree}

-- What is new is not a variable, and what was there stays.
theorem Settled.grow (h : Settled t) (hkeep : ∀ a x, t.item? a = some x → u.item? a = some x)
    (hold : ∀ x v, u.item? x = some (.symbol v) → v.isVar = true →
      t.item? x = some (.symbol v)) : Settled u := by
  intro x v hx hvar
  rcases h x v (hold x v hx hvar) hvar with ⟨i, a, hi, haction⟩
  exact ⟨i, a, hkeep _ _ hi, haction⟩

theorem Settled.gains (h : Settled t) {m : Address} {item : Item} (hgains : Gains t u m item)
    (hitem : ∀ v, item = .symbol v → v.isVar = false) : Settled u := by
  refine h.grow (fun a x => hgains.keep) fun x v hx hvar => ?_
  rcases (hgains.item x _).1 hx with hx | ⟨-, hv⟩
  · exact hx
  · rw [hitem v hv.symm] at hvar
    cases hvar

theorem Stocks.settled {s : Nat} (hstock : Stocks s t u) (hs : s < t.size) (h : Settled t) :
    Settled u := by
  refine h.grow (fun a x => hstock.keep hs) fun x v hx hvar => ?_
  rcases hstock.item_cases hs hx with hx | ⟨w, hw⟩
  · exact hx
  · cases hw
    cases hvar

theorem settled_invariant (target : Target) :
    Reading.Invariant target fun t _ => Settled t where
  stocks hsound h hstock := hstock.settled hsound.current h
  grows := by
    intro source st t t' s s' hsound h hgrows
    have hs := hsound.current
    cases hgrows with
    | empty => exact h
    | pool _ => exact h
    | const =>
        refine h.gains (Gains.push _ hs) fun v hv => ?_
        cases hv
        rfl
    | reset hstock _ _ _ _ =>
        exact (hstock.settled hs h).gains (Gains.push _ (hstock.size_eq ▸ hs)) fun v hv => by
          cases hv
    | command _ hstock _ _ =>
        exact (hstock.settled hs h).gains (Gains.push _ (hstock.size_eq ▸ hs)) fun v hv => by
          cases hv
    | loop hstock _ _ _ _ _ _ =>
        exact (hstock.settled hs h).gains (Gains.nest _ (hstock.size_eq ▸ hs)) fun v hv => by
          cases hv
    | @declare _ u _ name value a v₀ hstock _ _ =>
        have hsu : s < u.size := hstock.size_eq ▸ hs
        have hu := hstock.settled hs h
        have hsymbol := Gains.push (.symbol ⟨.var, name, v₀⟩) hsu
        have hreset := Gains.declare hsu ⟨.var, name, v₀⟩
          (.instruction ⟨s, source, .reset a ⟨s, (u.itemsAt s).length⟩⟩)
        intro x v hx hvar
        rcases (hreset.item x _).1 hx with hx | ⟨-, hv⟩
        · rcases (hsymbol.item x _).1 hx with hx | ⟨rfl, -⟩
          · rcases hu x v hx hvar with ⟨i, b, hi, haction⟩
            exact ⟨i, b, hreset.keep (hsymbol.keep hi), haction⟩
          · -- The new variable and its reset have been appended together.
            exact ⟨_, a, (hreset.item _ _).2 (Or.inr ⟨rfl, rfl⟩), rfl⟩
        · cases hv

end Settled

/-! ## Bounds -/

section Checked

variable {t u : ScopeTree}

theorem Checked.empty : Checked .empty := by
  intro c h hh
  have hnone : ScopeTree.empty.headerAt c = none := by
    cases c <;> simp [ScopeTree.empty, ScopeTree.headerAt, Scope.fresh]
  rw [hnone] at hh
  cases hh

theorem valueOf_keep (hkeep : ∀ a x, t.item? a = some x → u.item? a = some x) {a : Address}
    {line : Nat} {v : Int32} (h : t.valueOf a line = .ok v) : u.valueOf a line = .ok v := by
  unfold ScopeTree.valueOf at h ⊢
  rcases exists_of_bind_eq_ok h with ⟨item, hitem, hvalue⟩
  rw [ScopeTree.item_eq_ok (hkeep a item (ScopeTree.item?_of_orFault hitem))]
  exact hvalue

-- Reading changes no value.
theorem boundsOf_keep (hkeep : ∀ a x, t.item? a = some x → u.item? a = some x) {h : LoopHeader}
    {b : Bounds} (hb : t.boundsOf h = .ok b) : u.boundsOf h = .ok b := by
  unfold ScopeTree.boundsOf at hb ⊢
  rcases exists_of_bind_eq_ok hb with ⟨start, hstart, hb⟩
  rcases exists_of_bind_eq_ok hb with ⟨stop, hstop, hb⟩
  rcases exists_of_bind_eq_ok hb with ⟨step, hstep, hb⟩
  rw [valueOf_keep hkeep hstart, valueOf_keep hkeep hstop, valueOf_keep hkeep hstep]
  exact hb

theorem Checked.grow (h : Checked t) (hkeep : ∀ a x, t.item? a = some x → u.item? a = some x)
    (hheader : ∀ (c : Nat), u.headerAt c = t.headerAt c) : Checked u := by
  intro c header hh
  rw [hheader] at hh
  rcases h c header hh with ⟨hbounds, hcheck⟩
  exact ⟨boundsOf_keep hkeep hbounds, hcheck⟩

theorem checked_invariant (target : Target) :
    Reading.Invariant target fun t _ => Checked t where
  stocks hsound h hstock :=
    h.grow (fun _ _ => hstock.keep hsound.current) hstock.headerAt_eq
  grows := by
    intro source st t t' s s' hsound h hgrows
    have hs := hsound.current
    have hkeep : ∀ a x, t.item? a = some x → t'.item? a = some x := fun a x => hgrows.keep hs
    cases hgrows with
    | empty => exact h
    | pool _ => exact h
    | const => exact h.grow hkeep fun c => ScopeTree.headerAt_push _ _ _ c
    | reset hstock _ _ _ _ | command _ hstock _ _ =>
        exact h.grow hkeep fun c =>
          (ScopeTree.headerAt_push _ _ _ c).trans (hstock.headerAt_eq c)
    | declare hstock _ _ =>
        exact h.grow hkeep fun c => (ScopeTree.headerAt_push _ _ _ c).trans
          ((ScopeTree.headerAt_push _ _ _ c).trans (hstock.headerAt_eq c))
    | @loop _ u _ _ _ _ header hstock _ _ _ _ hbounds hcheck =>
        have hsu : s < u.size := hstock.size_eq ▸ hs
        have hnest : ∀ a x, u.item? a = some x → (u.nest s header).item? a = some x :=
          fun a x => (Gains.nest header hsu).keep
        intro c hd hh
        have hlt := ScopeTree.lt_size_of_headerAt hh
        rw [ScopeTree.size_nest] at hlt
        by_cases hc : c < u.size
        · rw [ScopeTree.headerAt_nest header hc, hstock.headerAt_eq] at hh
          rcases h c hd hh with ⟨hbounds', hcheck'⟩
          exact ⟨boundsOf_keep hkeep hbounds', hcheck'⟩
        · -- The loop that has just been opened.
          obtain rfl : c = u.size := by omega
          rw [ScopeTree.headerAt_nest_body header hsu] at hh
          cases hh
          exact ⟨boundsOf_keep hnest hbounds, hcheck⟩

end Checked

end UnrollAsm
