import UnrollAsm.Proofs.Reading.Growth
import UnrollAsm.Proofs.Tree.WellFormed

/-!
# Reading Keeps Trees Well Formed

Reading passes over arbitrary lines, one after the other and each of them broken
off anywhere, leave a well-formed tree. A pass starts at the root of whatever
tree the passes before it have left, with the loops they did not close, and it
never enters these loops again.

The state of a pass has more to it than the tree. The loops around the current
scope are unfinished: each has its marker at the very end of the scope it stands
in. That is why a name which is found further out stands in front of the marker
that leads inwards. A loop that a broken pass left open loses this property as
soon as the next pass appends to the scope around it, but by then nothing is
looked up from inside it any more.

## Main definitions

* `Unfinished`: The markers that lead to the current scope are last.
* `readings`: The tree after passes in a row.

## Theorems

* `Unfinished.defines`: What is found is in front of the next item.
* `Stocks.tidy`, `Grows.tidy`: Literals and statements keep the state tidy.
* `wellFormed_readings`: Passes in a row leave a well-formed tree.
-/

namespace UnrollAsm

/-- The loops around the scope `s` are not finished: the marker of each is the
    last item of the scope it stands in. -/
inductive Unfinished (t : ScopeTree) : Nat → Prop
  | root : t.parentAt 0 = none → Unfinished t 0
  | loop {s c : Nat} {items : List Item} :
      Unfinished t s → s < c → t.parentAt c = some s → t.itemsAt s = items ++ [.loop c] →
      Unfinished t c

namespace Precedes

variable {t : ScopeTree} {a : Address} {s i j : Nat}

theorem weaken (h : Precedes t a ⟨s, i⟩) (hij : i ≤ j) : Precedes t a ⟨s, j⟩ := by
  cases h with
  | here hlt => exact .here (Nat.lt_of_lt_of_le hlt hij)
  | outer hmarker hrest => exact .outer hmarker hrest

-- In front of the place behind an item, but not at the item.
theorem step_back (h : Precedes t a ⟨s, i + 1⟩) (hne : a ≠ ⟨s, i⟩) : Precedes t a ⟨s, i⟩ := by
  cases h with
  | here hlt =>
      have hindex : a.index ≠ i := by
        rintro rfl
        exact hne rfl
      exact .here (by omega)
  | outer hmarker hrest => exact .outer hmarker hrest

end Precedes

namespace Unfinished

variable {t u : ScopeTree} {s : Nat}

/-- What is found under a name is a symbol in front of the next item. -/
theorem defines (h : Unfinished t s) (hs : s < t.size) {name : String} {a : Address}
    (hfind : t.find s name = .ok (some a)) : Defines t a ⟨s, (t.itemsAt s).length⟩ := by
  refine ⟨?_, (symbol_of_find hs hfind).imp fun _ hc => hc.1⟩
  -- A symbol of the scope itself is further up.
  have hlocal : ∀ {r index : Nat}, (t.itemsAt r).findIdx? (Item.isNamed name) = some index →
      Precedes t ⟨r, index⟩ ⟨r, (t.itemsAt r).length⟩ := by
    intro r index hidx
    rcases List.findIdx?_eq_some_iff_getElem.1 hidx with ⟨hlt, -, -⟩
    exact .here hlt
  induction h with
  | root hparent =>
      rw [ScopeTree.find_step hs, hparent] at hfind
      cases hidx : (t.itemsAt 0).findIdx? (Item.isNamed name) with
      | some index =>
          rw [hidx] at hfind
          cases hfind
          exact hlocal hidx
      | none =>
          rw [hidx] at hfind
          cases hfind
  | @loop r c items _ hlt hparent hitems ih =>
      rw [ScopeTree.find_step hs, hparent] at hfind
      cases hidx : (t.itemsAt c).findIdx? (Item.isNamed name) with
      | some index =>
          rw [hidx] at hfind
          cases hfind
          exact hlocal hidx
      | none =>
          rw [hidx] at hfind
          dsimp only at hfind
          rw [if_pos hlt] at hfind
          have hr : r < t.size := Nat.lt_trans hlt hs
          have hfar := ih hr hfind
          rw [hitems, List.length_append] at hfar
          -- The marker is the last item out there, and it is no symbol.
          have hmarker : t.item? ⟨r, items.length⟩ = some (.loop c) := by
            rw [ScopeTree.item?_eq, hitems]
            exact List.getElem?_concat_length
          have hne : a ≠ ⟨r, items.length⟩ := by
            rintro rfl
            rcases symbol_of_find hr hfind with ⟨d, hd, -⟩
            rw [hmarker] at hd
            cases hd
          exact .outer hmarker (hfar.step_back hne)

-- The chain depends on older scopes, and on the scope itself only for what it is nested in.
theorem congr (h : Unfinished t s) (heq : ∀ r, r < s → u.scopes[r]? = t.scopes[r]?)
    (hparent : u.parentAt s = t.parentAt s) : Unfinished u s := by
  induction h with
  | root hroot => exact .root (hparent.trans hroot)
  | @loop r c _ _ hlt hp hitems ih =>
      have hr := heq r hlt
      have houter := ih (fun q hq => heq q (Nat.lt_trans hq hlt)) (ScopeTree.parentAt_congr hr)
      exact .loop houter hlt (hparent.trans hp) ((ScopeTree.itemsAt_congr hr).trans hitems)

theorem push (h : Unfinished t s) (i : Item) : Unfinished (t.push s i) s :=
  h.congr (fun _ hr => ScopeTree.scopes_push_of_ne (Nat.ne_of_gt hr))
    (ScopeTree.parentAt_push t s i s)

theorem nest (h : Unfinished t s) (header : LoopHeader) (hs : s < t.size) :
    Unfinished (t.nest s header) t.size := by
  have hscope : Unfinished (t.nest s header) s := by
    refine h.congr (fun r hr => ?_) (ScopeTree.parentAt_nest header hs)
    rw [ScopeTree.scopes_nest header (Nat.lt_trans hr hs), if_neg (Nat.ne_of_gt hr)]
  have hitems : (t.nest s header).itemsAt s = t.itemsAt s ++ [.loop t.size] := by
    rw [ScopeTree.itemsAt_nest header hs, if_pos rfl]
  exact .loop hscope hs (ScopeTree.parentAt_nest_body header hs) hitems

-- The scope around an unfinished loop.
theorem around (h : Unfinished t s) {p : Nat} (hp : t.parentAt s = some p) : Unfinished t p := by
  cases h with
  | root hroot =>
      rw [hroot] at hp
      cases hp
  | loop houter _ hparent _ =>
      rw [hparent] at hp
      cases hp
      exact houter

end Unfinished

/-! ## One step -/

/-- The state of a pass: the tree is well formed, and the loops around the
    current scope are unfinished. -/
structure Tidy (t : ScopeTree) (s : Nat) : Prop where
  wellFormed : WellFormed t
  unfinished : Unfinished t s

theorem Tidy.resolved {t : ScopeTree} {s : Nat} (h : Tidy t s) (hs : s < t.size) {op : Operand}
    {a : Address} (ha : Resolved t s op a) : Defines t a ⟨s, (t.itemsAt s).length⟩ :=
  h.unfinished.defines hs ha

/-- Literals keep the state tidy. -/
theorem Stocks.tidy {t u : ScopeTree} {s : Nat} (hstock : Stocks s t u) (hs : s < t.size)
    (h : Tidy t s) : Tidy u s := by
  induction hstock with
  | refl => exact h
  | push hrest _ ih =>
      have hu : s < _ := hrest.size_eq ▸ hs
      exact ⟨ih.wellFormed.push_symbol hu _, ih.unfinished.push _⟩

-- A mnemonic becomes an instruction with the operands that were written.
theorem operands_of_action? {id : Nat} {mnemonic : String} {cls : InstructionClass}
    {addresses : List Address} {action : Action}
    (h : Reading.action? id mnemonic cls addresses = some action) :
    action.operands = addresses ∧ ∀ a b, action ≠ .reset a b := by
  unfold Reading.action? at h
  split at h
  · cases h
    exact ⟨rfl, fun a b hab => by cases hab⟩
  · cases h
    exact ⟨rfl, fun a b hab => by cases hab⟩
  · cases h
    exact ⟨rfl, fun a b hab => by cases hab⟩
  · cases h
    exact ⟨rfl, fun a b hab => by cases hab⟩
  · rcases Option.map_eq_some_iff.1 h with ⟨op, -, rfl⟩
    exact ⟨rfl, fun a b hab => by cases hab⟩
  · cases h

/-- A statement keeps the state tidy. -/
theorem Grows.tidy {target : Target} {source : SourceLine} {st : Statement} {t t' : ScopeTree}
    {s s' : Nat} (hgrows : Grows target source st t s t' s') (hsound : Sound t s)
    (h : Tidy t s) : Tidy t' s' := by
  have hs := hsound.current
  cases hgrows with
  | empty => exact h
  | const => exact ⟨h.wellFormed.push_symbol hs _, h.unfinished.push _⟩
  | @reset _ u _ name value a b c hstock hvalue hname hitem hvar =>
      have hu := hstock.tidy hs h
      have hsu : s < u.size := hstock.size_eq ▸ hs
      refine ⟨hu.wellFormed.push_instruction hsu source ?_ ?_, hu.unfinished.push _⟩
      · intro x hx
        simp only [Action.operands, List.mem_cons, List.not_mem_nil, or_false] at hx
        rcases hx with rfl | rfl
        · exact hu.resolved hsu hvalue
        · exact hu.resolved hsu hname
      · rintro _ _ ⟨⟩
        exact ⟨c, hitem, hvar⟩
  | @declare _ u _ name value a v hstock hvalue _ =>
      have hu := hstock.tidy hs h
      have hsu : s < u.size := hstock.size_eq ▸ hs
      have hgains := Gains.push (.symbol ⟨.var, name, v⟩) hsu
      have hsu' : s < (u.push s (.symbol ⟨.var, name, v⟩)).size := by
        rw [ScopeTree.size_push]
        exact hsu
      -- The variable has just been appended, in front of its first reset.
      have hnew : (u.push s (.symbol ⟨.var, name, v⟩)).item? ⟨s, (u.itemsAt s).length⟩ =
          some (.symbol ⟨.var, name, v⟩) := (hgains.item _ _).2 (Or.inr ⟨rfl, rfl⟩)
      have hlen : ((u.push s (.symbol ⟨.var, name, v⟩)).itemsAt s).length =
          (u.itemsAt s).length + 1 := by
        rw [ScopeTree.itemsAt_push_self _ hsu, List.length_append, List.length_singleton]
      refine ⟨(hu.wellFormed.push_symbol hsu _).push_instruction hsu' source ?_ ?_,
        (hu.unfinished.push _).push _⟩
      · intro x hx
        simp only [Action.operands, List.mem_cons, List.not_mem_nil, or_false] at hx
        rw [hlen]
        rcases hx with rfl | rfl
        · have hfront := hgains.defines (hu.resolved hsu hvalue)
          exact ⟨hfront.precedes.weaken (Nat.le_succ _), hfront.symbol⟩
        · exact ⟨.here (Nat.lt_succ_self _), _, hnew⟩
      · rintro _ _ ⟨⟩
        exact ⟨_, hnew, rfl⟩
  | @loop _ u _ start stop step header hstock hstart hstop hstep _ _ _ =>
      have hu := hstock.tidy hs h
      have hsu : s < u.size := hstock.size_eq ▸ hs
      refine ⟨hu.wellFormed.nest hsu ?_ ?_, hu.unfinished.nest header hsu⟩
      · -- No marker leads to a scope that does not exist yet.
        intro m hm
        rw [ScopeTree.item?_eq] at hm
        have hparent := (hstock.sound hsound).rooted.linked _ _ (List.mem_of_getElem? hm)
        exact Nat.lt_irrefl _ (ScopeTree.lt_size_of_parentAt hparent)
      · intro x hx
        simp only [LoopHeader.operands, List.mem_cons, List.not_mem_nil, or_false] at hx
        rcases hx with rfl | rfl | rfl
        · exact hu.resolved hsu hstart
        · exact hu.resolved hsu hstop
        · exact hu.resolved hsu hstep
  | pool hparent => exact ⟨h.wellFormed, h.unfinished.around hparent⟩
  | @command _ u _ mnemonic operands cls id addresses action _ hstock haddr haction =>
      have hu := hstock.tidy hs h
      have hsu : s < u.size := hstock.size_eq ▸ hs
      rcases operands_of_action? haction with ⟨hops, hreset⟩
      refine ⟨hu.wellFormed.push_instruction hsu source ?_ ?_, hu.unfinished.push _⟩
      · intro x hx
        rw [hops] at hx
        rcases List.forall₂_iff_get.1 haddr with ⟨hlen, hget⟩
        rcases List.mem_iff_getElem.1 hx with ⟨k, hk, rfl⟩
        exact hu.resolved hsu (hget k (hlen ▸ hk) hk)
      · intro a b hab
        exact absurd hab (hreset a b)

/-! ## Whole passes -/

/-- The tree after passes over lines in a row, each of which goes on with what
    the one before has left, also after a mistake. -/
def readings (target : Target) (passes : List (List (Nat × String))) : ScopeTree :=
  passes.foldl (fun t lines => (Reading.run target t lines).2.tree) .empty

theorem tidy_invariant (target : Target) :
    Reading.Invariant target fun t s => Rooted t ∧ Tidy t s where
  stocks hsound h hstock := ⟨(hstock.sound hsound).rooted, hstock.tidy hsound.current h.2⟩
  grows hsound h hgrows := ⟨(hgrows.sound hsound).rooted, hgrows.tidy hsound h.2⟩

theorem wellFormed_foldl (target : Target) (passes : List (List (Nat × String))) {t : ScopeTree}
    (hrooted : Rooted t) (h : WellFormed t) :
    WellFormed (passes.foldl (fun t lines => (Reading.run target t lines).2.tree) t) := by
  induction passes generalizing t with
  | nil => exact h
  | cons lines rest ih =>
      -- A pass starts at the root, whatever the last one has left open.
      have hstart : Tidy t 0 := ⟨h, .root h.root⟩
      rcases (tidy_invariant target).run hrooted ⟨hrooted, hstart⟩ lines with ⟨s, hrooted', h'⟩
      exact ih hrooted' h'.wellFormed

/-- Passes over any lines, successful or not, leave a well-formed tree. -/
theorem wellFormed_readings (target : Target) (passes : List (List (Nat × String))) :
    WellFormed (readings target passes) :=
  wellFormed_foldl target passes .empty .empty

end UnrollAsm
