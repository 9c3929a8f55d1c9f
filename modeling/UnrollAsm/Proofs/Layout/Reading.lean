import UnrollAsm.Proofs.Layout.Basic
import UnrollAsm.Proofs.Reading.Growth
import UnrollAsm.Proofs.Statement.Names

/-!
# Reading Lays Out a Program

Reading keeps the tree in step with the outline of the lines read so far. Each
way in which a statement makes the tree grow is matched by one more clause, one
more open loop, or one loop closed; and a program that ends outside every loop
has become the layout of a block in the root.

The addresses that the reader found are the ones that operands denote at their
positions. For names this is the agreement of two look-ups. For literals it takes
that nothing but the constant of a literal is called by its decimal text.

## Main definitions

* `Laid`: The tree is the layout of a whole block.

## Theorems

* `Reads.denotes`: What the reader resolved is what the operand denotes.
* `Reads.grows`: One statement keeps tree and outline in step.
* `Laid.growsAll`: Lines in a row extend the block that is laid out.
-/

namespace UnrollAsm

/-- The tree is the layout of a block at the root. -/
def Laid (target : Target) (t : ScopeTree) (block : Block) : Prop :=
  Reads target ⟨block, []⟩ t 0 []

namespace Position

theorem mem_of_item? {pos : Position} {a : Address} {i : Item} (h : pos.item? a = some i) :
    ∃ p ∈ pos, i ∈ p.items := by
  induction pos with
  | nil => cases h
  | cons p outer ih =>
      unfold item? at h
      split at h
      · exact ⟨p, List.mem_cons_self, List.mem_of_getElem? h⟩
      · rcases ih h with ⟨q, hq, hi⟩
        exact ⟨q, List.mem_cons_of_mem _ hq, hi⟩

end Position

theorem Within.item? {t : ScopeTree} {pos : Position} (h : Within t pos) {a : Address} {i : Item}
    (hi : pos.item? a = some i) : t.item? a = some i := by
  induction pos with
  | nil => cases hi
  | cons p outer ih =>
      unfold Position.item? at hi
      split at hi
      · rename_i hscope
        rcases h p List.mem_cons_self with ⟨rest, hrest⟩
        have hlt : a.index < p.items.length := (List.getElem?_eq_some_iff.1 hi).1
        rw [ScopeTree.item?_eq, ← hscope, ← hrest, List.getElem?_append_left hlt]
        exact hi
      · exact ih (fun q hq => h q (List.mem_cons_of_mem _ hq)) hi

theorem Opened.within {target : Target} {t : ScopeTree} {around : List (LoopLine × Block)}
    {s : Nat} {up : Position} (h : Opened target t around s up) : Within t up := by
  induction h with
  | root _ _ =>
      intro p hp
      cases hp
  | loop _ _ hitems _ _ _ ih =>
      intro p hp
      rcases List.mem_cons.1 hp with rfl | hp
      · rw [hitems]
        exact List.prefix_append _ _
      · exact ih p hp

namespace Reads

variable {target : Target} {o : Outline} {t u : ScopeTree} {s : Nat} {up : Position}

theorem lt_size (h : Reads target o t s up) : s < t.size :=
  h.lays.lt

theorem within (h : Reads target o t s up) : Within t (⟨s, t.itemsAt s⟩ :: up) := by
  intro p hp
  rcases List.mem_cons.1 hp with rfl | hp
  · exact List.prefix_rfl
  · exact h.opened.within p hp

theorem lookup_eq (h : Reads target o t s up) {name : String} {a : Address}
    (ha : t.find s name = .ok (some a)) :
    Position.lookup (⟨s, t.itemsAt s⟩ :: up) name = some a := by
  rw [h.opened.find_eq h.lt_size, Except.ok.injEq] at ha
  exact ha

theorem find_eq (h : Reads target o t s up) {name : String} {a : Address}
    (ha : Position.lookup (⟨s, t.itemsAt s⟩ :: up) name = some a) :
    t.find s name = .ok (some a) := by
  rw [h.opened.find_eq h.lt_size, ha]

-- What is found under a name is declared under it, or a literal.
theorem symbol_of_find (h : Reads target o t s up) {name : String} {a : Address}
    (ha : t.find s name = .ok (some a)) :
    ∃ c, Position.item? (⟨s, t.itemsAt s⟩ :: up) a = some (.symbol c) ∧ c.name = name ∧
      (Statement.isIdentifier c.name ∨ ∃ v, c = .literal v) := by
  rcases Position.symbol_of_lookup (h.opened.descends _) (h.lookup_eq ha) with ⟨c, hc, hname⟩
  refine ⟨c, hc, hname, ?_⟩
  rcases Position.mem_of_item? hc with ⟨p, hp, hmem⟩
  rcases List.mem_cons.1 hp with rfl | hp
  · exact h.lays.named hmem
  · exact h.opened.named hp hmem

/-- What the reader resolved is what the operand denotes. -/
theorem denotes (h : Reads target o t s up) {op : Operand} {a : Address} (hop : op.Named)
    (ha : Resolved t s op a) : Position.Denotes (⟨s, t.itemsAt s⟩ :: up) op a := by
  cases op with
  | name name => exact ⟨hop, h.lookup_eq ha⟩
  | literal v =>
      rcases h.symbol_of_find ha with ⟨c, hc, hname, hident | ⟨v', rfl⟩⟩
      · -- The symbol has the text of a literal, so it is not a declared one.
        rw [hname] at hident
        exact absurd hident (isIdentifier_decimal v)
      · cases Text.decimal_injective hname
        exact hc

theorem denotes_all (h : Reads target o t s up) {operands : List Operand}
    {addresses : List Address} (hop : ∀ op ∈ operands, op.Named)
    (ha : List.Forall₂ (Resolved t s) operands addresses) :
    List.Forall₂ (Position.Denotes (⟨s, t.itemsAt s⟩ :: up)) operands addresses := by
  induction ha with
  | nil => exact .nil
  | cons hfirst _ ih =>
      exact .cons (h.denotes (hop _ List.mem_cons_self) hfirst)
        (ih fun op hmem => hop op (List.mem_cons_of_mem _ hmem))

-- One more item in the current scope, provided that it fits the block.
theorem push (h : Reads target o t s up) {block : Block} {i : Item}
    (hlays : Lays target t up s block (t.itemsAt s ++ [i]) t.size) :
    Reads target { o with block := block } (t.push s i) s up where
  opened := h.opened.congr (fun _ hr => ScopeTree.scopes_push_of_ne (Nat.ne_of_gt hr))
    (ScopeTree.headerAt_push t s i s) (ScopeTree.parentAt_push t s i s)
  lays := by
    rw [ScopeTree.itemsAt_push_self i h.lt_size, ScopeTree.size_push]
    exact hlays.congr fun r hr _ => ScopeTree.scopes_push_of_ne (Nat.ne_of_lt hr)

theorem stocks (h : Reads target o t s up) (hstock : Stocks s t u) : Reads target o u s up := by
  induction hstock with
  | refl => exact h
  | @push _ v _ _ ih => exact ih.push (ih.lays.literal v)

-- A loop that has just been opened has an empty body.
theorem nest (h : Reads target o t s up) {line : LoopLine} {header : LoopHeader}
    (hline : Announces (⟨s, t.itemsAt s⟩ :: up) line header) :
    Reads target ⟨[], (line, o.block) :: o.around⟩ (t.nest s header) t.size
      (⟨s, t.itemsAt s⟩ :: up) where
  opened := by
    have hs := h.lt_size
    refine .loop
      (h.opened.congr (fun r hr => ?_) (ScopeTree.headerAt_nest header hs)
        (ScopeTree.parentAt_nest header hs))
      (h.lays.congr fun r hr hr' => ?_) ?_ (ScopeTree.parentAt_nest_body header hs)
      (ScopeTree.headerAt_nest_body header hs) hline
    · rw [ScopeTree.scopes_nest header (Nat.lt_trans hr hs), if_neg (Nat.ne_of_gt hr)]
    · rw [ScopeTree.scopes_nest header hr', if_neg (Nat.ne_of_lt hr)]
    · rw [ScopeTree.itemsAt_nest header hs, if_pos rfl]
  lays := by
    rw [ScopeTree.itemsAt_nest_body header h.lt_size, ScopeTree.size_nest]
    exact .nil

-- A variable line that finds its variable.
theorem reset (h : Reads target o t s up) {source : SourceLine} {name : String} {value : Operand}
    {a b : Address} {c : Symbol} (hname : Statement.isIdentifier name) (hop : value.Named)
    (hvalue : Resolved t s value a) (hfound : Resolved t s (.name name) b)
    (hitem : t.item? b = some (.symbol c)) (hvar : c.isVar) :
    Reads target (o.push (.var source name value))
      (t.push s (.instruction ⟨s, source, .reset a b⟩)) s up := by
  have hden : Position.Denotes (⟨s, t.itemsAt s⟩ :: up) (.name name) b :=
    ⟨hname, h.lookup_eq hfound⟩
  rcases Position.symbol_of_lookup (h.opened.descends _) hden.2 with ⟨c', hc', -⟩
  -- The position has the very item that the reader looked at.
  have hsame := h.within.item? hc'
  rw [hitem] at hsame
  cases hsame
  exact h.push (h.lays.reset source (h.denotes hop hvalue) hden hc' hvar)

-- A variable line that declares its variable. The symbol alone is no clause, so
-- both appends are made at once.
theorem declare (h : Reads target o t s up) {source : SourceLine} {name : String}
    {value : Operand} {a : Address} (v : Int32) (hname : Statement.isIdentifier name)
    (hop : value.Named) (hvalue : Resolved t s value a)
    (hlacks : ∀ b c, Resolved t s (.name name) b → t.item? b = some (.symbol c) →
      c.isVar = false) :
    Reads target (o.push (.var source name value))
      ((t.push s (.symbol ⟨.var, name, v⟩)).push s
        (.instruction ⟨s, source, .reset a ⟨s, (t.itemsAt s).length⟩⟩)) s up := by
  have hlacksVar : Position.LacksVar (⟨s, t.itemsAt s⟩ :: up) name := fun b c hb hc =>
    hlacks b c (h.find_eq hb) (h.within.item? hc)
  have hlays := h.lays.declare source v (h.denotes hop hvalue) hname hlacksVar
  refine ⟨h.opened.congr (fun r hr => ?_) ?_ ?_, ?_⟩
  · rw [ScopeTree.scopes_push_of_ne (Nat.ne_of_gt hr),
      ScopeTree.scopes_push_of_ne (Nat.ne_of_gt hr)]
  · rw [ScopeTree.headerAt_push, ScopeTree.headerAt_push]
  · rw [ScopeTree.parentAt_push, ScopeTree.parentAt_push]
  · rw [ScopeTree.itemsAt_push_self _ (by rw [ScopeTree.size_push]; exact h.lt_size),
      ScopeTree.itemsAt_push_self _ h.lt_size, ScopeTree.size_push, ScopeTree.size_push]
    refine hlays.congr fun r hr _ => ?_
    rw [ScopeTree.scopes_push_of_ne (Nat.ne_of_lt hr),
      ScopeTree.scopes_push_of_ne (Nat.ne_of_lt hr)]

-- The body of a loop is complete, and the marker becomes the clause of the loop.
theorem close (h : Reads target o t s up) {p : Nat} (hparent : t.parentAt s = some p) :
    ∃ line block around items up', o.around = (line, block) :: around ∧
      up = ⟨p, items⟩ :: up' ∧ t.itemsAt p = items ++ [.loop s] ∧
      Reads target ⟨block ++ [.loop line o.block], around⟩ t p up' := by
  rcases o with ⟨body, around⟩
  rcases h with ⟨hopened, hlays⟩
  cases hopened with
  | root _ hroot =>
      rw [hroot] at hparent
      cases hparent
  | loop houter hfront hitems hp hheader hline =>
      rw [hp] at hparent
      cases hparent
      refine ⟨_, _, _, _, _, rfl, rfl, hitems, houter, ?_⟩
      rw [hitems]
      exact hfront.loop hheader hline hlays

/-- One statement keeps tree and outline in step. -/
theorem grows {t' : ScopeTree} {s' : Nat} {source : SourceLine} {st : Statement}
    (h : Reads target o t s up) (hst : st.Named) (hgrows : Grows target source st t s t' s') :
    ∃ o' up', o.add source st = .ok o' ∧ Reads target o' t' s' up' := by
  cases hgrows with
  | empty => exact ⟨o, up, rfl, h⟩
  | @const _ _ name value => exact ⟨_, up, rfl, h.push (h.lays.const value hst)⟩
  | reset hstock hvalue hname hitem hvar =>
      exact ⟨_, up, rfl, (h.stocks hstock).reset hst.1 hst.2 hvalue hname hitem hvar⟩
  | declare hstock hvalue hlacks =>
      exact ⟨_, up, rfl, (h.stocks hstock).declare _ hst.1 hst.2 hvalue hlacks⟩
  | loop hstock hstart hstop hstep hsource _ _ =>
      have hu := h.stocks hstock
      exact ⟨_, _, rfl, hu.nest ⟨hu.denotes hst.1 hstart, hu.denotes hst.2.1 hstop,
        hu.denotes hst.2.2 hstep, hsource⟩⟩
  | pool hparent =>
      rcases h.close hparent with ⟨line, block, around, items, up', haround, -, -, hclosed⟩
      refine ⟨_, up', ?_, hclosed⟩
      unfold Outline.add
      rw [haround]
  | command hresolve hstock haddr haction =>
      have hu := h.stocks hstock
      exact ⟨_, up, rfl, hu.push (hu.lays.command _ hresolve (hu.denotes_all hst haddr)
        haction)⟩

-- The same for lines in a row.
theorem growsAll {t' : ScopeTree} {s' : Nat} {lines : List (Nat × String)}
    (h : Reads target o t s up) (hgrows : GrowsAll target lines t s t' s') :
    ∃ o' up', o.addLines lines = .ok o' ∧ Reads target o' t' s' up' := by
  induction hgrows generalizing o up with
  | nil => exact ⟨o, up, rfl, h⟩
  | @cons _ _ _ _ _ _ number text _ _ hparse hfirst _ ih =>
      rcases h.grows (Statement.named_of_parse hparse) hfirst with ⟨o₁, up₁, hadd, h₁⟩
      rcases ih h₁ with ⟨o₂, up₂, hlines, h₂⟩
      refine ⟨o₂, up₂, ?_, h₂⟩
      have hline : o.addLine (number, text) = .ok o₁ := by
        unfold Outline.addLine
        rw [hparse]
        exact hadd
      unfold Outline.addLines at hlines ⊢
      rw [List.foldlM_cons, hline]
      exact hlines

end Reads

namespace Laid

variable {target : Target} {t t' : ScopeTree} {block : Block}

theorem empty : Laid target .empty [] :=
  ⟨.root rfl rfl, .nil⟩

/-- Lines that end outside every loop extend the block that is laid out. -/
theorem growsAll {s : Nat} {lines : List (Nat × String)} (h : Laid target t block)
    (hgrows : GrowsAll target lines t 0 t' s) (hheader : t'.headerAt s = none) :
    ∃ block', (Outline.mk block []).addLines lines = .ok ⟨block', []⟩ ∧
      Laid target t' block' := by
  rcases Reads.growsAll h hgrows with ⟨⟨block', around⟩, up, hlines, hreads⟩
  rcases hreads with ⟨hopened, hlays⟩
  cases hopened with
  | root hh hp => exact ⟨block', hlines, ⟨.root hh hp, hlays⟩⟩
  | loop _ _ _ _ hh _ =>
      rw [hh] at hheader
      cases hheader

end Laid

end UnrollAsm
