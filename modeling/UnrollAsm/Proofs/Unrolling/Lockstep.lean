import Mathlib.Data.Set.Insert
import UnrollAsm.Proofs.Unrolling.Frame

/-!
# Unrolling in Lockstep

Two states of one program, unrolled side by side. They may differ in the values
of variables and in what loop headers remember of their runs, except at places
that are settled. Items in front of the position are settled, and so are the
loops that have been left behind.

A line reads settled places only, so it does the same on both sides, and what it
writes is settled from then on. A variable line settles the variable that it has
declared; the line of a loop settles its header. Thus the settled places grow
along with the position, and a loop that is run again has its own places settled
from the first trip on.

## Main definitions

* `Place`: Where a tree keeps what unrolling changes.
* `Fixed`: A place that is the same in all states of a program.
* `Alike`: Two states of a program are the same at some places.
* `Lockstep`: Two actions come to the same, and leave states that are alike.
* `settled`: The places that are settled behind a position.

## Theorems

* `Alike.extend`: Fixed places are alike anyway.
* `change_lockstep`: Writing to a variable settles it.
* `runTrips_lockstep`, `runLoop_lockstep`: Loops in lockstep.
* `forM_lockstep`: The items of a layout in lockstep.
* `Laid.run_lockstep`: A whole program, unrolled from two trees of one skeleton.
-/

namespace UnrollAsm

/-- Where a tree keeps something that unrolling may change: an item, or the
    header of a loop. -/
inductive Place where
  | item (a : Address)
  | header (c : Nat)

/-- The scope that a place belongs to. -/
def Place.scope : Place → Nat
  | item a => a.scope
  | header c => c

/-- The place is the same in all states of a program: it holds no variable, and
    no header. -/
def Fixed (t : ScopeTree) : Place → Prop
  | .item a => ∀ c, t.item? a = some (.symbol c) → c.isVar = false
  | .header c => t.headerAt c = none

/-- Two states of the program `t` are the same at some places, and have emitted
    the same words. -/
structure Alike (t : ScopeTree) (D : Set Place) (w v : Work (Array EmittedWord)) : Prop where
  left : w.tree.skeleton = t.skeleton
  right : v.tree.skeleton = t.skeleton
  item : ∀ a, .item a ∈ D → w.tree.item? a = v.tree.item? a
  header : ∀ c, .header c ∈ D → w.tree.headerAt c = v.tree.headerAt c
  words : w.own = v.own

/-- Two actions come to the same in two states: they fail for the same reason, or
    have the same result and leave states that are alike. -/
def Lockstep {α : Type} (t : ScopeTree) (D : Set Place) (w v : Work (Array EmittedWord))
    (m m' : UnrollM α) : Prop :=
  match m.exec w, m'.exec v with
  | (.ok a, w'), (.ok b, v') => a = b ∧ Alike t D w' v'
  | (.error e, _), (.error e', _) => e = e'
  | _, _ => False

/-- The places in front of a position. -/
def Position.places (pos : Position) : Set Place :=
  {x | ∃ p ∈ pos, ∃ index < p.items.length, x = .item ⟨p.scope, index⟩}

/-- The places of a block up to some point: the items so far, and everything in
    the scopes inside the block. -/
def settled (s : Nat) (items : List Item) (hi : Nat) : Set Place :=
  Position.places [⟨s, items⟩] ∪ {x | s < x.scope ∧ x.scope < hi}

/-! ## States that are alike -/

namespace Alike

variable {t : ScopeTree} {D E : Set Place} {w v : Work (Array EmittedWord)}

theorem item_skeleton (h : Alike t D w v) (a : Address) :
    (w.tree.item? a).map Item.skeleton = (v.tree.item? a).map Item.skeleton :=
  ScopeTree.item?_of_skeleton (h.left.trans h.right.symm) a

theorem item_of_fixed (h : Alike t D w v) {a : Address} (ha : Fixed t (.item a)) :
    w.tree.item? a = v.tree.item? a := by
  have hw := ScopeTree.item?_of_skeleton h.left a
  have hv := ScopeTree.item?_of_skeleton h.right a
  cases hi : t.item? a with
  | none =>
      rw [hi] at hw hv
      rw [Option.map_eq_none_iff.1 hw, Option.map_eq_none_iff.1 hv]
  | some i =>
      rw [hi] at hw hv
      rcases Option.map_eq_some_iff.1 hw with ⟨j, hj, hjskel⟩
      rcases Option.map_eq_some_iff.1 hv with ⟨k, hk, hkskel⟩
      rw [hj, hk]
      cases i with
      | instruction _ => rw [Item.eq_of_skeleton_eq rfl hjskel, Item.eq_of_skeleton_eq rfl hkskel]
      | loop _ => rw [Item.eq_of_skeleton_eq rfl hjskel, Item.eq_of_skeleton_eq rfl hkskel]
      | symbol c =>
          have hconst := ha c hi
          rcases Item.skeleton_eq_symbol hjskel with ⟨c₁, rfl, hc₁⟩
          rcases Item.skeleton_eq_symbol hkskel with ⟨c₂, rfl, hc₂⟩
          rw [Symbol.eq_of_skeleton_eq hconst hc₁, Symbol.eq_of_skeleton_eq hconst hc₂]

theorem header_of_fixed (h : Alike t D w v) {c : Nat} (hc : Fixed t (.header c)) :
    w.tree.headerAt c = v.tree.headerAt c := by
  have hnone : t.headerAt c = none := hc
  have hw := ScopeTree.headerAt_of_skeleton h.left c
  have hv := ScopeTree.headerAt_of_skeleton h.right c
  rw [hnone] at hw hv
  rw [Option.map_eq_none_iff.1 hw, Option.map_eq_none_iff.1 hv]

/-- States that are alike somewhere are alike at all fixed places as well. -/
theorem extend (h : Alike t D w v) (hE : ∀ x ∈ E, x ∈ D ∨ Fixed t x) : Alike t E w v where
  left := h.left
  right := h.right
  item a ha := (hE _ ha).elim (h.item a) h.item_of_fixed
  header c hc := (hE _ hc).elim (h.header c) h.header_of_fixed
  words := h.words

theorem relog (h : Alike t D w v) (log log' : Array Event) :
    Alike t D ⟨w.tree, log, w.own⟩ ⟨v.tree, log', v.own⟩ :=
  ⟨h.left, h.right, h.item, h.header, h.words⟩

-- The same value is written to one variable.
theorem setItem (h : Alike t D w v) {a : Address} {c d : Symbol}
    (hc : w.tree.item? a = some (.symbol c)) (hd : v.tree.item? a = some (.symbol d))
    (hvar : c.isVar) (hvar' : d.isVar) (x : Int32) :
    Alike t (insert (.item a) D)
      { w with tree := w.tree.setItem a (.symbol { c with value := x }) }
      { v with tree := v.tree.setItem a (.symbol { d with value := x }) } where
  left := by
    rw [← h.left]
    exact ScopeTree.skeleton_setItem hc (congrArg Item.symbol (Symbol.skeleton_set hvar x))
  right := by
    rw [← h.right]
    exact ScopeTree.skeleton_setItem hd (congrArg Item.symbol (Symbol.skeleton_set hvar' x))
  item := by
    intro b hb
    by_cases hab : a = b
    · subst hab
      have hskel := h.item_skeleton a
      rw [hc, hd, Option.map_some, Option.map_some, Option.some.injEq] at hskel
      have hsymbol : c.skeleton = d.skeleton := by
        simpa only [Item.skeleton, Item.symbol.injEq] using hskel
      rw [ScopeTree.item?_setItem_self hc, ScopeTree.item?_setItem_self hd,
        Symbol.set_of_skeleton hsymbol x]
    · rcases hb with hb | hb
      · cases hb
        exact absurd rfl hab
      · simp only [ScopeTree.item?_setItem_of_ne hab]
        exact h.item b hb
  header := by
    intro b hb
    rcases hb with hb | hb
    · cases hb
    · simp only [ScopeTree.headerAt_setItem]
      exact h.header b hb
  words := h.words

-- The same header is put into one loop.
theorem setHeader (h : Alike t D w v) {c : Nat} {header h₀ : LoopHeader}
    (hheader : t.headerAt c = some h₀) (hskel : header.skeleton = h₀.skeleton) :
    Alike t (insert (.header c) D) { w with tree := w.tree.setHeader c header }
      { v with tree := v.tree.setHeader c header } := by
  rcases ScopeTree.exists_header h.left hheader with ⟨h₁, hh₁, hskel₁⟩
  rcases ScopeTree.exists_header h.right hheader with ⟨h₂, hh₂, hskel₂⟩
  refine ⟨?_, ?_, fun a ha => ?_, fun b hb => ?_, h.words⟩
  · rw [ScopeTree.skeleton_setHeader hh₁ (hskel.trans hskel₁.symm), h.left]
  · rw [ScopeTree.skeleton_setHeader hh₂ (hskel.trans hskel₂.symm), h.right]
  · rcases ha with ha | ha
    · cases ha
    · simp only [ScopeTree.item?_setHeader]
      exact h.item a ha
  · by_cases hcb : c = b
    · subst hcb
      rw [ScopeTree.headerAt_setHeader_self hh₁, ScopeTree.headerAt_setHeader_self hh₂]
    · rcases hb with hb | hb
      · cases hb
        exact absurd rfl hcb
      · simp only [ScopeTree.headerAt_setHeader_of_ne header hcb]
        exact h.header b hb

end Alike

/-! ## Rules of lockstep -/

namespace Lockstep

variable {α β γ δ : Type} {t : ScopeTree} {D E : Set Place} {w v : Work (Array EmittedWord)}
  {m m' : UnrollM α}

theorem extend (h : Lockstep t D w v m m') (hE : ∀ x ∈ E, x ∈ D ∨ Fixed t x) :
    Lockstep t E w v m m' := by
  unfold Lockstep at h ⊢
  split at h
  · exact ⟨h.1, h.2.extend hE⟩
  · exact h
  · exact h

theorem bind {f f' : α → UnrollM β} (h : Lockstep t D w v m m')
    (hf : ∀ a w' v', Alike t D w' v' → Lockstep t E w' v' (f a) (f' a)) :
    Lockstep t E w v (m >>= f) (m' >>= f') := by
  unfold Lockstep at h
  split at h
  · rename_i a w' b v' hm hm'
    rcases h with ⟨rfl, halike⟩
    have hnext := hf a w' v' halike
    unfold Lockstep at hnext ⊢
    rw [PassM.exec_bind, PassM.exec_bind, hm, hm']
    exact hnext
  · rename_i e _ e' _ hm hm'
    unfold Lockstep
    rw [PassM.exec_bind, PassM.exec_bind, hm, hm']
    exact h
  · exact h.elim

-- Actions whose runs are known, with results that may differ.
theorem next {n : UnrollM γ} {n' : UnrollM δ} {f : γ → UnrollM β} {f' : δ → UnrollM β} {c : γ}
    {d : δ} {w' v' : Work (Array EmittedWord)} (hn : n.exec w = (.ok c, w'))
    (hn' : n'.exec v = (.ok d, v')) (h : Lockstep t E w' v' (f c) (f' d)) :
    Lockstep t E w v (n >>= f) (n' >>= f') := by
  unfold Lockstep at h ⊢
  rw [PassM.exec_bind, PassM.exec_bind, hn, hn']
  exact h

theorem same {r : Except Failure α} (hm : m.exec w = (r, w)) (hm' : m'.exec v = (r, v))
    (h : Alike t D w v) : Lockstep t D w v m m' := by
  unfold Lockstep
  rw [hm, hm']
  cases r with
  | error e => exact rfl
  | ok a => exact ⟨rfl, h⟩

theorem throw (f : Failure) (w v : Work (Array EmittedWord)) :
    Lockstep t D w v (MonadExcept.throw f : UnrollM α) (MonadExcept.throw f) := by
  unfold Lockstep
  rw [PassM.exec_throw, PassM.exec_throw]

theorem congr {n n' : UnrollM α} (hm : m.exec w = n.exec w) (hm' : m'.exec v = n'.exec v)
    (h : Lockstep t D w v n n') : Lockstep t D w v m m' := by
  unfold Lockstep
  rw [hm, hm']
  exact h

theorem note (e e' : Event) (h : Alike t D w v) :
    Lockstep t D w v (PassM.note e) (PassM.note e') :=
  ⟨rfl, h.relog _ _⟩

end Lockstep

/-! ## Settled places -/

section Settled

variable {t : ScopeTree} {D : Set Place} {up : Position} {s c hi : Nat} {items : List Item}

theorem Position.mem_places_of_item? {pos : Position} {a : Address} {i : Item}
    (h : pos.item? a = some i) : .item a ∈ pos.places := by
  induction pos with
  | nil => cases h
  | cons p outer ih =>
      unfold Position.item? at h
      split at h
      · rename_i hscope
        refine ⟨p, List.mem_cons_self, a.index, (List.getElem?_eq_some_iff.1 h).1, ?_⟩
        rw [hscope]
      · rcases ih h with ⟨q, hq, index, hlt, heq⟩
        exact ⟨q, List.mem_cons_of_mem _ hq, index, hlt, heq⟩

-- What an operand denotes is in front of its line.
theorem Position.Denotes.mem_places {pos : Position} {operand : Operand} {a : Address}
    (h : pos.Denotes operand a) : .item a ∈ pos.places := by
  cases operand with
  | literal v => exact mem_places_of_item? h
  | name name =>
      rcases mem_of_lookup h.2 with ⟨p, hp, hscope, hidx⟩
      rcases List.findIdx?_eq_some_iff_getElem.1 hidx with ⟨hlt, -, -⟩
      refine ⟨p, hp, a.index, hlt, ?_⟩
      rw [hscope]

theorem mem_places_of_forall₂ {pos : Position} {operands : List Operand}
    {addresses : List Address} (h : List.Forall₂ pos.Denotes operands addresses) :
    ∀ a ∈ addresses, .item a ∈ pos.places := by
  induction h with
  | nil => intro a ha; cases ha
  | cons hfirst _ ih =>
      intro a ha
      rcases List.mem_cons.1 ha with rfl | ha
      · exact hfirst.mem_places
      · exact ih a ha

-- The places in front of a position, those of the scopes around being settled.
theorem places_subset_settled (hup : Position.places up ⊆ D) :
    Position.places (⟨s, items⟩ :: up) ⊆ D ∪ settled s items hi := by
  rintro x ⟨p, hp, index, hlt, rfl⟩
  rcases List.mem_cons.1 hp with rfl | hp
  · exact Or.inr (Or.inl ⟨_, List.mem_cons_self, index, hlt, rfl⟩)
  · exact Or.inl (hup ⟨p, hp, index, hlt, rfl⟩)

theorem not_mem_settled_nil (s : Nat) (x : Place) : x ∉ settled s [] (s + 1) := by
  rintro (⟨p, hp, index, hlt, rfl⟩ | ⟨hlo, hhi⟩)
  · obtain rfl := List.mem_singleton.1 hp
    exact absurd hlt (Nat.not_lt_zero index)
  · omega

-- One more item settles its own place only.
theorem mem_settled_snoc {i : Item} {x : Place} (hx : x ∈ D ∪ settled s (items ++ [i]) hi) :
    x ∈ D ∪ settled s items hi ∨ x = .item ⟨s, items.length⟩ := by
  rcases hx with hx | ⟨p, hp, index, hlt, rfl⟩ | hx
  · exact Or.inl (Or.inl hx)
  · obtain rfl := List.mem_singleton.1 hp
    rw [List.length_append, List.length_singleton] at hlt
    by_cases hlast : index = items.length
    · exact Or.inr (by rw [hlast])
    · have hless : index < items.length := by omega
      exact Or.inl (Or.inr (Or.inl ⟨_, List.mem_singleton_self _, index, hless, rfl⟩))
  · exact Or.inl (Or.inr (Or.inr hx))

-- The item itself, as the program has it.
theorem Within.item?_last {i : Item} (h : Within t (⟨s, items ++ [i]⟩ :: up)) :
    t.item? ⟨s, items.length⟩ = some i := by
  refine h.item? ?_
  unfold Position.item?
  rw [if_pos rfl, List.getElem?_append_right (Nat.le_refl _), Nat.sub_self]
  rfl

theorem fixed_last {i : Item} (hpos : Within t (⟨s, items ++ [i]⟩ :: up))
    (hfixed : ∀ c, i = .symbol c → c.isVar = false) : Fixed t (.item ⟨s, items.length⟩) := by
  intro c hc
  rw [hpos.item?_last, Option.some.injEq] at hc
  exact hfixed c hc

-- Most items hold nothing that changes.
theorem settled_snoc {i : Item} (hpos : Within t (⟨s, items ++ [i]⟩ :: up))
    (hfixed : ∀ c, i = .symbol c → c.isVar = false) {x : Place}
    (hx : x ∈ D ∪ settled s (items ++ [i]) hi) :
    x ∈ D ∪ settled s items hi ∨ Fixed t x := by
  rcases mem_settled_snoc hx with hx | rfl
  · exact Or.inl hx
  · exact Or.inr (fixed_last hpos hfixed)

-- There is no item behind the last one of a scope.
theorem settled_or_fixed_of_item (t : ScopeTree) (s index hi : Nat) :
    .item ⟨s, index⟩ ∈ settled s (t.itemsAt s) hi ∨ Fixed t (.item ⟨s, index⟩) := by
  by_cases hlt : index < (t.itemsAt s).length
  · exact Or.inl (Or.inl ⟨_, List.mem_singleton_self _, index, hlt, rfl⟩)
  · refine Or.inr fun c hc => ?_
    rw [ScopeTree.item?_eq, List.getElem?_eq_none (Nat.le_of_not_lt hlt)] at hc
    cases hc

-- Behind a loop, everything inside it is settled as well.
theorem settled_loop (hpos : Within t (⟨s, items ++ [.loop c]⟩ :: up)) {x : Place}
    (hx : x ∈ D ∪ settled s (items ++ [.loop c]) hi) :
    x ∈ insert (.header c) (D ∪ settled s items c) ∪ settled c (t.itemsAt c) hi ∨ Fixed t x := by
  rcases settled_snoc hpos (fun _ h => by cases h) hx with (hx | hx | ⟨hlo, hhi⟩) | hx
  · exact Or.inl (Or.inl (Or.inr (Or.inl hx)))
  · exact Or.inl (Or.inl (Or.inr (Or.inr (Or.inl hx))))
  · rcases Nat.lt_trichotomy x.scope c with hlt | heq | hgt
    · exact Or.inl (Or.inl (Or.inr (Or.inr (Or.inr ⟨hlo, hlt⟩))))
    · cases x with
      | header b => exact Or.inl (Or.inl (Or.inl (congrArg Place.header heq)))
      | item a =>
          obtain ⟨scope, index⟩ := a
          obtain rfl : scope = c := heq
          exact (settled_or_fixed_of_item t scope index hi).imp_left Or.inr
    · exact Or.inl (Or.inr (Or.inr ⟨hgt, hhi⟩))
  · exact Or.inr hx

end Settled

/-! ## What is read at settled places -/

section Congr

variable {u u' : ScopeTree}

theorem valueOf_congr {a : Address} (h : u.item? a = u'.item? a) (line : Nat) :
    u.valueOf a line = u'.valueOf a line := by
  unfold ScopeTree.valueOf ScopeTree.item
  rw [h]

theorem boundsOf_congr {h h' : LoopHeader} (hskel : h.skeleton = h'.skeleton)
    (hitems : ∀ a ∈ [h.start, h.stop, h.step], u.item? a = u'.item? a) :
    u.boundsOf h = u'.boundsOf h' := by
  simp only [LoopHeader.skeleton, LoopHeader.mk.injEq, and_true] at hskel
  rcases hskel with ⟨hstart, hstop, hstep, hsource⟩
  simp only [List.mem_cons, List.not_mem_nil, or_false, forall_eq_or_imp, forall_eq] at hitems
  rcases hitems with ⟨hs, he, hw⟩
  unfold ScopeTree.boundsOf
  rw [valueOf_congr hs, valueOf_congr he, valueOf_congr hw, hstart, hstop, hstep, hsource]

theorem encode_congr (target : Target) (line : Nat) {command : Command}
    (h : ∀ a ∈ command.operands, u.item? a = u'.item? a) :
    u.encode target line command = u'.encode target line command := by
  unfold ScopeTree.encode
  cases command with
  | noOperand id => rfl
  | oneOperand a id =>
      simp only [valueOf_congr (h a (by simp [Command.operands]))]
  | twoOperand a b id =>
      simp only [valueOf_congr (h a (by simp [Command.operands])),
        valueOf_congr (h b (by simp [Command.operands]))]
  | threeOperand a b c id =>
      simp only [valueOf_congr (h a (by simp [Command.operands])),
        valueOf_congr (h b (by simp [Command.operands])),
        valueOf_congr (h c (by simp [Command.operands]))]

-- Arithmetic comes to the same value, or to the same complaint.
theorem fold_congr {a b : Address} (ha : u.item? a = u'.item? a) (hb : u.item? b = u'.item? b)
    (op : Arithmetic) (line : Nat) :
    (u.fold op a b line).map Prod.fst = (u'.fold op a b line).map Prod.fst := by
  have ha' : u.item a = u'.item a := by unfold ScopeTree.item; rw [ha]
  have hb' : u.item b = u'.item b := by unfold ScopeTree.item; rw [hb]
  unfold ScopeTree.fold
  rw [ha', hb']
  rcases u'.item a with _ | (c | _ | _)
  · rfl
  · simp only [orFault, Except.mapError, bind, Except.bind]
    by_cases hvar : c.isVar = true
    · rw [if_neg (not_not_intro hvar), if_neg (not_not_intro hvar)]
      rcases u'.item b with _ | (d | _ | _)
      · rfl
      · dsimp only
        split <;> rfl
      · rfl
      · rfl
    · rw [if_pos hvar, if_pos hvar]
  · rfl
  · rfl

-- So does a reset, whatever the variable was before.
theorem reset_congr {a b : Address} (ha : u.item? a = u'.item? a)
    (hb : (u.item? b).map Item.skeleton = (u'.item? b).map Item.skeleton) (line : Nat) :
    (u.reset a b line).map Prod.fst = (u'.reset a b line).map Prod.fst := by
  unfold ScopeTree.reset ScopeTree.item
  rw [valueOf_congr ha]
  rcases u'.valueOf a line with _ | x
  · rfl
  · cases hi : u.item? b with
    | none =>
        rw [hi, Option.map_none, eq_comm, Option.map_eq_none_iff] at hb
        rw [hb]
        rfl
    | some i =>
        rw [hi, Option.map_some, eq_comm, Option.map_eq_some_iff] at hb
        rcases hb with ⟨j, hj, hskel⟩
        rw [hj]
        cases i with
        | instruction _ => rw [Item.eq_of_skeleton_eq rfl hskel]; rfl
        | loop _ => rw [Item.eq_of_skeleton_eq rfl hskel]; rfl
        | symbol c =>
            rcases Item.skeleton_eq_symbol hskel with ⟨d, rfl, hd⟩
            have hkind : d.isVar = c.isVar := by
              unfold Symbol.isVar
              rw [← Symbol.skeleton_kind d, hd, Symbol.skeleton_kind]
            cases hvar : c.isVar with
            | true =>
                simp only [Symbol.set?, hvar, hkind.trans hvar, orFault, Except.mapError, bind,
                  Except.bind, if_true]
                rfl
            | false =>
                rw [Symbol.eq_of_skeleton_eq hvar hd]
                simp only [Symbol.set?, hvar, orFault, Except.mapError, bind, Except.bind,
                  Bool.false_eq_true, if_false]

end Congr

namespace Unrolling

open PassM

variable {t : ScopeTree} {target : Target} {D : Set Place} {w v : Work (Array EmittedWord)}

/-! ## Instructions -/

/-- Writing to a variable settles it. -/
theorem change_lockstep {step : ScopeTree → Except Failure (Int32 × ScopeTree)} {a : Address}
    (h : Alike t D w v) (hsame : (step w.tree).map Prod.fst = (step v.tree).map Prod.fst)
    (hwrites : ∀ u x u', step u = .ok (x, u') → ∃ c, u.item? a = some (.symbol c) ∧ c.isVar ∧
      u' = u.setItem a (.symbol { c with value := x })) :
    Lockstep t (insert (.item a) D) w v (change step) (change step) := by
  unfold Lockstep
  rw [exec_change, exec_change]
  cases hw : step w.tree with
  | error e =>
      cases hv : step v.tree with
      | error e' =>
          rw [hw, hv] at hsame
          exact Except.error.inj hsame
      | ok r =>
          rw [hw, hv] at hsame
          cases hsame
  | ok r =>
      rcases r with ⟨x, u⟩
      cases hv : step v.tree with
      | error e' =>
          rw [hw, hv] at hsame
          cases hsame
      | ok r' =>
          rcases r' with ⟨y, u'⟩
          rw [hw, hv] at hsame
          obtain rfl : x = y := Except.ok.inj hsame
          rcases hwrites _ x u hw with ⟨c, hc, hvar, rfl⟩
          rcases hwrites _ x u' hv with ⟨d, hd, hvar', rfl⟩
          exact ⟨rfl, h.setItem hc hd hvar hvar' x⟩

theorem perform_emit_lockstep (target : Target) (h : Alike t D w v) (s : Nat) (source : SourceLine)
    {command : Command} (hops : ∀ a ∈ command.operands, Place.item a ∈ D) :
    Lockstep t D w v (perform target ⟨s, source, .emit command⟩)
      (perform target ⟨s, source, .emit command⟩) := by
  have hencode : w.tree.encode target source.number command =
      v.tree.encode target source.number command :=
    encode_congr target source.number fun a ha => h.item a (hops a ha)
  have hask : Lockstep t D w v
      (ask fun t => t.encode target source.number command : UnrollM MachineWord)
      (ask fun t => t.encode target source.number command) :=
    .same (exec_ask _ w) ((exec_ask _ v).trans (by rw [hencode])) h
  refine hask.bind fun word w' v' h' => ?_
  refine .next (exec_setOwn _ w') (exec_setOwn _ v') (.note _ _ ?_)
  exact ⟨h'.left, h'.right, h'.item, h'.header, by rw [h'.words]⟩

theorem perform_fold_lockstep (target : Target) (h : Alike t D w v) (s : Nat) (source : SourceLine)
    (op : Arithmetic) {a b : Address} (ha : Place.item a ∈ D) (hb : Place.item b ∈ D) :
    Lockstep t D w v (perform target ⟨s, source, .fold op a b⟩)
      (perform target ⟨s, source, .fold op a b⟩) := by
  have hsame := fold_congr (h.item a ha) (h.item b hb) op source.number
  have hchange := change_lockstep h hsame fun u x u' hout => ScopeTree.fold_writes hout
  rw [Set.insert_eq_of_mem ha] at hchange
  exact hchange.bind fun x w' v' h' => .note _ _ h'

theorem perform_reset_lockstep (target : Target) (h : Alike t D w v) (s : Nat) (source : SourceLine)
    {a : Address} (b : Address) (ha : Place.item a ∈ D) :
    Lockstep t (insert (.item b) D) w v (perform target ⟨s, source, .reset a b⟩)
      (perform target ⟨s, source, .reset a b⟩) := by
  have hsame := reset_congr (h.item a ha) (h.item_skeleton b) source.number
  have hchange := change_lockstep h hsame fun u x u' hout => ScopeTree.reset_writes hout
  exact hchange.bind fun x w' v' h' => .note _ _ h'

theorem perform_command_lockstep (target : Target) (h : Alike t D w v) (s : Nat)
    (source : SourceLine) {cls : InstructionClass} {id : Nat} {mnemonic : String}
    {addresses : List Address} {action : Action}
    (haction : Reading.action? id mnemonic cls addresses = some action)
    (hops : ∀ a ∈ addresses, Place.item a ∈ D) :
    Lockstep t D w v (perform target ⟨s, source, action⟩)
      (perform target ⟨s, source, action⟩) := by
  unfold Reading.action? at haction
  split at haction
  · cases haction
    exact perform_emit_lockstep target h s source hops
  · cases haction
    exact perform_emit_lockstep target h s source hops
  · cases haction
    exact perform_emit_lockstep target h s source hops
  · cases haction
    exact perform_emit_lockstep target h s source hops
  · rcases Option.map_eq_some_iff.1 haction with ⟨op, -, rfl⟩
    exact perform_fold_lockstep target h s source op (hops _ (by simp)) (hops _ (by simp))
  · cases haction

/-! ## Loops -/

section Loop

variable {c : Nat} {h₀ : LoopHeader} (hheader : t.headerAt c = some h₀)
  (hread : ∀ a ∈ [h₀.start, h₀.stop, h₀.step], Place.item a ∈ D) {E : Set Place}
  {walkBody : UnrollM Unit}
  (hbody : ∀ (F : Set Place) (w v : Work (Array EmittedWord)), insert (.header c) D ⊆ F →
    Alike t F w v → Lockstep t (F ∪ E) w v walkBody walkBody)

-- The bounds of a loop are read at settled places.
theorem bounds_lockstep (h : Alike t D w v)
    (hread : ∀ a ∈ [h₀.start, h₀.stop, h₀.step], Place.item a ∈ D) {h₁ h₂ : LoopHeader}
    (hskel₁ : h₁.skeleton = h₀.skeleton) (hskel₂ : h₂.skeleton = h₀.skeleton) :
    w.tree.boundsOf h₁ = v.tree.boundsOf h₂ := by
  have hops : [h₁.start, h₁.stop, h₁.step] = [h₀.start, h₀.stop, h₀.step] := by
    simp only [LoopHeader.skeleton, LoopHeader.mk.injEq, and_true] at hskel₁
    rw [hskel₁.1, hskel₁.2.1, hskel₁.2.2.1]
  exact boundsOf_congr (hskel₁.trans hskel₂.symm) fun a ha => h.item a (hread a (hops ▸ ha))

include hheader hread hbody

/-- The trips of a loop in lockstep. What the body settles on the first trip is
    settled on all the others. -/
theorem runTrips_lockstep {F : Set Place} (hF : insert (.header c) D ⊆ F) (header : LoopHeader)
    (hskel : header.skeleton = h₀.skeleton) (trip : Nat) (h : Alike t F w v) :
    Lockstep t (F ∪ E) w v (runTrips walkBody c header trip)
      (runTrips walkBody c header trip) := by
  induction hroom : header.room using Nat.strongRecOn generalizing header trip w v F with
  | ind room ih =>
      rw [runTrips_step]
      refine (Lockstep.note _ _ h).bind fun _ w₁ v₁ h₁ => ?_
      refine (hbody F w₁ v₁ hF h₁).bind fun _ w₂ v₂ h₂ => ?_
      have hread₂ : ∀ a ∈ [h₀.start, h₀.stop, h₀.step], Place.item a ∈ F ∪ E :=
        fun a ha => Or.inl (hF (Or.inr (hread a ha)))
      have hbounds := bounds_lockstep h₂ hread₂ hskel hskel
      refine Lockstep.bind (.same (exec_ask _ w₂) ((exec_ask _ v₂).trans (by rw [hbounds])) h₂)
        fun b w₃ v₃ h₃ => ?_
      cases hadv : header.advance b.stop b.step with
      | error d => exact .same (exec_throw _ w₃) (exec_throw _ v₃) h₃
      | ok result =>
          rcases result with ⟨again, next⟩
          have hnext := (skeleton_advance hadv).trans hskel
          have h₄ := h₃.setHeader hheader hnext
          have hself : insert (.header c) (F ∪ E) = F ∪ E :=
            Set.insert_eq_of_mem (Or.inl (hF (Or.inl rfl)))
          rw [hself] at h₄
          cases again with
          | false =>
              exact .next (setHeader_exec c next w₃) (setHeader_exec c next v₃)
                (.same (exec_pure _ _) (exec_pure _ _) h₄)
          | true =>
              have hless := LoopHeader.room_of_advance hadv
              have hrest := ih next.room (hroom ▸ hless) (hF.trans Set.subset_union_left) next
                hnext (trip + 1) h₄ rfl
              rw [Set.union_assoc, Set.union_self] at hrest
              exact .next (setHeader_exec c next w₃) (setHeader_exec c next v₃) hrest

end Loop

-- A run begins with the same header on both sides.
theorem begin_congr {h₁ h₂ : LoopHeader} (hskel : h₁.skeleton = h₂.skeleton) (b : Bounds) :
    h₁.begin b = h₂.begin b := by
  simp only [LoopHeader.skeleton, LoopHeader.mk.injEq, and_true] at hskel
  rcases hskel with ⟨hstart, hstop, hstep, hsource⟩
  unfold LoopHeader.begin
  rw [hstart, hstop, hstep, hsource]

/-- A loop in lockstep. Its header is settled when it begins. -/
theorem runLoop_lockstep {c : Nat} {h₀ : LoopHeader} (hheader : t.headerAt c = some h₀)
    (hread : ∀ a ∈ [h₀.start, h₀.stop, h₀.step], Place.item a ∈ D) {E : Set Place}
    {walkScope : ScopeId → UnrollM Unit}
    (hbody : ∀ (F : Set Place) (w v : Work (Array EmittedWord)), insert (.header c) D ⊆ F →
      Alike t F w v → Lockstep t (F ∪ E) w v (walkScope c) (walkScope c))
    (h : Alike t D w v) :
    Lockstep t (insert (.header c) D ∪ E) w v (runLoop walkScope c) (runLoop walkScope c) := by
  rcases ScopeTree.exists_header h.left hheader with ⟨h₁, hh₁, hskel₁⟩
  rcases ScopeTree.exists_header h.right hheader with ⟨h₂, hh₂, hskel₂⟩
  rcases Option.bind_eq_some_iff.1 hh₁ with ⟨scope₁, hscope₁, hheader₁⟩
  rcases Option.bind_eq_some_iff.1 hh₂ with ⟨scope₂, hscope₂, hheader₂⟩
  unfold runLoop
  refine Lockstep.next ((exec_ask _ w).trans (by rw [ScopeTree.scope_eq_ok hscope₁]; rfl))
    ((exec_ask _ v).trans (by rw [ScopeTree.scope_eq_ok hscope₂]; rfl)) ?_
  rw [hheader₁, hheader₂]
  have hbounds := bounds_lockstep h hread hskel₁ hskel₂
  refine Lockstep.bind (.same (exec_ask _ w) ((exec_ask _ v).trans (by rw [hbounds])) h)
    fun b w₁ v₁ h₁ => ?_
  rw [begin_congr (hskel₁.trans hskel₂.symm) b]
  cases hbegin : orRefuse (LoopHeader.begin h₂ b) with
  | error e =>
      unfold Lockstep
      rw [exec_bind, exec_bind, exec_ofExcept, exec_ofExcept]
  | ok header =>
      have hskel := (skeleton_begin hbegin).trans hskel₂
      refine Lockstep.next (exec_ofExcept _ w₁) (exec_ofExcept _ v₁) ?_
      refine Lockstep.next (setHeader_exec c header w₁) (setHeader_exec c header v₁) ?_
      refine Lockstep.bind (.same (exec_ofExcept _ _) (exec_ofExcept _ _)
        (h₁.setHeader hheader hskel)) fun trips w₂ v₂ h₂ => ?_
      refine (Lockstep.note _ _ h₂).bind fun _ w₃ v₃ h₃ => ?_
      refine (runTrips_lockstep hheader hread hbody subset_rfl header hskel 1 h₃).bind
        fun _ w₄ v₄ h₄ => ?_
      exact .note _ _ h₄

/-! ## Layouts -/

-- One more item.
theorem forM_snoc_lockstep {E : Set Place} {f : Item → UnrollM Unit} {items : List Item}
    {i : Item} (hitems : Lockstep t D w v (items.forM f) (items.forM f))
    (hi : ∀ w' v', Alike t D w' v' → Lockstep t E w' v' (f i) (f i)) :
    Lockstep t E w v ((items ++ [i]).forM f) ((items ++ [i]).forM f) := by
  rw [List.forM_eq_forM, List.forM_append]
  refine hitems.bind fun _ w' v' h => ?_
  rw [List.forM_cons]
  refine (hi w' v' h).bind fun _ w'' v'' h' => ?_
  exact .same (exec_pure _ w'') (exec_pure _ v'') h'

-- A body is walked over as the items that the program has there.
theorem walk_lockstep {E : Set Place} {c depth : Nat} (hc : c < t.size) (h : Alike t D w v)
    (hitems : Lockstep t E w v ((t.itemsAt c).forM (carryOut target (walk target depth)))
      ((t.itemsAt c).forM (carryOut target (walk target depth)))) :
    Lockstep t E w v (walk target (depth + 1) c) (walk target (depth + 1) c) := by
  have hexec : ∀ x : Work (Array EmittedWord), x.tree.skeleton = t.skeleton →
      (walk target (depth + 1) c).exec x =
        ((t.itemsAt c).forM (carryOut target (walk target depth))).exec x := by
    intro x hx
    have hsize : c < x.tree.size := ScopeTree.size_of_skeleton hx ▸ hc
    rw [walk_exec hsize,
      forM_congr target (walk target depth) (ScopeTree.items_of_skeleton hx c)]
  exact .congr (hexec w h.left) (hexec v h.right) hitems

/-- The items of a layout in lockstep. The places of the scopes around have to be
    settled; those of the block and of everything inside it become so. -/
theorem forM_lockstep {up : Position} {s hi : Nat} {block : Block} {items : List Item}
    (hlays : Lays target t up s block items hi) (hsize : hi ≤ t.size)
    (hpos : Within t (⟨s, items⟩ :: up)) {depth : Nat} (hup : Position.places up ⊆ D)
    (h : Alike t D w v) :
    Lockstep t (D ∪ settled s items hi) w v (items.forM (carryOut target (walk target depth)))
      (items.forM (carryOut target (walk target depth))) := by
  induction hlays generalizing depth D w v with
  | @nil _ s =>
      refine .same (exec_pure _ w) (exec_pure _ v) (h.extend fun x hx => ?_)
      exact Or.inl (hx.elim id fun hx => absurd hx (not_mem_settled_nil s x))
  | @literal _ s hi _ items value _ ih =>
      refine forM_snoc_lockstep (ih hsize hpos.shorten hup h) fun w' v' h' => ?_
      refine .same (exec_pure _ w') (exec_pure _ v') (h'.extend fun x hx => ?_)
      exact settled_snoc hpos (fun c hc => by cases hc; rfl) hx
  | @const _ s hi _ items name value _ _ ih =>
      refine forM_snoc_lockstep (ih hsize hpos.shorten hup h) fun w' v' h' => ?_
      refine .same (exec_pure _ w') (exec_pure _ v') (h'.extend fun x hx => ?_)
      exact settled_snoc hpos (fun c hc => by cases hc; rfl) hx
  | @reset _ s hi _ items _ _ a b _ source _ ha hb _ _ ih =>
      refine forM_snoc_lockstep (ih hsize hpos.shorten hup h) fun w' v' h' => ?_
      have hread : .item a ∈ D ∪ settled s items hi :=
        places_subset_settled hup (Position.Denotes.mem_places ha)
      have hwritten : .item b ∈ D ∪ settled s items hi :=
        places_subset_settled hup (Position.Denotes.mem_places hb)
      refine (perform_reset_lockstep target h' s source b hread).extend fun x hx => ?_
      rw [Set.insert_eq_of_mem hwritten]
      exact settled_snoc hpos (fun c hc => by cases hc) hx
  | @declare _ s hi _ items _ _ a source value _ ha _ _ ih =>
      -- The symbol is passed over, and settled by the reset.
      have hread : .item a ∈ D ∪ settled s items hi :=
        places_subset_settled hup (Position.Denotes.mem_places ha)
      refine forM_snoc_lockstep (forM_snoc_lockstep (ih hsize hpos.shorten.shorten hup h)
        fun w' v' h' => .same (exec_pure _ w') (exec_pure _ v') h') fun w' v' h' => ?_
      refine (perform_reset_lockstep target h' s source ⟨s, items.length⟩ hread).extend
        fun x hx => ?_
      rcases settled_snoc hpos (fun c hc => by cases hc) hx with hx | hx
      · exact Or.inl ((mem_settled_snoc hx).elim Or.inr Or.inl)
      · exact Or.inr hx
  | @command _ s _ _ items _ _ _ _ _ action source _ _ ha haction ih =>
      refine forM_snoc_lockstep (ih hsize hpos.shorten hup h) fun w' v' h' => ?_
      have hread := mem_places_of_forall₂ ha
      exact (perform_command_lockstep target h' s source haction
        fun b hb => places_subset_settled hup (hread b hb)).extend
          fun x hx => settled_snoc hpos (fun c hc => by cases hc) hx
  | @loop up s c hi block body items line header hlays hheader hline hbody ih ihbody =>
      have hsc := hlays.lt
      have hchi := hbody.lt
      refine forM_snoc_lockstep (ih (by omega) hpos.shorten hup h) fun w' v' h' => ?_
      have hread : ∀ a ∈ [header.start, header.stop, header.step],
          Place.item a ∈ D ∪ settled s items c := by
        simp only [List.mem_cons, List.not_mem_nil, or_false, forall_eq_or_imp, forall_eq]
        exact ⟨places_subset_settled hup (Position.Denotes.mem_places hline.start),
          places_subset_settled hup (Position.Denotes.mem_places hline.stop),
          places_subset_settled hup (Position.Denotes.mem_places hline.step)⟩
      refine (runLoop_lockstep (E := settled c (t.itemsAt c) hi) hheader hread
        (fun F w₁ v₁ hF h₁ => ?_) h').extend fun x hx => settled_loop hpos hx
      rcases depth with _ | depth
      · exact .throw _ _ _
      · refine walk_lockstep (by omega) h₁ (ihbody hsize ?_ ?_ h₁)
        · intro p hp
          rcases List.mem_cons.1 hp with rfl | hp
          · exact List.prefix_rfl
          · exact hpos.shorten p hp
        · exact (places_subset_settled hup).trans ((Set.subset_insert _ _).trans hF)

end Unrolling

/-! ## Programs -/

theorem Alike.tree_eq {t : ScopeTree} {w v : Work (Array EmittedWord)}
    (h : Alike t Set.univ w v) : w.tree = v.tree :=
  ScopeTree.eq_of_skeleton (h.left.trans h.right.symm) (fun a => h.item a trivial)
    fun c => h.header c trivial

-- Behind the end of a program everything is settled that can change at all.
theorem Laid.settled_or_fixed {target : Target} {t : ScopeTree} {block : Block}
    (h : Laid target t block) (x : Place) :
    x ∈ (∅ : Set Place) ∪ settled 0 (t.itemsAt 0) t.size ∨ Fixed t x := by
  by_cases hroot : x.scope = 0
  · cases x with
    | header c =>
        obtain rfl : c = 0 := hroot
        cases h.opened with
        | root hheader _ => exact Or.inr hheader
    | item a =>
        obtain ⟨scope, index⟩ := a
        obtain rfl : scope = 0 := hroot
        exact (settled_or_fixed_of_item t 0 index t.size).imp_left Or.inr
  · by_cases hsize : x.scope < t.size
    · exact Or.inl (Or.inr (Or.inr ⟨Nat.pos_of_ne_zero hroot, hsize⟩))
    · -- Further scopes do not exist.
      have hnone : t.scopes[x.scope]? = none := Array.getElem?_eq_none (Nat.le_of_not_lt hsize)
      cases x with
      | header c =>
          have hheader : t.headerAt c = t.scopes[c]?.bind Scope.header := rfl
          exact Or.inr (hheader.trans (congrArg (fun s => s.bind Scope.header) hnone))
      | item a =>
          have hscope : t.scopes[a.scope]? = none := hnone
          refine Or.inr fun c hc => ?_
          rw [ScopeTree.item?, hscope] at hc
          cases hc

open Unrolling in
/-- Programs in lockstep: what is in the variables and in the headers at the start
    makes no difference, not even to what is in them at the end. -/
theorem Laid.run_lockstep {target : Target} {t u : ScopeTree} {block : Block}
    (h : Laid target t block) (hskel : u.skeleton = t.skeleton) :
    Lockstep t Set.univ ⟨u, #[], #[]⟩ ⟨t, #[], #[]⟩ (walk target t.size .root)
      (walk target t.size .root) := by
  have hlt : 0 < t.size := h.lt_size
  have hstart : Alike t ∅ ⟨u, #[], #[]⟩ ⟨t, #[], #[]⟩ :=
    ⟨hskel, rfl, fun _ ha => ha.elim, fun _ hc => hc.elim, rfl⟩
  rcases hsize : t.size with _ | depth
  · omega
  refine Lockstep.extend (walk_lockstep hlt hstart (forM_lockstep h.lays (Nat.le_refl _)
    h.within ?_ hstart)) fun x _ => h.settled_or_fixed x
  rintro x ⟨p, hp, -⟩
  cases hp

end UnrollAsm
