import UnrollAsm.Proofs.Block.Interpreter
import UnrollAsm.Proofs.Tree.Skeleton
import UnrollAsm.Statement.Token

/-!
# Positions in a Program

Where a statement stands decides what its names mean. A position lists the scope
of the statement and the scopes around it, innermost first, each with the items
in front of the statement: in its own scope these are the items appended so far,
further out they end at the marker of the loop that leads inwards. A name is
looked up in these stretches and nowhere else, so what comes later in a scope
cannot get in the way.

While the program is unrolled, the stretches stay where they are and only the
values in them change. `ScopeTree.visible` reads them off a tree as an
environment, which is how a tree and the interpreter of blocks are compared.
Literals are left out of it: they stand in the scopes under their decimal text,
but nobody declared them and no name denotes them.

## Main definitions

* `Stretch`, `Position`: The items in front of a statement.
* `Position.lookup`: The address that a name has at a position.
* `ScopeTree.visible`: The declarations at a position with their values.
* `Fits`: The tree has the items of a position, up to values.

## Theorems

* `find?_visible`: The interpreter finds the symbol at the address looked up.
* `assign_visible`: Writing to the address is assigning to the name.
* `visible_snoc`: The environment after one more item.
-/

namespace UnrollAsm

/-- The items of a scope up to some point. -/
structure Stretch where
  scope : Nat
  items : List Item

/-- Where a statement stands: the items in front of it in its scope and in the
    scopes around, innermost first. -/
abbrev Position := List Stretch

namespace Position

/-- The address of the symbol that a name denotes at a position. -/
def lookup : Position → String → Option Address
  | [], _ => none
  | p :: outer, name =>
    match p.items.findIdx? (Item.isNamed name) with
    | some index => some ⟨p.scope, index⟩
    | none => lookup outer name

/-- The item at an address in front of a position. -/
def item? : Position → Address → Option Item
  | [], _ => none
  | p :: outer, a => if p.scope = a.scope then p.items[a.index]? else item? outer a

/-- The scopes of a position are told apart by their numbers, and inner ones are
    younger. -/
def Descends (pos : Position) : Prop :=
  pos.Pairwise fun p q => q.scope < p.scope

end Position

/-- The symbol that an item declares under a name. Literals declare nothing. -/
def Item.declared? : Item → Option Symbol
  | .symbol s => if Statement.isIdentifier s.name then some s else none
  | .instruction _ | .loop _ => none

namespace ScopeTree

/-- The items of a stretch as the tree has them. -/
def reached (t : ScopeTree) (p : Stretch) : List Item :=
  (t.itemsAt p.scope).take p.items.length

/-- The declarations in a stretch, with the values that the tree has. -/
def frame (t : ScopeTree) (p : Stretch) : Frame :=
  (t.reached p).filterMap Item.declared?

/-- The declarations at a position, with the values that the tree has. -/
def visible (t : ScopeTree) (pos : Position) : Env :=
  pos.map t.frame

end ScopeTree

/-- The tree has the items of a position, up to the values of variables. -/
def Fits (t : ScopeTree) (pos : Position) : Prop :=
  ∀ p ∈ pos, (t.reached p).map Item.skeleton = p.items.map Item.skeleton

/-! ## Names in a list of items -/

theorem Item.declared?_eq_some {i : Item} {s : Symbol} :
    i.declared? = some s ↔ i = .symbol s ∧ Statement.isIdentifier s.name := by
  cases i with
  | instruction _ => simp only [declared?, reduceCtorEq, false_and]
  | loop _ => simp only [declared?, reduceCtorEq, false_and]
  | symbol s' =>
      simp only [declared?, Item.symbol.injEq, Option.ite_none_right_eq_some,
        Option.some.injEq]
      constructor
      · rintro ⟨hname, rfl⟩
        exact ⟨rfl, hname⟩
      · rintro ⟨rfl, hname⟩
        exact ⟨hname, rfl⟩

section Items

variable {name : String} (hname : Statement.isIdentifier name)

include hname

/-- An item declares an identifier exactly if it is the symbol of that name. -/
theorem declared?_any (i : Item) :
    (i.declared?.any fun s => s.name = name) = i.isNamed name := by
  cases i with
  | instruction _ => rfl
  | loop _ => rfl
  | symbol s =>
      simp only [Item.declared?, Item.isNamed]
      by_cases hs : s.name = name
      · rw [hs, if_pos hname]
        simp only [Option.any_some, hs, decide_true]
      · split
        · rfl
        · simp only [Option.any_none, hs, decide_false]

/-- Looking a name up in the declarations of a list is looking for the first
    symbol of that name. -/
theorem find?_declared (l : List Item) :
    (l.filterMap Item.declared?).find? (fun s => s.name = name) =
      (l.findIdx? (Item.isNamed name)).bind fun i => l[i]?.bind Item.symbol? := by
  rw [List.find?_filterMap]
  simp only [declared?_any hname]
  rw [List.find?_eq_bind_findIdx?_getElem?, Option.bind_assoc]
  cases hidx : l.findIdx? (Item.isNamed name) with
  | none => rfl
  | some i =>
      rcases List.findIdx?_eq_some_iff_getElem.1 hidx with ⟨hi, hnamed, -⟩
      simp only [Option.bind_some, List.getElem?_eq_getElem hi]
      cases hitem : l[i] with
      | instruction _ => rfl
      | loop _ => rfl
      | symbol s =>
          rw [hitem] at hnamed
          have hs : s.name = name := by simpa only [Item.isNamed, decide_eq_true_eq] using hnamed
          exact Item.declared?_eq_some.2 ⟨rfl, hs ▸ hname⟩

/-- A name is declared in a list exactly if the list has a symbol of that name. -/
theorem any_declared (l : List Item) :
    ((l.filterMap Item.declared?).any fun s => s.name = name) =
      (l.findIdx? (Item.isNamed name)).isSome := by
  rw [List.any_filterMap, List.findIdx?_isSome]
  congr 1
  funext i
  rw [← declared?_any hname i]
  cases i.declared? with
  | none => rfl
  | some s => rfl

/-- Replacing the first symbol of a name in a list is assigning to the name. -/
theorem assign_declared (v : Int32) (l : List Item) (i : Nat) (s : Symbol)
    (hidx : l.findIdx? (Item.isNamed name) = some i) (hs : l[i]? = some (.symbol s)) :
    (l.set i (.symbol { s with value := v })).filterMap Item.declared? =
      Frame.assign name v (l.filterMap Item.declared?) := by
  induction l generalizing i with
  | nil => cases hidx
  | cons item rest ih =>
      rw [List.findIdx?_cons] at hidx
      by_cases hitem : item.isNamed name
      · -- The head is the symbol of that name.
        rw [if_pos hitem, Option.some.injEq] at hidx
        subst hidx
        rw [List.getElem?_cons_zero, Option.some.injEq] at hs
        subst hs
        have hn : s.name = name := by simpa only [Item.isNamed, decide_eq_true_eq] using hitem
        have hid : Statement.isIdentifier s.name := hn ▸ hname
        have hset : (Item.symbol { s with value := v }).declared? = some { s with value := v } :=
          Item.declared?_eq_some.2 ⟨rfl, hid⟩
        rw [List.set_cons_zero, List.filterMap_cons_some hset,
          List.filterMap_cons_some (Item.declared?_eq_some.2 ⟨rfl, hid⟩), Frame.assign, if_pos hn]
      · rw [if_neg hitem, Option.map_eq_some_iff] at hidx
        rcases hidx with ⟨k, hk, rfl⟩
        rw [List.getElem?_cons_succ] at hs
        rw [List.set_cons_succ]
        have hrest := ih k hk hs
        cases hdecl : item.declared? with
        | none => rw [List.filterMap_cons_none hdecl, List.filterMap_cons_none hdecl, hrest]
        | some d =>
            have hd : ¬ d.name = name := by
              rcases Item.declared?_eq_some.1 hdecl with ⟨rfl, -⟩
              simpa only [Item.isNamed, decide_eq_true_eq] using hitem
            rw [List.filterMap_cons_some hdecl, List.filterMap_cons_some hdecl, Frame.assign,
              if_neg hd, hrest]

end Items

/-! ## Addresses at a position -/

namespace Position

/-- A name that is found is found in one of the stretches. -/
theorem mem_of_lookup {pos : Position} {name : String} {a : Address}
    (h : pos.lookup name = some a) :
    ∃ p ∈ pos, p.scope = a.scope ∧ p.items.findIdx? (Item.isNamed name) = some a.index := by
  induction pos with
  | nil => cases h
  | cons p outer ih =>
      unfold lookup at h
      cases hidx : p.items.findIdx? (Item.isNamed name) with
      | some index =>
          rw [hidx] at h
          cases h
          exact ⟨p, List.mem_cons_self, rfl, hidx⟩
      | none =>
          rw [hidx] at h
          rcases ih h with ⟨q, hq, hscope, hfound⟩
          exact ⟨q, List.mem_cons_of_mem _ hq, hscope, hfound⟩

/-- The address of a stretch leads into that stretch, the scopes being told
    apart. -/
theorem item?_of_mem {pos : Position} (hpos : pos.Descends) {p : Stretch} (hp : p ∈ pos)
    (index : Nat) : pos.item? ⟨p.scope, index⟩ = p.items[index]? := by
  induction pos with
  | nil => cases hp
  | cons q outer ih =>
      rcases List.pairwise_cons.1 hpos with ⟨hfirst, hrest⟩
      unfold item?
      rcases List.mem_cons.1 hp with rfl | hp
      · rw [if_pos rfl]
      · have hlt := hfirst p hp
        rw [if_neg (by simp only; omega)]
        exact ih hrest hp

/-- What a name denotes is a symbol of that name. -/
theorem symbol_of_lookup {pos : Position} (hpos : pos.Descends) {name : String} {a : Address}
    (h : pos.lookup name = some a) : ∃ s, pos.item? a = some (.symbol s) ∧ s.name = name := by
  rcases mem_of_lookup h with ⟨p, hp, hscope, hidx⟩
  rcases List.findIdx?_eq_some_iff_getElem.1 hidx with ⟨hlt, hnamed, -⟩
  have hitem : pos.item? a = some p.items[a.index] := by
    rw [← List.getElem?_eq_getElem hlt, ← item?_of_mem hpos hp, hscope]
  cases hsym : p.items[a.index] with
  | instruction _ =>
      rw [hsym] at hnamed
      cases hnamed
  | loop _ =>
      rw [hsym] at hnamed
      cases hnamed
  | symbol s =>
      rw [hsym] at hnamed hitem
      exact ⟨s, hitem, by simpa only [Item.isNamed, decide_eq_true_eq] using hnamed⟩

end Position

/-! ## A tree at a position -/

section Tree

variable {t : ScopeTree}

/-- The items of a stretch are those of the tree. -/
theorem item?_reached {p : Stretch} {index : Nat} (hlt : index < p.items.length) :
    t.item? ⟨p.scope, index⟩ = (t.reached p)[index]? := by
  unfold ScopeTree.reached
  rw [ScopeTree.item?_eq, List.getElem?_take, if_pos hlt]

/-- An item in front of a position is in the tree, up to its value. -/
theorem Fits.exists_item {pos : Position} (hfit : Fits t pos) {a : Address} {i : Item}
    (hi : pos.item? a = some i) : ∃ j, t.item? a = some j ∧ j.skeleton = i.skeleton := by
  induction pos with
  | nil => cases hi
  | cons p outer ih =>
      unfold Position.item? at hi
      split at hi
      · rename_i hscope
        have hlt : a.index < p.items.length := (List.getElem?_eq_some_iff.1 hi).1
        have hitem : t.item? a = (t.reached p)[a.index]? := by
          rw [← item?_reached hlt, hscope]
        have hmap := congrArg (fun l : List Item => l[a.index]?) (hfit p List.mem_cons_self)
        simp only [List.getElem?_map, hi, Option.map_some] at hmap
        rcases Option.map_eq_some_iff.1 hmap with ⟨j, hj, hskel⟩
        exact ⟨j, hitem.trans hj, hskel⟩
      · exact ih (fun q hq => hfit q (List.mem_cons_of_mem _ hq)) hi

/-- The interpreter finds the symbol at the address that is looked up. -/
theorem find?_visible {pos : Position} (hfit : Fits t pos) {name : String}
    (hname : Statement.isIdentifier name) :
    (t.visible pos).find? name =
      (pos.lookup name).bind fun a => (t.item? a).bind Item.symbol? := by
  induction pos with
  | nil => rfl
  | cons p outer ih =>
      have hp := findIdx?_of_skeleton (hfit p List.mem_cons_self) name
      unfold ScopeTree.visible Env.find?
      rw [List.map_cons, List.findSome?_cons]
      unfold ScopeTree.frame Position.lookup
      rw [find?_declared hname, hp]
      cases hidx : p.items.findIdx? (Item.isNamed name) with
      | none => exact ih fun q hq => hfit q (List.mem_cons_of_mem _ hq)
      | some index =>
          rcases List.findIdx?_eq_some_iff_getElem.1 hidx with ⟨hlt, -, -⟩
          rcases List.findIdx?_eq_some_iff_getElem.1 (hp.trans hidx) with ⟨hlt', hnamed, -⟩
          simp only [Option.bind_some]
          rw [item?_reached hlt, List.getElem?_eq_getElem hlt']
          cases hitem : (t.reached p)[index] with
          | symbol s => rfl
          | instruction _ =>
              rw [hitem] at hnamed
              cases hnamed
          | loop _ =>
              rw [hitem] at hnamed
              cases hnamed

/-- A change in one scope leaves the declarations of another alone. -/
theorem frame_setItem_of_ne {p : Stretch} {a : Address} {i : Item} (h : p.scope ≠ a.scope) :
    (t.setItem a i).frame p = t.frame p := by
  unfold ScopeTree.frame ScopeTree.reached
  rw [ScopeTree.itemsAt_setItem, if_neg fun e => h e.symm]

/-- Writing to the address that a name has is assigning to the name. -/
theorem assign_visible {pos : Position} (hfit : Fits t pos) (hpos : pos.Descends)
    {name : String} (hname : Statement.isIdentifier name) {a : Address}
    (ha : pos.lookup name = some a) {s : Symbol} (hs : t.item? a = some (.symbol s))
    (v : Int32) :
    (t.setItem a (.symbol { s with value := v })).visible pos = (t.visible pos).assign name v := by
  induction pos with
  | nil => cases ha
  | cons p outer ih =>
      rcases List.pairwise_cons.1 hpos with ⟨hfirst, hrest⟩
      have hfit' : Fits t outer := fun q hq => hfit q (List.mem_cons_of_mem _ hq)
      have hp := findIdx?_of_skeleton (hfit p List.mem_cons_self) name
      unfold ScopeTree.visible
      rw [List.map_cons, List.map_cons, Env.assign]
      unfold Position.lookup at ha
      cases hidx : p.items.findIdx? (Item.isNamed name) with
      | some index =>
          -- The name is declared here: this frame changes, those further out do not.
          rw [hidx, Option.some.injEq] at ha
          subst ha
          rcases List.findIdx?_eq_some_iff_getElem.1 hidx with ⟨hlt, -, -⟩
          have hhead : (t.setItem ⟨p.scope, index⟩ (.symbol { s with value := v })).frame p =
              Frame.assign name v (t.frame p) := by
            unfold ScopeTree.frame
            rw [← assign_declared hname v (t.reached p) index s (hp.trans hidx)
              (by rw [← item?_reached hlt]; exact hs)]
            unfold ScopeTree.reached
            rw [ScopeTree.itemsAt_setItem, if_pos rfl, List.take_set]
          have htail : outer.map (t.setItem ⟨p.scope, index⟩
              (.symbol { s with value := v })).frame = outer.map t.frame := by
            refine List.map_congr_left fun q hq => frame_setItem_of_ne ?_
            have := hfirst q hq
            simp only
            omega
          have hany : ((t.frame p).any fun s => s.name = name) = true := by
            unfold ScopeTree.frame
            rw [any_declared hname, hp, hidx, Option.isSome_some]
          rw [hhead, htail, if_pos hany]
      | none =>
          rw [hidx] at ha
          rcases Position.mem_of_lookup ha with ⟨q, hq, hscope, -⟩
          have hne : p.scope ≠ a.scope := by
            have := hfirst q hq
            rw [← hscope]
            omega
          have hany : ¬ ((t.frame p).any fun s => s.name = name) = true := by
            unfold ScopeTree.frame
            rw [any_declared hname, hp, hidx, Option.isSome_none]
            exact Bool.false_ne_true
          have hrec := ih hfit' hrest ha
          unfold ScopeTree.visible at hrec
          rw [frame_setItem_of_ne hne, if_neg hany, hrec]

/-- A write at or behind the end of a stretch is not seen from there. -/
theorem visible_setItem_of_le {p : Stretch} {outer : Position}
    (hpos : Position.Descends (p :: outer)) {index : Nat} (hle : p.items.length ≤ index)
    (i : Item) :
    (t.setItem ⟨p.scope, index⟩ i).visible (p :: outer) = t.visible (p :: outer) := by
  unfold ScopeTree.visible
  refine List.map_congr_left fun q hq => ?_
  rcases List.mem_cons.1 hq with rfl | hq
  · unfold ScopeTree.frame ScopeTree.reached
    rw [ScopeTree.itemsAt_setItem, if_pos rfl, List.take_set_of_le hle]
  · have := (List.pairwise_cons.1 hpos).1 q hq
    exact frame_setItem_of_ne (by simp only; omega)

theorem visible_setHeader (b : ScopeId) (h : LoopHeader) (pos : Position) :
    (t.setHeader b h).visible pos = t.visible pos := by
  unfold ScopeTree.visible
  refine List.map_congr_left fun p _ => ?_
  unfold ScopeTree.frame ScopeTree.reached
  rw [ScopeTree.itemsAt_setHeader]

end Tree

/-! ## Positions in the tree of a program -/

/-- The items of a position are the first items of their scopes. -/
def Within (t : ScopeTree) (pos : Position) : Prop :=
  ∀ p ∈ pos, p.items <+: t.itemsAt p.scope

-- A position further up in the same scope.
theorem Within.shorten {t : ScopeTree} {s : Nat} {items : List Item} {i : Item}
    {outer : Position} (h : Within t (⟨s, items ++ [i]⟩ :: outer)) :
    Within t (⟨s, items⟩ :: outer) := by
  intro p hp
  rcases List.mem_cons.1 hp with rfl | hp
  · exact (List.prefix_append items [i]).trans (h _ List.mem_cons_self)
  · exact h p (List.mem_cons_of_mem _ hp)

section Within

variable {t u : ScopeTree} (hskel : u.skeleton = t.skeleton)

include hskel

/-- A tree of the same skeleton fits the positions of a program. -/
theorem Within.fits {pos : Position} (h : Within t pos) : Fits u pos := by
  intro p hp
  rcases h p hp with ⟨rest, hrest⟩
  unfold ScopeTree.reached
  rw [List.map_take, ScopeTree.items_of_skeleton hskel, ← List.map_take, ← hrest, List.take_left]

/-- The environment after one more item. -/
theorem visible_snoc {s : Nat} {items : List Item} {i : Item} {outer : Position}
    (h : Within t (⟨s, items ++ [i]⟩ :: outer)) :
    ∃ j, u.item? ⟨s, items.length⟩ = some j ∧ j.skeleton = i.skeleton ∧
      u.visible (⟨s, items ++ [i]⟩ :: outer) =
        (u.frame ⟨s, items⟩ ++ j.declared?.toList) :: u.visible outer := by
  have hitem : t.item? ⟨s, items.length⟩ = some i := by
    rcases h ⟨s, items ++ [i]⟩ List.mem_cons_self with ⟨rest, hrest⟩
    rw [ScopeTree.item?_eq]
    simp only [← hrest, List.append_assoc, List.getElem?_append_right (Nat.le_refl _),
      Nat.sub_self]
    rfl
  rcases ScopeTree.exists_item hskel hitem with ⟨j, hj, hjskel⟩
  refine ⟨j, hj, hjskel, ?_⟩
  have hlast : u.reached ⟨s, items ++ [i]⟩ = u.reached ⟨s, items⟩ ++ [j] := by
    unfold ScopeTree.reached
    rw [ScopeTree.item?_eq] at hj
    simp only [List.length_append, List.length_cons, List.length_nil, List.take_add_one, hj,
      Option.toList_some]
  unfold ScopeTree.visible
  rw [List.map_cons]
  congr 1
  unfold ScopeTree.frame
  rw [hlast, List.filterMap_append]
  rfl

/-- An item that declares nothing leaves the environment as it is. -/
theorem visible_skip {s : Nat} {items : List Item} {i : Item} {outer : Position}
    (h : Within t (⟨s, items ++ [i]⟩ :: outer)) (hi : i.declared? = none) :
    u.visible (⟨s, items ++ [i]⟩ :: outer) = u.visible (⟨s, items⟩ :: outer) := by
  rcases visible_snoc hskel h with ⟨j, -, hj, hvisible⟩
  have hnone : j.declared? = none := by
    cases i with
    | instruction _ => rw [Item.eq_of_skeleton_eq rfl hj]; rfl
    | loop _ => rw [Item.eq_of_skeleton_eq rfl hj]; rfl
    | symbol c =>
        rcases Item.skeleton_eq_symbol hj with ⟨c', rfl, hc⟩
        have hname : c'.name = c.name := by rw [← Symbol.skeleton_name, hc, Symbol.skeleton_name]
        simp only [Item.declared?, ite_eq_right_iff, reduceCtorEq, imp_false] at hi ⊢
        rw [hname]
        exact hi
  rw [hvisible, hnone, Option.toList_none, List.append_nil]
  rfl

/-- A declaration becomes part of the environment, with the value it has now. -/
theorem visible_declare {s : Nat} {items : List Item} {c : Symbol} {outer : Position}
    (h : Within t (⟨s, items ++ [.symbol c]⟩ :: outer)) (hc : Statement.isIdentifier c.name) :
    ∃ c', u.item? ⟨s, items.length⟩ = some (.symbol c') ∧ c'.skeleton = c.skeleton ∧
      u.visible (⟨s, items ++ [.symbol c]⟩ :: outer) =
        (u.visible (⟨s, items⟩ :: outer)).declare c' := by
  rcases visible_snoc hskel h with ⟨j, hj, hjskel, hvisible⟩
  rcases Item.skeleton_eq_symbol hjskel with ⟨c', rfl, hc'⟩
  have hname : c'.name = c.name := by rw [← Symbol.skeleton_name, hc', Symbol.skeleton_name]
  refine ⟨c', hj, hc', ?_⟩
  rw [hvisible, Item.declared?_eq_some.2 ⟨rfl, hname ▸ hc⟩]
  rfl

end Within

end UnrollAsm
