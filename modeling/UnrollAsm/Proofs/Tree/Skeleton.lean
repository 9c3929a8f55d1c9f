import UnrollAsm.Proofs.Tree.Access

/-!
# The Skeleton of a Tree

Unrolling rewrites the values of variables and the bookkeeping in loop headers,
and nothing else. Everything it does not touch is the skeleton: the tree with
all variables at zero and all headers at rest. Two trees with one skeleton have
the same instructions at the same addresses, the same names of the same kinds,
the same constants, and loops over the same operands.

A fact about the program that was read is therefore a fact about the skeleton,
and survives the whole of the second pass once every single write is known to
keep the skeleton.

## Main definitions

* `ScopeTree.skeleton`: The tree with variables and headers at rest.

## Theorems

* `ScopeTree.skeleton_setItem`: Replacing an item by one of the same skeleton.
* `ScopeTree.skeleton_setHeader`: The same for headers.
* `ScopeTree.exists_item`: Trees of one skeleton agree at every address.
* `ScopeTree.exists_header`: They agree on every loop.
-/

namespace UnrollAsm

/-- A symbol, put to zero if it is a variable. -/
def Symbol.skeleton (s : Symbol) : Symbol :=
  if s.isVar then { s with value := 0 } else s

/-- An item, put to zero if it is a variable. -/
def Item.skeleton : Item → Item
  | .symbol s => .symbol s.skeleton
  | item => item

/-- A header that has forgotten its latest run. -/
def LoopHeader.skeleton (h : LoopHeader) : LoopHeader :=
  { h with bounds := ⟨0, 0, 0⟩, current := 0 }

/-- A scope with its variables at zero and its header at rest. -/
def Scope.skeleton (s : Scope) : Scope :=
  { s with items := s.items.map Item.skeleton, header := s.header.map LoopHeader.skeleton }

/-- The tree with all variables at zero and all headers at rest. -/
def ScopeTree.skeleton (t : ScopeTree) : ScopeTree :=
  ⟨t.scopes.map Scope.skeleton⟩

namespace Symbol

@[simp] theorem skeleton_name (s : Symbol) : s.skeleton.name = s.name := by
  unfold skeleton
  split <;> rfl

@[simp] theorem skeleton_kind (s : Symbol) : s.skeleton.kind = s.kind := by
  unfold skeleton
  split <;> rfl

/-- A variable keeps its skeleton whatever it is set to. -/
theorem skeleton_set {s : Symbol} (hvar : s.isVar) (v : Int32) :
    ({ s with value := v } : Symbol).skeleton = s.skeleton := by
  have hset : ({ s with value := v } : Symbol).isVar := hvar
  unfold skeleton
  rw [if_pos hvar, if_pos hset]

/-- A constant is its own skeleton. -/
theorem eq_of_skeleton_eq {s c : Symbol} (hconst : c.isVar = false)
    (h : s.skeleton = c.skeleton) : s = c := by
  have hkind : s.kind = c.kind := by rw [← skeleton_kind, h, skeleton_kind]
  have hs : s.isVar = false := by
    unfold isVar at hconst ⊢
    rw [hkind]
    exact hconst
  unfold skeleton at h
  rw [hs, hconst] at h
  exact h

-- A symbol is its skeleton and its value.
theorem set_of_skeleton {c d : Symbol} (h : c.skeleton = d.skeleton) (x : Int32) :
    ({ c with value := x } : Symbol) = { d with value := x } := by
  have hname : c.name = d.name := by rw [← skeleton_name, h, skeleton_name]
  have hkind : c.kind = d.kind := by rw [← skeleton_kind, h, skeleton_kind]
  rw [hname, hkind]

end Symbol

namespace Item

/-- Only a symbol has the skeleton of a symbol. -/
theorem skeleton_eq_symbol {i : Item} {s : Symbol} (h : i.skeleton = (symbol s).skeleton) :
    ∃ s', i = symbol s' ∧ s'.skeleton = s.skeleton := by
  cases i with
  | symbol s' => exact ⟨s', rfl, by simpa only [skeleton, symbol.injEq] using h⟩
  | instruction _ => cases h
  | loop _ => cases h

/-- What is not a symbol is determined by its skeleton. -/
theorem eq_of_skeleton_eq {i j : Item} (hj : j.symbol? = none) (h : i.skeleton = j.skeleton) :
    i = j := by
  cases j with
  | symbol s => cases hj
  | instruction _ =>
      cases i with
      | symbol _ => cases h
      | instruction _ => exact h
      | loop _ => cases h
  | loop _ =>
      cases i with
      | symbol _ => cases h
      | instruction _ => cases h
      | loop _ => exact h

@[simp] theorem isNamed_skeleton (name : String) (i : Item) :
    i.skeleton.isNamed name = i.isNamed name := by
  cases i with
  | symbol s => simp only [skeleton, isNamed, Symbol.skeleton_name]
  | instruction _ => rfl
  | loop _ => rfl

end Item

/-- Lists of one skeleton have their names at the same places. -/
theorem findIdx?_of_skeleton {l l' : List Item}
    (h : l.map Item.skeleton = l'.map Item.skeleton) (name : String) :
    l.findIdx? (Item.isNamed name) = l'.findIdx? (Item.isNamed name) := by
  have hcomp : Item.isNamed name ∘ Item.skeleton = Item.isNamed name := by
    funext i
    exact Item.isNamed_skeleton name i
  have hidx := congrArg (List.findIdx? (Item.isNamed name)) h
  rw [List.findIdx?_map, List.findIdx?_map, hcomp] at hidx
  exact hidx

-- A scope is its skeleton, its items and its header.
theorem Scope.eq_of_skeleton {a b : Scope} (hskel : a.skeleton = b.skeleton)
    (hitems : a.items = b.items) (hheader : a.header = b.header) : a = b := by
  rcases a with ⟨parent, children, items, header⟩
  rcases b with ⟨parent', children', items', header'⟩
  simp only [Scope.skeleton, Scope.mk.injEq] at hskel
  simp only at hitems hheader
  rw [hskel.1, hskel.2.1, hitems, hheader]

namespace ScopeTree

@[simp] theorem size_skeleton (t : ScopeTree) : t.skeleton.size = t.size :=
  Array.size_map

theorem scopes_skeleton (t : ScopeTree) (s : ScopeId) :
    t.skeleton.scopes[s]? = t.scopes[s]?.map Scope.skeleton :=
  Array.getElem?_map

theorem itemsAt_skeleton (t : ScopeTree) (s : ScopeId) :
    t.skeleton.itemsAt s = (t.itemsAt s).map Item.skeleton := by
  unfold itemsAt
  rw [scopes_skeleton]
  cases t.scopes[s]? with
  | none => rfl
  | some scope => exact Array.toList_map

theorem headerAt_skeleton (t : ScopeTree) (s : ScopeId) :
    t.skeleton.headerAt s = (t.headerAt s).map LoopHeader.skeleton := by
  unfold headerAt
  rw [scopes_skeleton]
  cases t.scopes[s]? with
  | none => rfl
  | some scope => rfl

theorem parentAt_skeleton (t : ScopeTree) (s : ScopeId) :
    t.skeleton.parentAt s = t.parentAt s := by
  unfold parentAt
  rw [scopes_skeleton]
  cases t.scopes[s]? with
  | none => rfl
  | some scope => rfl

/-- Changing a scope keeps the skeleton of the tree if it keeps that of the
    scope. -/
theorem skeleton_modify {t : ScopeTree} {s : ScopeId} {f : Scope → Scope}
    (hf : ∀ scope, t.scopes[s]? = some scope → (f scope).skeleton = scope.skeleton) :
    (t.modify s f).skeleton = t.skeleton := by
  unfold skeleton
  rw [ScopeTree.mk.injEq]
  apply Array.ext_getElem?
  intro r
  rw [Array.getElem?_map, Array.getElem?_map, scopes_modify]
  by_cases hr : s = r
  · rw [if_pos hr]
    subst hr
    cases hscope : t.scopes[s]? with
    | none => rfl
    | some scope => exact congrArg some (hf scope hscope)
  · rw [if_neg hr]

/-- Replacing an item by one of the same skeleton. -/
theorem skeleton_setItem {t : ScopeTree} {a : Address} {i j : Item} (hi : t.item? a = some i)
    (hj : j.skeleton = i.skeleton) : (t.setItem a j).skeleton = t.skeleton := by
  refine skeleton_modify fun scope hscope => ?_
  unfold item? at hi
  rw [hscope] at hi
  simp only [Option.bind_some] at hi
  unfold Scope.skeleton
  simp only [Scope.mk.injEq, and_true, true_and]
  apply Array.ext_getElem?
  intro k
  rw [Array.getElem?_map, Array.getElem?_map, Array.getElem?_modify]
  by_cases hk : a.index = k
  · rw [if_pos hk, ← hk, hi]
    exact congrArg some hj
  · rw [if_neg hk]

/-- Replacing a header by one of the same skeleton. -/
theorem skeleton_setHeader {t : ScopeTree} {b : ScopeId} {h h' : LoopHeader}
    (hh : t.headerAt b = some h) (hs : h'.skeleton = h.skeleton) :
    (t.setHeader b h').skeleton = t.skeleton := by
  refine skeleton_modify fun scope hscope => ?_
  unfold headerAt at hh
  rw [hscope] at hh
  simp only [Option.bind_some] at hh
  unfold Scope.skeleton
  rw [hh]
  simp only [Option.map_some, hs]

section SameSkeleton

variable {t u : ScopeTree} (h : t.skeleton = u.skeleton)

include h

theorem size_of_skeleton : t.size = u.size := by
  rw [← size_skeleton, h, size_skeleton]

/-- Trees of one skeleton have items of one skeleton in every scope. -/
theorem items_of_skeleton (s : ScopeId) :
    (t.itemsAt s).map Item.skeleton = (u.itemsAt s).map Item.skeleton := by
  rw [← itemsAt_skeleton, h, itemsAt_skeleton]

theorem item?_of_skeleton (a : Address) :
    (t.item? a).map Item.skeleton = (u.item? a).map Item.skeleton := by
  have hitems := congrArg (fun l : List Item => l[a.index]?) (items_of_skeleton h a.scope)
  simpa only [List.getElem?_map, ← item?_eq] using hitems

/-- Trees of one skeleton agree at every address. -/
theorem exists_item {a : Address} {i : Item} (hi : u.item? a = some i) :
    ∃ j, t.item? a = some j ∧ j.skeleton = i.skeleton := by
  have hmap := item?_of_skeleton h a
  rw [hi] at hmap
  exact Option.map_eq_some_iff.1 hmap

-- Markers are part of the skeleton.
theorem marker_of_skeleton {s c : ScopeId} (hc : Item.loop c ∈ t.itemsAt s) :
    Item.loop c ∈ u.itemsAt s := by
  have hmem := List.mem_map_of_mem (f := Item.skeleton) hc
  rw [items_of_skeleton h] at hmem
  rcases List.mem_map.1 hmem with ⟨j, hj, hskel⟩
  rwa [← Item.eq_of_skeleton_eq rfl hskel]

theorem headerAt_of_skeleton (s : ScopeId) :
    (t.headerAt s).map LoopHeader.skeleton = (u.headerAt s).map LoopHeader.skeleton := by
  rw [← headerAt_skeleton, h, headerAt_skeleton]

/-- Trees of one skeleton agree on every loop. -/
theorem exists_header {s : ScopeId} {hd : LoopHeader} (hh : u.headerAt s = some hd) :
    ∃ hd', t.headerAt s = some hd' ∧ hd'.skeleton = hd.skeleton := by
  have hmap := headerAt_of_skeleton h s
  rw [hh] at hmap
  exact Option.map_eq_some_iff.1 hmap

end SameSkeleton

/-- Trees of one skeleton with the same items and the same headers are the
    same. -/
theorem eq_of_skeleton {t u : ScopeTree} (hskel : t.skeleton = u.skeleton)
    (hitem : ∀ a, t.item? a = u.item? a) (hheader : ∀ s, t.headerAt s = u.headerAt s) :
    t = u := by
  have hscopes : t.scopes = u.scopes := by
    apply Array.ext_getElem?
    intro s
    have hscope := congrArg (fun v : ScopeTree => v.scopes[s]?) hskel
    simp only [scopes_skeleton] at hscope
    rcases ht : t.scopes[s]? with _ | a
    · rw [ht, Option.map_none, eq_comm, Option.map_eq_none_iff] at hscope
      rw [hscope]
    · rw [ht, Option.map_some, eq_comm, Option.map_eq_some_iff] at hscope
      rcases hscope with ⟨b, hu, hscope⟩
      have hitems : a.items = b.items := by
        apply Array.ext_getElem?
        intro index
        simpa only [item?, ht, hu, Option.bind_some] using hitem ⟨s, index⟩
      have hheaders : a.header = b.header := by
        simpa only [headerAt, ht, hu, Option.bind_some] using hheader s
      rw [hu, Scope.eq_of_skeleton hscope.symm hitems hheaders]
  calc t = ⟨t.scopes⟩ := rfl
    _ = ⟨u.scopes⟩ := by rw [hscopes]
    _ = u := rfl

end ScopeTree

end UnrollAsm
