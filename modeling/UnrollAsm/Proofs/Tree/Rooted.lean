import UnrollAsm.Proofs.Tree.Skeleton

/-!
# Rooted Trees

What every tree of a session has in common, whichever calls have made it and
however they ended: the scope around a scope is older than it, and a loop marker
leads to a scope that is nested in the scope of the marker. Hence the search for
a name ends, and ends well, in every scope that exists.

Nothing here says that a program has been read properly. A tree that a failed
call left behind is rooted, and so is the tree of an assembled program.

## Main definitions

* `Rooted`: Scopes are nested in older ones, and markers lead inwards.

## Theorems

* `Rooted.exists_find`: Looking up a name does not break down.
* `symbol_of_find`: What is found is a symbol of that name.
* `find_push`: An item of another name does not change what is found.
* `find_push_self`: A symbol is found where nothing was.
* `Rooted.push`, `Rooted.nest`, `Rooted.clear`, `Rooted.of_skeleton`: Rooted
  trees grow into rooted trees.
-/

namespace UnrollAsm

/-- Every scope is nested in an older one, and a marker leads to a scope that is
    nested in the scope of the marker. -/
structure Rooted (t : ScopeTree) : Prop where
  nonempty : 0 < t.size
  older : ∀ s p : Nat, t.parentAt s = some p → p < s
  linked : ∀ s c : Nat, Item.loop c ∈ t.itemsAt s → t.parentAt c = some s

namespace ScopeTree

/-- Only a scope that exists is nested in another. -/
theorem lt_size_of_parentAt {t : ScopeTree} {s p : Nat} (h : t.parentAt s = some p) :
    s < t.size := by
  unfold parentAt at h
  rcases Option.bind_eq_some_iff.1 h with ⟨scope, hscope, -⟩
  exact (Array.getElem?_eq_some_iff.1 hscope).1

/-- Only a scope that exists has items. -/
theorem lt_size_of_mem {t : ScopeTree} {s : Nat} {i : Item} (h : i ∈ t.itemsAt s) :
    s < t.size := by
  unfold itemsAt at h
  cases hscope : t.scopes[s]? with
  | none =>
      rw [hscope] at h
      cases h
  | some scope => exact (Array.getElem?_eq_some_iff.1 hscope).1

theorem parent?_eq {t : ScopeTree} {s : Nat} (hs : s < t.size) :
    t.parent? s = .ok (t.parentAt s) := by
  rcases exists_scope hs with ⟨scope, hscope⟩
  unfold parent? parentAt
  rw [scope_eq_ok hscope, hscope]
  rfl

theorem findLocal_eq {t : ScopeTree} {s : Nat} (hs : s < t.size) (name : String) :
    t.findLocal s name =
      .ok (((t.itemsAt s).findIdx? (Item.isNamed name)).map fun index => ⟨s, index⟩) := by
  rcases exists_scope hs with ⟨scope, hscope⟩
  unfold findLocal Scope.find? itemsAt
  rw [scope_eq_ok hscope, hscope, Option.elim_some, ← List.findIdx?_toArray, Array.toArray_toList]
  rfl

/-- The first symbol of a name among the items of a scope. -/
theorem symbol_of_findIdx? {t : ScopeTree} {s index : Nat} {name : String}
    (h : (t.itemsAt s).findIdx? (Item.isNamed name) = some index) :
    ∃ c, t.item? ⟨s, index⟩ = some (.symbol c) ∧ c.name = name := by
  rcases List.findIdx?_eq_some_iff_getElem.1 h with ⟨hlt, hnamed, -⟩
  have hitem : t.item? ⟨s, index⟩ = some ((t.itemsAt s)[index]) := by
    rw [item?_eq]
    exact List.getElem?_eq_getElem hlt
  cases hsym : (t.itemsAt s)[index] with
  | symbol c =>
      rw [hsym] at hnamed hitem
      exact ⟨c, hitem, by simpa only [Item.isNamed, decide_eq_true_eq] using hnamed⟩
  | instruction _ =>
      rw [hsym] at hnamed
      cases hnamed
  | loop _ =>
      rw [hsym] at hnamed
      cases hnamed

end ScopeTree

/-! ## Looking up a name -/

section Find

variable {t : ScopeTree} {s : Nat} {name : String}

/-- What is found under a name is a symbol of that name. -/
theorem symbol_of_find {a : Address} (hs : s < t.size) (h : t.find s name = .ok (some a)) :
    ∃ c, t.item? a = some (.symbol c) ∧ c.name = name := by
  induction s using Nat.strongRecOn with
  | ind s ih =>
      rw [ScopeTree.find_step hs] at h
      cases hidx : (t.itemsAt s).findIdx? (Item.isNamed name) with
      | some index =>
          rw [hidx] at h
          cases h
          exact ScopeTree.symbol_of_findIdx? hidx
      | none =>
          rw [hidx] at h
          cases hparent : t.parentAt s with
          | none =>
              rw [hparent] at h
              cases h
          | some p =>
              rw [hparent] at h
              dsimp only at h
              split at h
              · rename_i hlt
                exact ih p hlt (Nat.lt_trans hlt hs) h
              · cases h

/-- An item of another name does not change what is found. -/
theorem find_push {i : Item} (hi : i.isNamed name = false) (r : Nat) (hs : s < t.size) :
    (t.push r i).find s name = t.find s name := by
  induction s using Nat.strongRecOn with
  | ind s ih =>
      have hidx : ((t.push r i).itemsAt s).findIdx? (Item.isNamed name) =
          (t.itemsAt s).findIdx? (Item.isNamed name) := by
        by_cases hr : r = s
        · subst hr
          rw [ScopeTree.itemsAt_push_self i hs, List.findIdx?_append, List.findIdx?_singleton, hi]
          exact Option.or_none
        · rw [ScopeTree.itemsAt_push_of_ne hr]
      rw [ScopeTree.find_step (by rwa [ScopeTree.size_push]), ScopeTree.find_step hs, hidx,
        ScopeTree.parentAt_push]
      cases (t.itemsAt s).findIdx? (Item.isNamed name) with
      | some index => rfl
      | none =>
          cases t.parentAt s with
          | none => rfl
          | some p =>
              dsimp only
              split
              · rename_i hlt
                exact ih p hlt (Nat.lt_trans hlt hs)
              · rfl

/-- Where nothing is found, there is no such symbol in the scope. -/
theorem findIdx?_of_find (hs : s < t.size) (h : t.find s name = .ok none) :
    (t.itemsAt s).findIdx? (Item.isNamed name) = none := by
  rw [ScopeTree.find_step hs] at h
  cases hidx : (t.itemsAt s).findIdx? (Item.isNamed name) with
  | none => rfl
  | some index =>
      rw [hidx] at h
      cases h

-- So there is none if the symbol that is found stands further out.
theorem findIdx?_of_outer {a : Address} (hs : s < t.size) (h : t.find s name = .ok (some a))
    (ha : a.scope ≠ s) : (t.itemsAt s).findIdx? (Item.isNamed name) = none := by
  rw [ScopeTree.find_step hs] at h
  cases hidx : (t.itemsAt s).findIdx? (Item.isNamed name) with
  | none => rfl
  | some index =>
      rw [hidx] at h
      cases h
      exact absurd rfl ha

/-- A symbol is found where nothing was found before. -/
theorem find_push_self {i : Item} (hi : i.isNamed name = true) (hs : s < t.size)
    (h : t.find s name = .ok none) :
    (t.push s i).find s name = .ok (some ⟨s, (t.itemsAt s).length⟩) := by
  have hidx : ((t.push s i).itemsAt s).findIdx? (Item.isNamed name) =
      some (t.itemsAt s).length := by
    rw [ScopeTree.itemsAt_push_self i hs, List.findIdx?_append, findIdx?_of_find hs h,
      List.findIdx?_singleton, hi, Option.none_or, if_pos rfl, Option.map_some, Nat.zero_add]
  rw [ScopeTree.find_step (by rwa [ScopeTree.size_push]), hidx]

/-- Where all parents are older, looking up a name ends. -/
theorem exists_find_of_older (hparents : ∀ s p : Nat, t.parentAt s = some p → p < s)
    (hs : s < t.size) (name : String) : ∃ found, t.find s name = .ok found := by
  induction s using Nat.strongRecOn with
  | ind s ih =>
      rw [ScopeTree.find_step hs]
      cases (t.itemsAt s).findIdx? (Item.isNamed name) with
      | some index => exact ⟨_, rfl⟩
      | none =>
          cases hparent : t.parentAt s with
          | none => exact ⟨_, rfl⟩
          | some p =>
              have hlt : p < s := hparents s p hparent
              dsimp only
              rw [if_pos hlt]
              exact ih p hlt (Nat.lt_trans hlt hs)

end Find

namespace Rooted

variable {t u : ScopeTree}

/-- Looking up a name ends in a scope that exists, and does not break down. -/
theorem exists_find (h : Rooted t) {s : Nat} (hs : s < t.size) (name : String) :
    ∃ found, t.find s name = .ok found :=
  exists_find_of_older h.older hs name

/-! ## Growth -/

theorem empty : Rooted .empty where
  nonempty := Nat.zero_lt_one
  older := by
    intro s p h
    cases s with
    | zero => cases h
    | succ s => cases h
  linked := by
    intro s c h
    cases s with
    | zero => cases h
    | succ s => cases h

/-- Trees with the same parents and the same markers are rooted together. -/
theorem of_views (h : Rooted t) (hsize : u.size = t.size)
    (hparent : ∀ s : Nat, u.parentAt s = t.parentAt s)
    (hmarker : ∀ s c : Nat, Item.loop c ∈ u.itemsAt s → Item.loop c ∈ t.itemsAt s) :
    Rooted u where
  nonempty := hsize ▸ h.nonempty
  older s p hp := h.older s p (hparent s ▸ hp)
  linked s c hc := (hparent c).trans (h.linked s c (hmarker s c hc))

/-- Rooted trees stay rooted when something other than a marker is appended. -/
theorem push (h : Rooted t) {s : Nat} {i : Item} (hs : s < t.size)
    (hi : ∀ c, i ≠ .loop c) : Rooted (t.push s i) := by
  refine h.of_views (ScopeTree.size_push t s i) (fun r => ScopeTree.parentAt_push t s i r) ?_
  intro r c hc
  by_cases hr : s = r
  · subst hr
    rw [ScopeTree.itemsAt_push_self i hs] at hc
    rcases List.mem_append.1 hc with hc | hc
    · exact hc
    · exact absurd (List.mem_singleton.1 hc).symm (hi c)
  · rwa [ScopeTree.itemsAt_push_of_ne hr] at hc

/-- A new loop is nested in the scope that holds its marker. -/
theorem nest (h : Rooted t) {s : Nat} (header : LoopHeader) (hs : s < t.size) :
    Rooted (t.nest s header) where
  nonempty := by
    rw [ScopeTree.size_nest]
    exact Nat.succ_pos _
  older := by
    intro r p hp
    have hr := ScopeTree.lt_size_of_parentAt hp
    rw [ScopeTree.size_nest] at hr
    rcases Nat.lt_succ_iff_lt_or_eq.1 hr with hr | rfl
    · rw [ScopeTree.parentAt_nest header hr] at hp
      exact h.older r p hp
    · rw [ScopeTree.parentAt_nest_body header hs] at hp
      cases hp
      exact hs
  linked := by
    intro r c hc
    have hr := ScopeTree.lt_size_of_mem hc
    rw [ScopeTree.size_nest] at hr
    rcases Nat.lt_succ_iff_lt_or_eq.1 hr with hr | rfl
    · rw [ScopeTree.itemsAt_nest header hr] at hc
      split at hc
      · rename_i hsr
        subst hsr
        rcases List.mem_append.1 hc with hc | hc
        · have hparent := h.linked s c hc
          rw [ScopeTree.parentAt_nest header (ScopeTree.lt_size_of_parentAt hparent), hparent]
        · cases List.mem_singleton.1 hc
          exact ScopeTree.parentAt_nest_body header hs
      · have hparent := h.linked r c hc
        rw [ScopeTree.parentAt_nest header (ScopeTree.lt_size_of_parentAt hparent), hparent]
    · rw [ScopeTree.itemsAt_nest_body header hs] at hc
      cases hc

/-- Trees of one skeleton are rooted together. -/
theorem of_skeleton (h : Rooted t) (hskel : u.skeleton = t.skeleton) : Rooted u := by
  refine h.of_views (ScopeTree.size_of_skeleton hskel) (fun s => ?_) fun s c hc => ?_
  · rw [← ScopeTree.parentAt_skeleton, hskel, ScopeTree.parentAt_skeleton]
  · exact ScopeTree.marker_of_skeleton hskel hc

/-- Clearing keeps scopes and markers where they are. -/
theorem clear (h : Rooted t) : Rooted t.clear := by
  refine h.of_views Array.size_map (fun s => ?_) fun s c hc => ?_
  · exact ScopeTree.parentAt_clear t s
  · rw [ScopeTree.itemsAt_clear] at hc
    rcases List.mem_map.1 hc with ⟨j, hj, hjclear⟩
    cases j with
    | symbol _ => cases hjclear
    | instruction _ => cases hjclear
    | loop _ =>
        cases hjclear
        exact hj

end Rooted

end UnrollAsm
