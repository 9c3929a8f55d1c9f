import UnrollAsm.Proofs.Tree.Nesting

/-!
# Lexical Look-Up

What a name stands for, told without the search that finds it. The scopes around
a scope form a chain that leads outwards until a scope is nested in nothing. A
name stands for the first symbol so called in the nearest scope of the chain that
holds one, and for nothing if none of them does.

A tree grows behind the backs of names that have been looked up already. Growth
adds items at the end of scopes and scopes at the end of the table, so a chain
stays what it is and a symbol is not overtaken inside its scope. The only item
that makes a difference is one that captures the name: a symbol so called that
comes to a scope of the chain, where neither this scope nor one nearer has held
the name. The name stands for that symbol from then on.

A new scope may be nested in itself, and then the parents of the grown tree are
no longer all older than their scopes. The chains of the scopes that were there
before do not lead to it, so what is said of them is said through `Finds`, which
has no need of a guard.

## Main definitions

* `Chain`: The scopes around a scope, from the scope itself outwards.
* `ScopeTree.Holds`, `IsFirst`: A scope holds a name; the first symbol that has it.
* `Nearest`: What a name stands for along a chain.
* `Captures`: An item takes a name over when it comes to the end of a scope.
* `Resolves`: A name is looked up along a chain.

## Theorems

* `finds_iff_nearest`: The search finds the nearest symbol.
* `Resolves.push`, `Resolves.adopt`: A name keeps its meaning unless it is captured.
* `Resolves.captured`: A name that is captured stands for the new symbol.
* `Resolves.perform`, `Resolves.performAll`: What a call keeps, and calls in a row.
* `find_lexical`: Look-up is lexical, and appending changes it by capture only.
-/

namespace UnrollAsm

/-- From the scope `s` outwards: the scope itself, the one around it, and so on,
    up to a scope that is nested in nothing. -/
inductive Chain (t : ScopeTree) : ScopeId → List ScopeId → Prop
  | outermost {s : ScopeId} : s < t.size → t.parentAt s = none → Chain t s [s]
  | inside {s p : ScopeId} {chain : List ScopeId} :
      t.parentAt s = some p → Chain t p chain → Chain t s (s :: chain)

/-- One of the symbols in a scope has the name. -/
def ScopeTree.Holds (t : ScopeTree) (s : ScopeId) (name : String) : Prop :=
  ∃ k c, t.item? ⟨s, k⟩ = some (.symbol c) ∧ c.name = name

/-- The address is that of a symbol with the name, the first in its scope. -/
structure IsFirst (t : ScopeTree) (name : String) (a : Address) : Prop where
  symbol : ∃ c, t.item? a = some (.symbol c) ∧ c.name = name
  earlier : ∀ k < a.index, ∀ c, t.item? ⟨a.scope, k⟩ = some (.symbol c) → c.name ≠ name

/-- What a name stands for along a chain of scopes: the first symbol that has it in
    the nearest scope that holds it, or nothing. -/
inductive Nearest (t : ScopeTree) (name : String) (chain : List ScopeId) :
    Option Address → Prop
  | found {inner outer : List ScopeId} {a : Address} : chain = inner ++ a.scope :: outer →
      (∀ r ∈ inner, ¬ t.Holds r name) → IsFirst t name a → Nearest t name chain (some a)
  | nowhere : (∀ r ∈ chain, ¬ t.Holds r name) → Nearest t name chain none

/-- The item is a symbol with the name, and the scope `r` belongs to a chain in which
    no scope up to `r` holds the name. -/
structure Captures (t : ScopeTree) (name : String) (chain : List ScopeId) (r : ScopeId)
    (i : Item) : Prop where
  symbol : ∃ c, i = .symbol c ∧ c.name = name
  free : ∃ inner outer, chain = inner ++ r :: outer ∧ ∀ q ∈ inner ++ [r], ¬ t.Holds q name

section Search

variable {t : ScopeTree} {name : String} {s : ScopeId} {chain : List ScopeId}
  {found : Option Address}

/-! ## One scope -/

theorem Item.isNamed_iff {i : Item} :
    i.isNamed name = true ↔ ∃ c, i = .symbol c ∧ c.name = name := by
  cases i <;> simp [isNamed]

-- The items of a scope are numbered without gaps.
theorem ScopeTree.index_lt_of_item? {a : Address} {x : Item} (h : t.item? a = some x) :
    a.index < (t.itemsAt a.scope).length := by
  rw [item?_eq] at h
  exact (List.getElem?_eq_some_iff.1 h).1

-- A named item of a scope, in terms of addresses.
theorem isNamed_getElem_iff {k : Nat} (hk : k < (t.itemsAt s).length) :
    (t.itemsAt s)[k].isNamed name = true ↔
      ∃ c, t.item? ⟨s, k⟩ = some (.symbol c) ∧ c.name = name := by
  have hitem : t.item? ⟨s, k⟩ = some (t.itemsAt s)[k] := by
    rw [ScopeTree.item?_eq]
    exact List.getElem?_eq_getElem hk
  simp only [Item.isNamed_iff, hitem, Option.some.injEq]

/-- The search in one scope finds its first symbol of the name. -/
theorem findLocal_eq_some_iff (hs : s < t.size) {a : Address} :
    t.findLocal s name = .ok (some a) ↔ a.scope = s ∧ IsFirst t name a := by
  rw [ScopeTree.findLocal_eq hs, Except.ok.injEq, Option.map_eq_some_iff]
  simp only [List.findIdx?_eq_some_iff_getElem]
  constructor
  · rintro ⟨k, ⟨hk, hnamed, hearlier⟩, rfl⟩
    refine ⟨rfl, (isNamed_getElem_iff hk).1 hnamed, fun j hj c hc hname => ?_⟩
    exact hearlier j hj ((isNamed_getElem_iff (Nat.lt_trans hj hk)).2 ⟨c, hc, hname⟩)
  · rintro ⟨rfl, ⟨c, hc, hname⟩, hearlier⟩
    have hk := ScopeTree.index_lt_of_item? hc
    refine ⟨a.index, ⟨hk, (isNamed_getElem_iff hk).2 ⟨c, hc, hname⟩, fun j hj hnamed => ?_⟩, rfl⟩
    rcases (isNamed_getElem_iff (Nat.lt_trans hj hk)).1 hnamed with ⟨d, hd, hdname⟩
    exact hearlier j hj d hd hdname

/-- The search in one scope finds nothing if the scope does not hold the name. -/
theorem findLocal_eq_none_iff (hs : s < t.size) :
    t.findLocal s name = .ok none ↔ ¬ t.Holds s name := by
  rw [findLocal_eq_none hs, List.findIdx?_eq_none_iff]
  constructor
  · rintro hnone ⟨k, c, hc, hname⟩
    rw [ScopeTree.item?_eq] at hc
    have hnamed := hnone _ (List.mem_of_getElem? hc)
    rw [Item.isNamed_iff.2 ⟨c, rfl, hname⟩] at hnamed
    cases hnamed
  · intro hlacks i hi
    rcases List.mem_iff_getElem.1 hi with ⟨k, hk, rfl⟩
    rw [← Bool.not_eq_true, isNamed_getElem_iff hk]
    exact fun ⟨c, hc, hname⟩ => hlacks ⟨k, c, hc, hname⟩

/-! ## Chains -/

theorem Chain.lt_size (h : Chain t s chain) : s < t.size := by
  cases h with
  | outermost hs _ => exact hs
  | inside hp _ => exact ScopeTree.lt_size_of_parentAt hp

/-- There is one way outwards. -/
theorem Chain.unique {other : List ScopeId} (h : Chain t s chain) (h' : Chain t s other) :
    chain = other := by
  induction h generalizing other with
  | outermost _ hnone =>
      cases h' with
      | outermost _ _ => rfl
      | inside hp _ =>
          rw [hnone] at hp
          cases hp
  | inside hp _ ih =>
      cases h' with
      | outermost _ hnone =>
          rw [hp] at hnone
          cases hnone
      | inside hp' hrest =>
          rw [hp, Option.some.injEq] at hp'
          subst hp'
          rw [ih hrest]

/-- Where all parents are older, there is a chain from every scope. -/
theorem exists_chain (hparents : ∀ s p : Nat, t.parentAt s = some p → p < s) (hs : s < t.size) :
    ∃ chain, Chain t s chain := by
  induction s using Nat.strongRecOn with
  | ind s ih =>
      cases hparent : t.parentAt s with
      | none => exact ⟨[s], .outermost hs hparent⟩
      | some p =>
          have hlt := hparents s p hparent
          rcases ih p hlt (Nat.lt_trans hlt hs) with ⟨chain, hchain⟩
          exact ⟨s :: chain, .inside hparent hchain⟩

-- A search comes to a scope, and goes on if there is nothing.
theorem finds_iff_step (hs : s < t.size) : Finds t name s found ↔
    (∃ a, found = some a ∧ a.scope = s ∧ IsFirst t name a) ∨
      ¬ t.Holds s name ∧ (t.parentAt s = none ∧ found = none ∨
        ∃ p, t.parentAt s = some p ∧ Finds t name p found) := by
  have hparent := ScopeTree.parent?_eq hs
  constructor
  · intro h
    cases h with
    | here hlocal => exact Or.inl ⟨_, rfl, (findLocal_eq_some_iff hs).1 hlocal⟩
    | nowhere hlocal hnone =>
        rw [hparent, Except.ok.injEq] at hnone
        exact Or.inr ⟨(findLocal_eq_none_iff hs).1 hlocal, Or.inl ⟨hnone, rfl⟩⟩
    | outer hlocal hsome hrest =>
        rw [hparent, Except.ok.injEq] at hsome
        exact Or.inr ⟨(findLocal_eq_none_iff hs).1 hlocal, Or.inr ⟨_, hsome, hrest⟩⟩
  · rintro (⟨a, rfl, ha⟩ | ⟨hlacks, ⟨hnone, rfl⟩ | ⟨p, hp, hrest⟩⟩)
    · exact .here ((findLocal_eq_some_iff hs).2 ha)
    · exact .nowhere ((findLocal_eq_none_iff hs).2 hlacks) (hparent.trans (congrArg _ hnone))
    · exact .outer ((findLocal_eq_none_iff hs).2 hlacks) (hparent.trans (congrArg _ hp)) hrest

theorem nearest_nil_iff : Nearest t name [] found ↔ found = none := by
  constructor
  · intro h
    cases h with
    | found hsplit _ _ => simp at hsplit
    | nowhere _ => rfl
  · rintro rfl
    exact .nowhere (List.forall_mem_nil _)

-- The same two cases, for a chain.
theorem nearest_cons_iff : Nearest t name (s :: chain) found ↔
    (∃ a, found = some a ∧ a.scope = s ∧ IsFirst t name a) ∨
      ¬ t.Holds s name ∧ Nearest t name chain found := by
  constructor
  · intro h
    cases h with
    | @found inner outer a hsplit hlack hfirst =>
        rcases List.cons_eq_append_iff.1 hsplit with ⟨-, hcons⟩ | ⟨inner', rfl, hrest⟩
        · cases hcons
          exact Or.inl ⟨a, rfl, rfl, hfirst⟩
        · rw [List.forall_mem_cons] at hlack
          exact Or.inr ⟨hlack.1, .found hrest hlack.2 hfirst⟩
    | nowhere hlack =>
        rw [List.forall_mem_cons] at hlack
        exact Or.inr ⟨hlack.1, .nowhere hlack.2⟩
  · rintro (⟨a, rfl, rfl, hfirst⟩ | ⟨hlacks, h⟩)
    · exact .found (List.nil_append _).symm (List.forall_mem_nil _) hfirst
    · cases h with
      | found hsplit hlack hfirst =>
          subst hsplit
          exact .found (List.cons_append ..).symm (List.forall_mem_cons.2 ⟨hlacks, hlack⟩) hfirst
      | nowhere hlack => exact .nowhere (List.forall_mem_cons.2 ⟨hlacks, hlack⟩)

/-- The search for a name finds what the name stands for along the chain. -/
theorem finds_iff_nearest (h : Chain t s chain) :
    Finds t name s found ↔ Nearest t name chain found := by
  induction h with
  | outermost hs hnone =>
      rw [finds_iff_step hs, nearest_cons_iff, nearest_nil_iff]
      simp [hnone]
  | inside hp hrest ih =>
      rw [finds_iff_step (ScopeTree.lt_size_of_parentAt hp), nearest_cons_iff, ← ih]
      simp [hp]

end Search

/-! ## Growth -/

namespace ScopeTree

variable {t : ScopeTree} {r : ScopeId} {i : Item}

/-- A new scope comes without items. -/
theorem item?_adopt (t : ScopeTree) (p : ScopeId) (header : Option LoopHeader) (a : Address) :
    (t.adopt p header).item? a = t.item? a := by
  have hitems : (t.adopt p header).itemsAt a.scope = t.itemsAt a.scope := by
    unfold adopt
    refine (itemsAt_modify _ p a.scope _ ?_).trans ?_
    · exact fun _ => rfl
    · exact view_grown t a.scope itemsOf rfl
  rw [item?_eq, item?_eq, hitems]

theorem holds_adopt (p : ScopeId) (header : Option LoopHeader) (s : ScopeId) (name : String) :
    (t.adopt p header).Holds s name ↔ t.Holds s name := by
  simp only [Holds, item?_adopt]

/-- An append gives a scope the name of the new symbol. -/
theorem holds_push (hr : r < t.size) (s : ScopeId) (name : String) :
    (t.push r i).Holds s name ↔
      t.Holds s name ∨ s = r ∧ ∃ c, i = .symbol c ∧ c.name = name := by
  unfold Holds
  simp only [item?_push i hr, Address.mk.injEq]
  constructor
  · rintro ⟨k, c, hc | ⟨⟨hs, -⟩, hi⟩, hname⟩
    · exact Or.inl ⟨k, c, hc, hname⟩
    · exact Or.inr ⟨hs, c, hi.symm, hname⟩
  · rintro (⟨k, c, hc, hname⟩ | ⟨hs, c, hi, hname⟩)
    · exact ⟨k, c, Or.inl hc, hname⟩
    · exact ⟨_, c, Or.inr ⟨⟨hs, rfl⟩, hi.symm⟩, hname⟩

end ScopeTree

section Growth

variable {t u : ScopeTree} {name : String} {s r p : ScopeId} {chain : List ScopeId} {i : Item}
  {a : Address} {found : Option Address} {header : Option LoopHeader}

theorem Chain.push (h : Chain t s chain) (r : ScopeId) (i : Item) : Chain (t.push r i) s chain := by
  induction h with
  | outermost hs hnone =>
      refine .outermost ?_ ?_
      · rwa [ScopeTree.size_push]
      · rwa [ScopeTree.parentAt_push]
  | inside hp _ ih =>
      refine .inside ?_ ih
      rwa [ScopeTree.parentAt_push]

/-- A chain does not lead to a scope that comes later. -/
theorem Chain.adopt (h : Chain t s chain) (p : ScopeId) (header : Option LoopHeader) :
    Chain (t.adopt p header) s chain := by
  have hold : ∀ {s : ScopeId}, s < t.size → (t.adopt p header).parentAt s = t.parentAt s := by
    intro s hs
    rw [ScopeTree.parentAt_adopt, if_neg (Nat.ne_of_lt hs)]
  induction h with
  | outermost hs hnone =>
      refine .outermost ?_ ((hold hs).trans hnone)
      rw [ScopeTree.size_adopt]
      exact Nat.lt_succ_of_lt hs
  | inside hp _ ih =>
      exact .inside ((hold (ScopeTree.lt_size_of_parentAt hp)).trans hp) ih

-- What comes to the end of a scope does not come first.
theorem IsFirst.push (h : IsFirst t name a) (hr : r < t.size) (i : Item) :
    IsFirst (t.push r i) name a where
  symbol := by
    rcases h.symbol with ⟨c, hc, hname⟩
    exact ⟨c, (ScopeTree.item?_push i hr a _).2 (Or.inl hc), hname⟩
  earlier := by
    intro k hk c hc
    rcases (ScopeTree.item?_push i hr _ _).1 hc with hc | ⟨hnew, -⟩
    · exact h.earlier k hk c hc
    · rcases h.symbol with ⟨d, hd, -⟩
      have hlt := ScopeTree.index_lt_of_item? hd
      simp only [Address.mk.injEq] at hnew
      rw [hnew.1] at hlt
      omega

/-- A symbol comes first in a scope that has not held its name. -/
theorem isFirst_push (hr : r < t.size) (hi : ∃ c, i = .symbol c ∧ c.name = name)
    (hlacks : ¬ t.Holds r name) :
    IsFirst (t.push r i) name ⟨r, (t.itemsAt r).length⟩ where
  symbol := by
    rcases hi with ⟨c, rfl, hname⟩
    exact ⟨c, (ScopeTree.item?_push _ hr _ _).2 (Or.inr ⟨rfl, rfl⟩), hname⟩
  earlier := by
    intro k hk c hc hname
    rcases (ScopeTree.item?_push i hr _ _).1 hc with hc | ⟨hnew, -⟩
    · exact hlacks ⟨k, c, hc, hname⟩
    · simp only [Address.mk.injEq, true_and] at hnew
      dsimp only at hk
      omega

/-- Nothing is captured later that could not have been captured before. -/
theorem Captures.of_holds (h : Captures u name chain r i)
    (hholds : ∀ q, t.Holds q name → u.Holds q name) : Captures t name chain r i := by
  rcases h.free with ⟨inner, outer, hchain, hfree⟩
  exact ⟨h.symbol, inner, outer, hchain, fun q hq hq' => hfree q hq (hholds q hq')⟩

-- A scope up to which the name is not held does not come to hold it.
theorem not_holds_push {inner outer : List ScopeId} (hr : r < t.size)
    (hchain : chain = inner ++ outer) (hlack : ∀ q ∈ inner, ¬ t.Holds q name)
    (hcaptures : ¬ Captures t name chain r i) : ∀ q ∈ inner, ¬ (t.push r i).Holds q name := by
  intro q hq hholds
  rcases (ScopeTree.holds_push hr q name).1 hholds with hholds | ⟨rfl, hi⟩
  · exact hlack q hq hholds
  · rcases List.append_of_mem hq with ⟨front, back, rfl⟩
    refine hcaptures ⟨hi, front, back ++ outer, ?_, fun p hp => hlack p ?_⟩
    · rw [hchain, List.append_assoc, List.cons_append]
    · simp only [List.mem_append, List.mem_cons, List.not_mem_nil, or_false] at hp ⊢
      exact hp.imp_right Or.inl

theorem Nearest.push (h : Nearest t name chain found) (hr : r < t.size)
    (hcaptures : ¬ Captures t name chain r i) : Nearest (t.push r i) name chain found := by
  cases h with
  | found hchain hlack hfirst =>
      exact .found hchain (not_holds_push hr hchain hlack hcaptures) (hfirst.push hr i)
  | nowhere hlack =>
      exact .nowhere (not_holds_push hr (List.append_nil _).symm hlack hcaptures)

theorem Nearest.adopt (h : Nearest t name chain found) (p : ScopeId)
    (header : Option LoopHeader) : Nearest (t.adopt p header) name chain found := by
  cases h with
  | found hchain hlack hfirst =>
      refine .found hchain (fun q hq => ?_) ⟨?_, ?_⟩
      · rw [ScopeTree.holds_adopt]
        exact hlack q hq
      · simpa only [ScopeTree.item?_adopt] using hfirst.symbol
      · simpa only [ScopeTree.item?_adopt] using hfirst.earlier
  | nowhere hlack =>
      refine .nowhere fun q hq => ?_
      rw [ScopeTree.holds_adopt]
      exact hlack q hq

/-- A name that is captured stands for the new symbol. -/
theorem Captures.nearest (h : Captures t name chain r i) (hr : r < t.size) :
    Nearest (t.push r i) name chain (some ⟨r, (t.itemsAt r).length⟩) := by
  rcases h.free with ⟨inner, outer, hchain, hfree⟩
  -- The scope may come up in front already; the first time counts.
  rcases List.eq_append_cons_of_mem (List.mem_append_right inner (List.mem_singleton_self r)) with
    ⟨front, back, hsplit, hnot⟩
  have hchain' : chain = front ++ r :: (back ++ outer) := by
    rw [hchain, List.append_cons, hsplit, List.append_assoc, List.cons_append]
  refine .found hchain' (fun q hq hholds => ?_) (isFirst_push hr h.symbol (hfree r (by simp)))
  rcases (ScopeTree.holds_push hr q name).1 hholds with hholds | ⟨rfl, -⟩
  · exact hfree q (hsplit ▸ List.mem_append_left _ hq) hholds
  · exact hnot hq

end Growth

/-! ## Look-up in a growing tree -/

/-- An item is appended to a scope that exists, and gets the next address there. -/
theorem ScopeTree.add_eq_ok_iff {t u : ScopeTree} {s : ScopeId} {i : Item} {a : Address} :
    t.add s i = .ok (a, u) ↔ s < t.size ∧ a = ⟨s, (t.itemsAt s).length⟩ ∧ u = t.push s i := by
  constructor
  · intro h
    have hs : s < t.size := by
      unfold ScopeTree.add at h
      rcases exists_of_bind_eq_ok h with ⟨scope, hscope, -⟩
      exact (Array.getElem?_eq_some_iff.1 (scopes_of_orFault (congrArg orFault hscope))).1
    rw [ScopeTree.add_eq i hs, Except.ok.injEq, Prod.mk.injEq] at h
    exact ⟨hs, h.1.symm, h.2.symm⟩
  · rintro ⟨hs, rfl, rfl⟩
    exact ScopeTree.add_eq i hs

/-- What a call does to a tree, and when. -/
theorem Growth.perform_eq_ok {t u : ScopeTree} {c : Growth} (h : c.perform t = .ok u) :
    (∃ r i, c = .add r i ∧ r < t.size ∧ u = t.push r i) ∨
    (∃ p header, c = .addChild p header ∧ p ≤ t.size ∧ u = t.adopt p header) ∨
    (∃ p header, c = .openLoop p header ∧ p ≤ t.size ∧
      u = (t.adopt p (some header)).push p (.loop t.size)) := by
  cases c with
  | add r i =>
      rcases exists_of_bind_eq_ok h with ⟨⟨a, v⟩, hadd, hv⟩
      cases hv
      rcases ScopeTree.add_eq_ok_iff.1 hadd with ⟨hr, -, hu⟩
      exact Or.inl ⟨r, i, rfl, hr, hu⟩
  | addChild p header =>
      rcases exists_of_bind_eq_ok h with ⟨⟨id, v⟩, hchild, hv⟩
      cases hv
      rcases ScopeTree.addChild_eq_ok.1 hchild with ⟨hp, -, hu⟩
      exact Or.inr (Or.inl ⟨p, header, rfl, hp, hu⟩)
  | openLoop p header =>
      rcases exists_of_bind_eq_ok h with ⟨⟨id, v⟩, hopen, hv⟩
      cases hv
      unfold ScopeTree.openLoop at hopen
      rcases exists_of_bind_eq_ok hopen with ⟨⟨id', w⟩, hchild, hrest⟩
      rcases exists_of_bind_eq_ok hrest with ⟨⟨a, x⟩, hadd, hx⟩
      cases hx
      rcases ScopeTree.addChild_eq_ok.1 hchild with ⟨hp, rfl, rfl⟩
      exact Or.inr (Or.inr ⟨p, header, rfl, hp, ScopeTree.add_eq_ok hadd⟩)

-- The parent of a new scope is part of the grown table.
theorem ScopeTree.lt_size_adopt {t : ScopeTree} {p : ScopeId} (header : Option LoopHeader)
    (hp : p ≤ t.size) : p < (t.adopt p header).size := by
  rw [ScopeTree.size_adopt]
  exact Nat.lt_succ_of_le hp

/-- A scope keeps the names that it holds. -/
theorem Growth.holds {t u : ScopeTree} {c : Growth} (h : c.perform t = .ok u) {s : ScopeId}
    {name : String} (hholds : t.Holds s name) : u.Holds s name := by
  rcases c.perform_eq_ok h with
    ⟨r, i, -, hr, rfl⟩ | ⟨p, header, -, -, rfl⟩ | ⟨p, header, -, hp, rfl⟩
  · exact (ScopeTree.holds_push hr s name).2 (Or.inl hholds)
  · exact (ScopeTree.holds_adopt p header s name).2 hholds
  · refine (ScopeTree.holds_push (ScopeTree.lt_size_adopt _ hp) s name).2 (Or.inl ?_)
    exact (ScopeTree.holds_adopt p _ s name).2 hholds

/-- From the scope `s` a name is looked up along a chain, and stands for what is
    found there. -/
structure Resolves (t : ScopeTree) (s : ScopeId) (chain : List ScopeId) (name : String)
    (found : Option Address) : Prop where
  outwards : Chain t s chain
  notYounger : ∀ s p : Nat, t.parentAt s = some p → p ≤ s
  nearest : Nearest t name chain found

namespace Resolves

variable {t u : ScopeTree} {name : String} {s r p : ScopeId} {chain : List ScopeId} {i : Item}
  {found : Option Address}

theorem find (h : Resolves t s chain name found) : t.find s name = .ok found :=
  (find_eq_ok_iff h.outwards.lt_size h.notYounger).2
    ((finds_iff_nearest h.outwards).2 h.nearest)

/-- A name that is not captured keeps its meaning. -/
theorem push (h : Resolves t s chain name found) (hr : r < t.size)
    (hcaptures : ¬ Captures t name chain r i) : Resolves (t.push r i) s chain name found where
  outwards := h.outwards.push r i
  notYounger q p hp := h.notYounger q p (by rwa [ScopeTree.parentAt_push] at hp)
  nearest := h.nearest.push hr hcaptures

/-- A name that is captured stands for the new symbol. -/
theorem captured (h : Resolves t s chain name found) (hr : r < t.size)
    (hcaptures : Captures t name chain r i) :
    Resolves (t.push r i) s chain name (some ⟨r, (t.itemsAt r).length⟩) where
  outwards := h.outwards.push r i
  notYounger q p hp := h.notYounger q p (by rwa [ScopeTree.parentAt_push] at hp)
  nearest := hcaptures.nearest hr

/-- A new scope changes the meaning of no name, whatever it is nested in. -/
theorem adopt (h : Resolves t s chain name found) (hp : p ≤ t.size)
    (header : Option LoopHeader) : Resolves (t.adopt p header) s chain name found where
  outwards := h.outwards.adopt p header
  notYounger := by
    intro q o ho
    rw [ScopeTree.parentAt_adopt] at ho
    split at ho
    · subst q
      cases ho
      exact hp
    · exact h.notYounger q o ho
  nearest := h.nearest.adopt p header

/-- An append changes the meaning of a name if it captures it, and only then. -/
theorem find_push_ne_iff (h : Resolves t s chain name found) (hr : r < t.size) :
    (t.push r i).find s name ≠ t.find s name ↔ Captures t name chain r i := by
  by_cases hcaptures : Captures t name chain r i
  · refine iff_of_true (fun heq => ?_) hcaptures
    -- The address of the new symbol was not in use before.
    rw [(h.captured hr hcaptures).find, h.find, Except.ok.injEq] at heq
    subst heq
    cases h.nearest with
    | found _ _ hfirst =>
        rcases hfirst.symbol with ⟨c, hc, -⟩
        exact Nat.lt_irrefl _ (ScopeTree.index_lt_of_item? hc)
  · refine iff_of_false (fun hne => hne ?_) hcaptures
    rw [(h.push hr hcaptures).find, h.find]

/-- What a call keeps: a name that is not captured keeps its meaning. -/
theorem perform (h : Resolves t s chain name found) {c : Growth} (hc : c.perform t = .ok u)
    (hcaptures : ∀ r i, c = .add r i → ¬ Captures t name chain r i) :
    Resolves u s chain name found := by
  rcases c.perform_eq_ok hc with ⟨r, i, hadd, hr, rfl⟩ | ⟨p, header, -, hp, rfl⟩ |
    ⟨p, header, -, hp, rfl⟩
  · exact h.push hr (hcaptures r i hadd)
  · exact h.adopt hp header
  · refine (h.adopt hp (some header)).push (ScopeTree.lt_size_adopt _ hp) fun hmarker => ?_
    -- The marker of a loop has no name.
    rcases hmarker.symbol with ⟨c, hloop, -⟩
    cases hloop

/-- What calls in a row keep. It is enough that none of them would capture the name
    in the tree that they start with, since scopes do not lose names. -/
theorem performAll (h : Resolves t s chain name found) {calls : List Growth}
    (hcalls : calls.foldlM Growth.perform t = .ok u)
    (hcaptures : ∀ r i, .add r i ∈ calls → ¬ Captures t name chain r i) :
    Resolves u s chain name found := by
  induction calls generalizing t with
  | nil =>
      cases hcalls
      exact h
  | cons c rest ih =>
      rw [List.foldlM_cons] at hcalls
      rcases exists_of_bind_eq_ok hcalls with ⟨next, hnext, hrest⟩
      have hkept : Resolves next s chain name found :=
        h.perform hnext fun r i hc => hcaptures r i (hc ▸ List.mem_cons_self)
      refine ih hkept hrest fun r i hmem hlater => ?_
      exact hcaptures r i (List.mem_cons_of_mem c hmem)
        (hlater.of_holds fun q => Growth.holds hnext)

end Resolves

/-- **Look-up is lexical.** In a tree whose parents are all older than their scopes,
    looking a name up from a scope that exists does not break down, and it gives what
    the name stands for along the chain of scopes outwards. An append changes the
    answer exactly if it captures the name, and then the answer is the address of what
    has been appended; a new scope does not change it; and calls in a row change it
    only if one of them appends a symbol that captures the name. -/
theorem find_lexical {t : ScopeTree} (hparents : ∀ s p : Nat, t.parentAt s = some p → p < s)
    {s : ScopeId} (hs : s < t.size) :
    ∃ chain, (∀ other, Chain t s other ↔ other = chain) ∧ ∀ name,
      (∃ found, t.find s name = .ok found) ∧
      (∀ found, t.find s name = .ok found ↔ Nearest t name chain found) ∧
      (∀ r i a u, t.add r i = .ok (a, u) →
        (u.find s name ≠ t.find s name ↔ Captures t name chain r i) ∧
        (Captures t name chain r i → u.find s name = .ok (some a))) ∧
      (∀ p header id u, t.addChild p header = .ok (id, u) → u.find s name = t.find s name) ∧
      (∀ (calls : List Growth) u, calls.foldlM Growth.perform t = .ok u →
        u.find s name ≠ t.find s name → ∃ r i, .add r i ∈ calls ∧ Captures t name chain r i) := by
  rcases exists_chain hparents hs with ⟨chain, hchain⟩
  have hle : ∀ s p : Nat, t.parentAt s = some p → p ≤ s := fun s p hp =>
    Nat.le_of_lt (hparents s p hp)
  have hunique : ∀ other, Chain t s other ↔ other = chain := fun other =>
    ⟨fun hother => hother.unique hchain, fun heq => heq ▸ hchain⟩
  refine ⟨chain, hunique, fun name => ?_⟩
  have hmeaning : ∀ found, t.find s name = .ok found ↔ Nearest t name chain found := fun found =>
    (find_eq_ok_iff hs hle).trans (finds_iff_nearest hchain)
  rcases exists_find_of_older hparents hs name with ⟨found, hfound⟩
  have hresolves : Resolves t s chain name found := ⟨hchain, hle, (hmeaning found).1 hfound⟩
  refine ⟨⟨found, hfound⟩, hmeaning, fun r i a u hadd => ?_, fun p header id u hchild => ?_,
    fun calls u hcalls hne => ?_⟩
  · rcases ScopeTree.add_eq_ok_iff.1 hadd with ⟨hr, rfl, rfl⟩
    exact ⟨hresolves.find_push_ne_iff hr, fun hcaptures => (hresolves.captured hr hcaptures).find⟩
  · rcases ScopeTree.addChild_eq_ok.1 hchild with ⟨hp, -, rfl⟩
    rw [(hresolves.adopt hp header).find, hfound]
  · by_contra hnone
    refine hne ?_
    have hkept := hresolves.performAll hcalls fun r i hmem hcaptures =>
      hnone ⟨r, i, hmem, hcaptures⟩
    rw [hkept.find, hfound]

/-- A name is declared at the root, which has two scopes inside. One of them has
    another one inside. -/
def nestedScopes : List Growth :=
  [.add 0 (.symbol ⟨.const, "n", 1⟩), .addChild 0 none, .addChild 1 none, .addChild 0 none]

/-- The tree that comes of it. -/
def nestedTree : ScopeTree :=
  ⟨#[⟨none, #[1, 3], #[.symbol ⟨.const, "n", 1⟩], none⟩, ⟨some 0, #[2], #[], none⟩,
    .fresh (some 1) none, .fresh (some 0) none]⟩

/-- From the innermost scope the name stands for what the root declares. A symbol of
    that name takes it over in the scope around, but not in the scope beside. -/
theorem find_lexical_nestedTree :
    grow nestedScopes = .ok nestedTree ∧
      (∀ s p : Nat, nestedTree.parentAt s = some p → p < s) ∧ 2 < nestedTree.size ∧
      Chain nestedTree 2 [2, 1, 0] ∧ nestedTree.find 2 "n" = .ok (some ⟨0, 0⟩) ∧
      (∃ u, nestedTree.add 1 (.symbol ⟨.var, "n", 5⟩) = .ok (⟨1, 0⟩, u) ∧
        u.find 2 "n" = .ok (some ⟨1, 0⟩)) ∧
      (∃ u, nestedTree.add 3 (.symbol ⟨.var, "n", 5⟩) = .ok (⟨3, 0⟩, u) ∧
        u.find 2 "n" = .ok (some ⟨0, 0⟩)) := by
  have hparents : ∀ s p : Nat, nestedTree.parentAt s = some p → p < s := by
    rintro (_ | _ | _ | _ | s) p hp
    all_goals cases hp
    all_goals decide
  have hsize : 2 < nestedTree.size := by decide
  have hchain : Chain nestedTree 2 [2, 1, 0] :=
    .inside rfl (.inside rfl (.outermost (by decide) rfl))
  rcases find_lexical hparents hsize with ⟨chain, hunique, hname⟩
  obtain rfl : [2, 1, 0] = chain := (hunique [2, 1, 0]).1 hchain
  rcases hname "n" with ⟨-, -, hadd, -, -⟩
  have hroot : nestedTree.find 2 "n" = .ok (some ⟨0, 0⟩) := by decide +kernel
  have hfree : ∀ q ∈ [2] ++ [1], ¬ nestedTree.Holds q "n" := by
    rintro q hq ⟨k, c, hc, -⟩
    simp only [List.cons_append, List.nil_append, List.mem_cons, List.not_mem_nil, or_false] at hq
    rcases hq with rfl | rfl
    all_goals cases hc
  refine ⟨rfl, hparents, hsize, hchain, hroot, ?_, ?_⟩
  · have haround := ScopeTree.add_eq (.symbol ⟨.var, "n", 5⟩) (show 1 < nestedTree.size by decide)
    exact ⟨_, haround, (hadd 1 _ _ _ haround).2 ⟨⟨_, rfl, rfl⟩, [2], [0], rfl, hfree⟩⟩
  · have hbeside : ¬ Captures nestedTree "n" [2, 1, 0] 3 (.symbol ⟨.var, "n", 5⟩) := by
      rintro ⟨-, inner, outer, hsplit, -⟩
      have hmem : 3 ∈ [2, 1, 0] := by
        rw [hsplit]
        exact List.mem_append_right inner List.mem_cons_self
      exact absurd hmem (by decide)
    have hadded := ScopeTree.add_eq (.symbol ⟨.var, "n", 5⟩) (show 3 < nestedTree.size by decide)
    have hsame := Decidable.not_not.1 (mt (hadd 3 _ _ _ hadded).1.1 hbeside)
    exact ⟨_, hadded, hsame.trans hroot⟩

end UnrollAsm
