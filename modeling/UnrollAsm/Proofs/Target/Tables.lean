import UnrollAsm.Proofs.Reading.Instructions
import UnrollAsm.Proofs.Target.Mnemonics

/-!
# Mnemonic Tables

A mnemonic table takes whatever it is told to insert, unless that repeats something.
So it holds the pairs that have been accepted, in the order in which they came, and
since neither column repeats anything it can be read from both sides.

The pairs are all that a table has to keep. In practice they are kept twice, in the
order of the mnemonics and in a two-way map that leads from either column to the other
and knows no order. Every insertion has to go to both, and a refused insertion to
neither. If the map does what such maps do, a table of this kind gives the same answers
as the list of pairs.

What all this is for is the choice of a cache: the position of a mnemonic under its
heading is the position of its machine id in the table.

## Main definitions

* `TwoWay`, `TwoWay.Lawful`: Two-way maps, and what they do.
* `IndexedTable`: A table kept as an order and a two-way map.
* `MnemonicTable.afterAll`, `IndexedTable.afterAll`: Tables after several insertions.
* `MnemonicTable.Holds`: The table is a bijection with certain pairs.
* `IndexedTable.Stores`: Both kinds of table give the same answers.
* `Target.Selects`: The cache that goes with a mnemonic.

## Theorems

* `MnemonicTable.after_cases`: What an insertion does.
* `MnemonicTable.Bijective.afterAll`, `MnemonicTable.entries_afterAll`: What several do.
* `IndexedTable.InStep.after`: Every insertion goes to both parts, or to neither.
* `Target.selects_of_resolve?`: Positions under a heading select caches.
* `tables_bijective`: Mnemonic tables stay bijective, in order and in step.
-/

namespace UnrollAsm

/-! ## Two kinds of tables -/

/-- A two-way map between mnemonics and machine ids, and what can be done with it. -/
structure TwoWay (M : Type) where
  empty : M
  /-- Inserts a pair, or gives it back. -/
  insert : M → String → Nat → Except (String × Nat) Unit × M
  machineId? : M → String → Option Nat
  mnemonic? : M → Nat → Option String

/-- A pair is inserted only if neither of its sides is there, and is then found from
    both. -/
structure TwoWay.Lawful {M : Type} (B : TwoWay M) : Prop where
  machineId?_empty : ∀ mnemonic, B.machineId? B.empty mnemonic = none
  mnemonic?_empty : ∀ id, B.mnemonic? B.empty id = none
  refuses : ∀ m mnemonic id, B.machineId? m mnemonic ≠ none ∨ B.mnemonic? m id ≠ none →
    B.insert m mnemonic id = (.error (mnemonic, id), m)
  accepts : ∀ m mnemonic id, B.machineId? m mnemonic = none → B.mnemonic? m id = none →
    ∃ m', B.insert m mnemonic id = (.ok (), m') ∧
      (∀ x, B.machineId? m' x = if x = mnemonic then some id else B.machineId? m x) ∧
      ∀ n, B.mnemonic? m' n = if n = id then some mnemonic else B.mnemonic? m n

/-- A mnemonic table that keeps the order of its mnemonics beside a two-way map. -/
structure IndexedTable (M : Type) where
  cls : InstructionClass
  order : List String
  pairs : M

namespace IndexedTable

variable {M : Type} (B : TwoWay M)

/-- The table of a class before anything is inserted. -/
def empty (cls : InstructionClass) : IndexedTable M :=
  ⟨cls, [], B.empty⟩

/-- Inserts a pair into the map, and then the mnemonic into the order unless the map has
    given the pair back. -/
def insert (x : IndexedTable M) (mnemonic : String) (id : Nat) :
    Except ConfigCause Unit × IndexedTable M :=
  match B.insert x.pairs mnemonic id with
  | (.ok (), pairs) => (.ok (), { x with order := x.order ++ [mnemonic], pairs := pairs })
  | (.error (mnemonic, id), pairs) =>
    (.error (.duplicate mnemonic id x.cls), { x with pairs := pairs })

/-- The pairs, in the order of their mnemonics. -/
def entries (x : IndexedTable M) : List (String × Nat) :=
  x.order.filterMap fun mnemonic => (B.machineId? x.pairs mnemonic).map (mnemonic, ·)

/-- The position of the first mnemonic with a machine id. -/
def position? (x : IndexedTable M) (id : Nat) : Option Nat :=
  x.order.findIdx? fun mnemonic => B.machineId? x.pairs mnemonic = some id

/-- The table after several insertions. -/
def afterAll (x : IndexedTable M) (calls : List (String × Nat)) : IndexedTable M :=
  calls.foldl (fun x call => (x.insert B call.1 call.2).2) x

/-- The table answers like the other, and a refused insertion does not change it. -/
structure Stores (x : IndexedTable M) (t : MnemonicTable) : Prop where
  cls : x.cls = t.cls
  replies : ∀ mnemonic id, (x.insert B mnemonic id).1 = (t.insert mnemonic id).map fun _ => ()
  refused : ∀ mnemonic id cause, (x.insert B mnemonic id).1 = .error cause →
    (x.insert B mnemonic id).2 = x
  entries : x.entries B = t.entries
  size : x.order.length = t.size
  machineId : ∀ mnemonic, B.machineId? x.pairs mnemonic = t.machineId? mnemonic
  mnemonic : ∀ id, B.mnemonic? x.pairs id = t.mnemonic? id
  position : ∀ id, x.position? B id = t.position? id

end IndexedTable

namespace MnemonicTable

/-- The table after an insertion. A refusal does not change it. -/
def after (t : MnemonicTable) (call : String × Nat) : MnemonicTable :=
  match t.insert call.1 call.2 with
  | .ok next => next
  | .error _ => t

/-- The table after several insertions. -/
def afterAll (t : MnemonicTable) (calls : List (String × Nat)) : MnemonicTable :=
  calls.foldl after t

/-- The insertions that are accepted, in order. -/
def accepted (t : MnemonicTable) : List (String × Nat) → List (String × Nat)
  | [] => []
  | call :: rest =>
    match t.insert call.1 call.2 with
    | .ok next => call :: next.accepted rest
    | .error _ => t.accepted rest

/-- The table is a bijection, and consists of the pairs in their order. -/
structure Holds (t : MnemonicTable) (pairs : List (String × Nat)) : Prop where
  entries : t.entries = pairs
  size : t.size = pairs.length
  mnemonics : (pairs.map Prod.fst).Nodup
  ids : (pairs.map Prod.snd).Nodup
  refused : ∀ mnemonic id, (∃ cause, t.insert mnemonic id = .error cause) ↔
    mnemonic ∈ pairs.map Prod.fst ∨ id ∈ pairs.map Prod.snd
  machineId : ∀ mnemonic id, t.machineId? mnemonic = some id ↔ (mnemonic, id) ∈ pairs
  mnemonic : ∀ mnemonic id, t.mnemonic? id = some mnemonic ↔ (mnemonic, id) ∈ pairs
  position : ∀ (index : Nat) id, t.position? id = some index ↔
    ∃ mnemonic, pairs[index]? = some (mnemonic, id)
  unlisted : ∀ id, t.position? id = none ↔ ∀ mnemonic, (mnemonic, id) ∉ pairs

/-! ## Insertions -/

section Insert

variable {t : MnemonicTable} {mnemonic : String} {id : Nat}

theorem insert_of_new (hmnemonic : mnemonic ∉ t.entries.map Prod.fst)
    (hid : id ∉ t.entries.map Prod.snd) :
    t.insert mnemonic id = .ok ⟨t.cls, t.entries ++ [(mnemonic, id)]⟩ := by
  have hclash : ¬ t.clashes mnemonic id = true :=
    mt Target.clashes_iff.1 (not_or.2 ⟨hmnemonic, hid⟩)
  exact if_neg hclash

theorem insert_of_present (h : mnemonic ∈ t.entries.map Prod.fst ∨ id ∈ t.entries.map Prod.snd) :
    t.insert mnemonic id = .error (.duplicate mnemonic id t.cls) :=
  if_pos (Target.clashes_iff.2 h)

theorem exists_insert_error_iff : (∃ cause, t.insert mnemonic id = .error cause) ↔
    mnemonic ∈ t.entries.map Prod.fst ∨ id ∈ t.entries.map Prod.snd := by
  constructor
  · rintro ⟨cause, h⟩
    by_contra hnew
    rw [not_or] at hnew
    rw [insert_of_new hnew.1 hnew.2] at h
    cases h
  · exact fun h => ⟨_, insert_of_present h⟩

/-- What an insertion does: the pair is new and comes last, or the table stays as it
    is. -/
theorem after_cases (t : MnemonicTable) (call : String × Nat) :
    (call.1 ∉ t.entries.map Prod.fst ∧ call.2 ∉ t.entries.map Prod.snd ∧
      t.after call = ⟨t.cls, t.entries ++ [call]⟩ ∧
      ∀ rest, t.accepted (call :: rest) = call :: (t.after call).accepted rest) ∨
    ((call.1 ∈ t.entries.map Prod.fst ∨ call.2 ∈ t.entries.map Prod.snd) ∧ t.after call = t ∧
      ∀ rest, t.accepted (call :: rest) = t.accepted rest) := by
  by_cases h : call.1 ∈ t.entries.map Prod.fst ∨ call.2 ∈ t.entries.map Prod.snd
  · have hinsert := insert_of_present h
    exact Or.inr ⟨h, by rw [after, hinsert], fun rest => by rw [accepted, hinsert]⟩
  · rw [not_or] at h
    have hinsert := insert_of_new h.1 h.2
    refine Or.inl ⟨h.1, h.2, ?_, fun rest => ?_⟩
    · rw [after, hinsert]
    · rw [accepted, after, hinsert]

theorem Bijective.after (h : t.Bijective) (call : String × Nat) : (t.after call).Bijective := by
  rcases t.after_cases call with ⟨hmnemonic, hid, hafter, -⟩ | ⟨-, hafter, -⟩
  · rw [hafter]
    constructor
    · rw [List.map_append, List.map_singleton, ← List.concat_eq_append]
      exact h.mnemonics.concat hmnemonic
    · rw [List.map_append, List.map_singleton, ← List.concat_eq_append]
      exact h.ids.concat hid
  · rw [hafter]
    exact h

theorem Bijective.afterAll (h : t.Bijective) (calls : List (String × Nat)) :
    (t.afterAll calls).Bijective := by
  induction calls generalizing t with
  | nil => exact h
  | cons call rest ih => exact ih (h.after call)

/-- A table has the pairs that were accepted, behind those that it had. -/
theorem entries_afterAll (t : MnemonicTable) (calls : List (String × Nat)) :
    (t.afterAll calls).entries = t.entries ++ t.accepted calls := by
  induction calls generalizing t with
  | nil => exact (List.append_nil _).symm
  | cons call rest ih =>
      have hrest : (t.afterAll (call :: rest)).entries = _ := ih (t.after call)
      rcases t.after_cases call with ⟨-, -, hafter, haccepted⟩ | ⟨-, hafter, haccepted⟩
      · rw [hrest, haccepted, hafter, List.append_assoc, List.singleton_append]
      · rw [hrest, haccepted, hafter]

theorem Bijective.empty (cls : InstructionClass) : (empty cls).Bijective :=
  ⟨List.nodup_nil, List.nodup_nil⟩

end Insert

theorem Bijective.holds {t : MnemonicTable} (h : t.Bijective) : t.Holds t.entries where
  entries := rfl
  size := rfl
  mnemonics := h.mnemonics
  ids := h.ids
  refused _ _ := exists_insert_error_iff
  machineId _ _ := h.machineId?_iff
  mnemonic _ _ := h.mnemonic?_iff
  position _ _ := h.position?_iff
  unlisted _ := position?_eq_none_iff

end MnemonicTable

/-! ## Order and map -/

namespace IndexedTable

open MnemonicTable

variable {M : Type} {B : TwoWay M} {x : IndexedTable M} {t : MnemonicTable}

/-- The order and the map are those of the pairs of a table. -/
structure InStep (B : TwoWay M) (x : IndexedTable M) (t : MnemonicTable) : Prop where
  cls : x.cls = t.cls
  order : x.order = t.entries.map Prod.fst
  machineId : ∀ mnemonic, B.machineId? x.pairs mnemonic = t.machineId? mnemonic
  mnemonic : ∀ id, B.mnemonic? x.pairs id = t.mnemonic? id

namespace InStep

theorem empty (hB : B.Lawful) (cls : InstructionClass) :
    InStep B (IndexedTable.empty B cls) (MnemonicTable.empty cls) :=
  ⟨rfl, rfl, hB.machineId?_empty, hB.mnemonic?_empty⟩

theorem insert_new (hB : B.Lawful) (h : InStep B x t) {mnemonic : String} {id : Nat}
    (hmnemonic : mnemonic ∉ t.entries.map Prod.fst) (hid : id ∉ t.entries.map Prod.snd) :
    ∃ y, x.insert B mnemonic id = (.ok (), y) ∧
      InStep B y ⟨t.cls, t.entries ++ [(mnemonic, id)]⟩ := by
  rcases hB.accepts x.pairs mnemonic id ((h.machineId _).trans (machineId?_eq_none_iff.2 hmnemonic))
    ((h.mnemonic _).trans (mnemonic?_eq_none_iff.2 hid)) with ⟨pairs, hinsert, hids, hmnemonics⟩
  refine ⟨{ x with order := x.order ++ [mnemonic], pairs := pairs }, ?_, h.cls, ?_, fun y => ?_,
    fun n => ?_⟩
  · unfold IndexedTable.insert
    rw [hinsert]
  · rw [List.map_append, ← h.order]
    rfl
  · rw [hids, h.machineId, machineId?_snoc hmnemonic]
  · rw [hmnemonics, h.mnemonic, mnemonic?_snoc hid]

theorem insert_present (hB : B.Lawful) (h : InStep B x t) {mnemonic : String} {id : Nat}
    (hpresent : mnemonic ∈ t.entries.map Prod.fst ∨ id ∈ t.entries.map Prod.snd) :
    x.insert B mnemonic id = (.error (.duplicate mnemonic id t.cls), x) := by
  have hrefuses := hB.refuses x.pairs mnemonic id
  rw [h.machineId, h.mnemonic, ne_eq, ne_eq, machineId?_eq_none_iff, mnemonic?_eq_none_iff,
    not_not, not_not] at hrefuses
  unfold IndexedTable.insert
  rw [hrefuses hpresent, ← h.cls]

/-- Every insertion goes to both parts of a table, or to neither. -/
theorem after (hB : B.Lawful) (h : InStep B x t) (call : String × Nat) :
    InStep B (x.insert B call.1 call.2).2 (t.after call) := by
  rcases t.after_cases call with ⟨hmnemonic, hid, hafter, -⟩ | ⟨hpresent, hafter, -⟩
  · rcases h.insert_new hB hmnemonic hid with ⟨y, hinsert, hy⟩
    rw [hinsert, hafter]
    exact hy
  · rw [h.insert_present hB hpresent, hafter]
    exact h

theorem afterAll (hB : B.Lawful) (h : InStep B x t) (calls : List (String × Nat)) :
    InStep B (x.afterAll B calls) (t.afterAll calls) := by
  induction calls generalizing x t with
  | nil => exact h
  | cons call rest ih => exact ih (h.after hB call)

-- The map leads from each mnemonic of the order to its machine id.
theorem machineId?_of_mem (h : InStep B x t) (hbij : t.Bijective) {e : String × Nat}
    (he : e ∈ t.entries) : B.machineId? x.pairs e.1 = some e.2 :=
  (h.machineId e.1).trans (hbij.machineId?_iff.2 he)

-- Where two conditions agree, they first hold at the same position.
theorem findIdx?_congr {p q : String × Nat → Bool} {pairs : List (String × Nat)}
    (h : ∀ e ∈ pairs, p e = q e) : pairs.findIdx? p = pairs.findIdx? q := by
  induction pairs with
  | nil => rfl
  | cons e pairs ih =>
      rcases List.forall_mem_cons.1 h with ⟨he, hpairs⟩
      rw [List.findIdx?_cons, List.findIdx?_cons, he, ih hpairs]

/-- An order and a map that are in step answer like the table. -/
theorem stores (hB : B.Lawful) (h : InStep B x t) (hbij : t.Bijective) : x.Stores B t where
  cls := h.cls
  replies mnemonic id := by
    by_cases hpresent : mnemonic ∈ t.entries.map Prod.fst ∨ id ∈ t.entries.map Prod.snd
    · rw [h.insert_present hB hpresent, insert_of_present hpresent]
      rfl
    · rw [not_or] at hpresent
      rcases h.insert_new hB hpresent.1 hpresent.2 with ⟨y, hinsert, -⟩
      rw [hinsert, insert_of_new hpresent.1 hpresent.2]
      rfl
  refused mnemonic id cause herror := by
    by_cases hpresent : mnemonic ∈ t.entries.map Prod.fst ∨ id ∈ t.entries.map Prod.snd
    · rw [h.insert_present hB hpresent]
    · rw [not_or] at hpresent
      rcases h.insert_new hB hpresent.1 hpresent.2 with ⟨y, hinsert, -⟩
      rw [hinsert] at herror
      cases herror
  entries := by
    have hpair : ∀ e ∈ t.entries,
        (B.machineId? x.pairs e.1).map (e.1, ·) = some e := fun e he => by
      rw [h.machineId?_of_mem hbij he]
      rfl
    unfold IndexedTable.entries
    rw [h.order, List.filterMap_map]
    exact (List.filterMap_congr hpair).trans List.filterMap_some
  size := by
    rw [h.order, List.length_map]
    rfl
  machineId := h.machineId
  mnemonic := h.mnemonic
  position id := by
    unfold IndexedTable.position? MnemonicTable.position?
    rw [h.order, List.findIdx?_map]
    refine findIdx?_congr fun e he => ?_
    simp only [Function.comp_apply, h.machineId?_of_mem hbij he, Option.some.injEq]

end InStep

end IndexedTable

/-! ## Caches -/

namespace Target

/-- The position of a mnemonic under the heading of its class selects a cache. -/
structure Selects (t : Target) (s : Source) (mnemonic : String) (cls : InstructionClass)
    (id : Nat) : Prop where
  first : (s.entries cls.heading)[0]?.map Prod.fst = some mnemonic →
    t.cache cls id = .ok t.dic ∧ t.dic.name = "Dic"
  second : (s.entries cls.heading)[1]?.map Prod.fst = some mnemonic →
    t.cache cls id = .ok t.doc ∧ t.doc.name = "Doc"
  /-- There is no cache for any other position. -/
  otherwise : (s.entries cls.heading)[0]?.map Prod.fst ≠ some mnemonic →
    (s.entries cls.heading)[1]?.map Prod.fst ≠ some mnemonic →
    ∃ index : Nat, (s.entries cls.heading)[index]?.map Prod.fst = some mnemonic ∧
      t.cache cls id = .error (.noCache (index + 1) cls)

variable {s : Source} {t : Target} {cls : InstructionClass} {mnemonic : String} {id : Nat}

-- The mnemonics under a heading are those of the table.
theorem map_fst_entries (h : t.Reflects s) (cls : InstructionClass) :
    (s.entries cls.heading).map Prod.fst = (t.table cls).entries.map Prod.fst := by
  have hlists := (h.tables cls).imp fun given e hgiven => hgiven.1
  rw [← List.forall₂_eq_eq_eq, List.forall₂_map_left_iff, List.forall₂_map_right_iff]
  exact hlists

/-- The position of a mnemonic under its heading is that of its machine id in the
    table. -/
theorem selects_of_resolve? (ht : ofSource s = .ok t)
    (h : t.resolve? mnemonic = some (cls, id)) : t.Selects s mnemonic cls id := by
  have hreflects := ofSource_eq_ok.1 ht
  have hbij := bijective_of_ofSource ht cls
  rcases List.mem_iff_getElem?.1 (mem_entries_of_resolve? h) with ⟨index, hentry⟩
  have hcache := cache_of_position? (hbij.position?_iff.2 ⟨mnemonic, hentry⟩)
  have hcolumn : ∀ k : Nat, (s.entries cls.heading)[k]?.map Prod.fst =
      ((t.table cls).entries.map Prod.fst)[k]? := fun k => by
    rw [← List.getElem?_map, map_fst_entries hreflects]
  have hindex : ((t.table cls).entries.map Prod.fst)[index]? = some mnemonic := by
    rw [List.getElem?_map, hentry]
    rfl
  -- The mnemonic stands at one position only.
  have honly : ∀ k : Nat, ((t.table cls).entries.map Prod.fst)[k]? = some mnemonic → index = k :=
    fun k hk => (List.getElem?_inj (List.getElem?_eq_some_iff.1 hindex).1 hbij.mnemonics).1
      (hindex.trans hk.symm)
  refine ⟨fun h0 => ?_, fun h1 => ?_, fun h0 h1 => ⟨index, ?_, ?_⟩⟩
  · rw [hcolumn] at h0
    rw [hcache, honly 0 h0]
    exact ⟨rfl, hreflects.names.1⟩
  · rw [hcolumn] at h1
    rw [hcache, honly 1 h1]
    exact ⟨rfl, hreflects.names.2⟩
  · rw [hcolumn, hindex]
  · rw [hcolumn] at h0 h1
    have hbeyond : t.caches[index]? = none := by
      refine List.getElem?_eq_none ?_
      rcases index with _ | _ | index
      · exact absurd hindex h0
      · exact absurd hindex h1
      · exact Nat.le_add_left 2 index
    rw [hcache, hbeyond]

end Target

/-- **Mnemonic tables stay bijective, in order and in step.** Whatever is inserted, a
    table is a bijection and consists of what it has accepted; a table that keeps an
    order beside a two-way map answers likewise. So the position of a mnemonic under its
    heading decides on its cache. -/
theorem tables_bijective {M : Type} {B : TwoWay M} (hB : B.Lawful) (cls : InstructionClass)
    (calls : List (String × Nat)) :
    ((MnemonicTable.empty cls).afterAll calls).Holds
        ((MnemonicTable.empty cls).accepted calls) ∧
      ((IndexedTable.empty B cls).afterAll B calls).Stores B
        ((MnemonicTable.empty cls).afterAll calls) ∧
      ∀ s t, Target.ofSource s = .ok t → ∀ mnemonic cls id,
        t.resolve? mnemonic = some (cls, id) → t.Selects s mnemonic cls id := by
  have hbij := (MnemonicTable.Bijective.empty cls).afterAll calls
  have hstep := (IndexedTable.InStep.empty hB cls).afterAll hB calls
  have hentries := (MnemonicTable.empty cls).entries_afterAll calls
  refine ⟨?_, hstep.stores hB hbij, fun s t ht mnemonic cls id => Target.selects_of_resolve? ht⟩
  have hholds := hbij.holds
  rw [hentries] at hholds
  exact hholds

/-- A two-way map that is a list of pairs, the latest in front. -/
def TwoWay.ofPairs : TwoWay (List (String × Nat)) where
  empty := []
  insert m mnemonic id :=
    if mnemonic ∈ m.map Prod.fst ∨ id ∈ m.map Prod.snd then (.error (mnemonic, id), m)
    else (.ok (), (mnemonic, id) :: m)
  machineId? m mnemonic := (m.find? fun e => e.1 = mnemonic).map Prod.snd
  mnemonic? m id := (m.find? fun e => e.2 = id).map Prod.fst

theorem TwoWay.ofPairs_lawful : ofPairs.Lawful := by
  have hid : ∀ (m : List (String × Nat)) mnemonic,
      ofPairs.machineId? m mnemonic = none ↔ mnemonic ∉ m.map Prod.fst := fun m mnemonic =>
    Option.map_eq_none_iff.trans MnemonicTable.find?_column_eq_none
  have hmnemonic : ∀ (m : List (String × Nat)) id,
      ofPairs.mnemonic? m id = none ↔ id ∉ m.map Prod.snd := fun m id =>
    Option.map_eq_none_iff.trans MnemonicTable.find?_column_eq_none
  refine ⟨fun _ => rfl, fun _ => rfl, fun m mnemonic id h => ?_, fun m mnemonic id h h' => ?_⟩
  · rw [ne_eq, ne_eq, hid, hmnemonic, not_not, not_not] at h
    exact if_pos h
  · rw [hid] at h
    rw [hmnemonic] at h'
    refine ⟨(mnemonic, id) :: m, if_neg (not_or.2 ⟨h, h'⟩), fun x => ?_, fun n => ?_⟩
    · by_cases hx : x = mnemonic
      · simp [ofPairs, hx]
      · simp [ofPairs, hx, Ne.symm hx]
    · by_cases hn : n = id
      · simp [ofPairs, hn]
      · simp [ofPairs, hn, Ne.symm hn]

/-- Five insertions, of which one repeats a mnemonic and one a machine id. -/
def clashing : List (String × Nat) :=
  [("DIC", 7), ("DOC", 8), ("DIC", 9), ("XTR", 7), ("XTR", 9)]

theorem tables_bijective_clashing :
    TwoWay.ofPairs.Lawful ∧
      ((MnemonicTable.empty .threeOperand).afterAll clashing).Holds
        [("DIC", 7), ("DOC", 8), ("XTR", 9)] ∧
      ((IndexedTable.empty .ofPairs .threeOperand).afterAll .ofPairs clashing).Stores .ofPairs
        ((MnemonicTable.empty .threeOperand).afterAll clashing) := by
  have haccepted : (MnemonicTable.empty .threeOperand).accepted clashing =
      [("DIC", 7), ("DOC", 8), ("XTR", 9)] := by
    decide +kernel
  have htables := tables_bijective TwoWay.ofPairs_lawful .threeOperand clashing
  rw [haccepted] at htables
  exact ⟨TwoWay.ofPairs_lawful, htables.1, htables.2.1⟩

end UnrollAsm
