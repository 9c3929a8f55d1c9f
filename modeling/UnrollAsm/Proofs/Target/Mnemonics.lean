import Mathlib.Data.List.Nodup
import UnrollAsm.Proofs.Target.Validation

/-!
# Looking Mnemonics Up

A mnemonic table is a list of pairs, and it is read from either side: what is looked
up is the first pair with a given mnemonic, or with a given machine id. As long as
neither column repeats anything there is one such pair at most, so it does not matter
that it is the first, and a look-up is a statement about what is in the list. The
tables of an accepted target are of this kind.

## Main definitions

* `MnemonicTable.Bijective`: Neither column of a table repeats anything.

## Theorems

* `MnemonicTable.find?_column`: Pairs that are looked up by one of their columns.
* `MnemonicTable.Bijective.machineId?_iff`, `MnemonicTable.Bijective.mnemonic?_iff`,
  `MnemonicTable.Bijective.position?_iff`: What a look-up says.
* `Target.bijective_of_ofSource`: The tables of an accepted target.
* `Target.cache_of_position?`: The position of a machine id selects a cache.
-/

namespace UnrollAsm

namespace MnemonicTable

/-- Neither column of the table repeats anything. -/
structure Bijective (t : MnemonicTable) : Prop where
  mnemonics : (t.entries.map Prod.fst).Nodup
  ids : (t.entries.map Prod.snd).Nodup

section Questions

variable {t : MnemonicTable} {mnemonic : String} {id : Nat}

-- Pairs that are looked up by one of their columns.
section Column

variable {κ : Type} [DecidableEq κ] {column : String × Nat → κ} {pairs : List (String × Nat)}
  {k : κ} {e : String × Nat}

theorem find?_column (h : (pairs.map column).Nodup) :
    pairs.find? (fun e => column e = k) = some e ↔ e ∈ pairs ∧ column e = k := by
  constructor
  · intro hfind
    exact ⟨List.mem_of_find?_eq_some hfind, by simpa using List.find?_some hfind⟩
  · rintro ⟨hmem, rfl⟩
    cases hfind : pairs.find? fun e' => column e' = column e with
    | none => exact absurd (decide_eq_true rfl) (List.find?_eq_none.1 hfind e hmem)
    | some e' =>
        have hsame : column e' = column e := by simpa using List.find?_some hfind
        rw [List.inj_on_of_nodup_map h (List.mem_of_find?_eq_some hfind) hmem hsame]

theorem find?_column_eq_none :
    pairs.find? (fun e => column e = k) = none ↔ k ∉ pairs.map column := by
  rw [List.find?_eq_none]
  simp only [decide_eq_true_eq, List.mem_map, not_exists, not_and]

theorem find?_column_snoc (h : column e ∉ pairs.map column) :
    (pairs ++ [e]).find? (fun e' => column e' = k) =
      if k = column e then some e else pairs.find? fun e' => column e' = k := by
  rw [List.find?_append]
  by_cases hk : k = column e
  · rw [if_pos hk, hk, find?_column_eq_none.2 h, Option.none_or]
    exact List.find?_cons_of_pos (decide_eq_true rfl)
  · have hlast : [e].find? (fun e' => column e' = k) = none := by
      rw [find?_column_eq_none, List.map_singleton, List.mem_singleton]
      exact hk
    rw [if_neg hk, hlast, Option.or_none]

end Column

theorem Bijective.machineId?_iff (h : t.Bijective) :
    t.machineId? mnemonic = some id ↔ (mnemonic, id) ∈ t.entries := by
  unfold machineId?
  rw [Option.map_eq_some_iff]
  simp only [find?_column h.mnemonics]
  constructor
  · rintro ⟨e, ⟨hmem, rfl⟩, rfl⟩
    exact hmem
  · exact fun hmem => ⟨_, ⟨hmem, rfl⟩, rfl⟩

theorem Bijective.mnemonic?_iff (h : t.Bijective) :
    t.mnemonic? id = some mnemonic ↔ (mnemonic, id) ∈ t.entries := by
  unfold mnemonic?
  rw [Option.map_eq_some_iff]
  simp only [find?_column h.ids]
  constructor
  · rintro ⟨e, ⟨hmem, rfl⟩, rfl⟩
    exact hmem
  · exact fun hmem => ⟨_, ⟨hmem, rfl⟩, rfl⟩

theorem Bijective.position?_iff (h : t.Bijective) {index : Nat} :
    t.position? id = some index ↔ ∃ mnemonic, t.entries[index]? = some (mnemonic, id) := by
  unfold position?
  rw [List.findIdx?_eq_some_iff_getElem]
  constructor
  · rintro ⟨hlt, hid, -⟩
    refine ⟨t.entries[index].1, ?_⟩
    rw [List.getElem?_eq_getElem hlt, ← of_decide_eq_true hid]
  · rintro ⟨mnemonic, hentry⟩
    rcases List.getElem?_eq_some_iff.1 hentry with ⟨hlt, hget⟩
    refine ⟨hlt, by rw [hget]; exact decide_eq_true rfl, fun j hj hsame => ?_⟩
    -- The machine id would stand at two positions.
    have hlt' : j < (t.entries.map Prod.snd).length := by
      rw [List.length_map]
      exact Nat.lt_trans hj hlt
    refine absurd ((List.getElem?_inj hlt' h.ids).1 ?_) (Nat.ne_of_lt hj)
    rw [List.getElem?_map, List.getElem?_map, hentry,
      List.getElem?_eq_getElem (Nat.lt_trans hj hlt)]
    exact congrArg some (of_decide_eq_true hsame)

theorem position?_eq_none_iff :
    t.position? id = none ↔ ∀ mnemonic, (mnemonic, id) ∉ t.entries := by
  unfold position?
  rw [List.findIdx?_eq_none_iff]
  simp only [decide_eq_false_iff_not]
  constructor
  · intro h mnemonic hmem
    exact h _ hmem rfl
  · rintro h ⟨mnemonic, id'⟩ hmem rfl
    exact h mnemonic hmem

theorem machineId?_eq_none_iff :
    t.machineId? mnemonic = none ↔ mnemonic ∉ t.entries.map Prod.fst := by
  unfold machineId?
  rw [Option.map_eq_none_iff, find?_column_eq_none]

theorem mnemonic?_eq_none_iff : t.mnemonic? id = none ↔ id ∉ t.entries.map Prod.snd := by
  unfold mnemonic?
  rw [Option.map_eq_none_iff, find?_column_eq_none]

-- Looking up a mnemonic, or a machine id, after a pair has been appended.
theorem machineId?_snoc (h : mnemonic ∉ t.entries.map Prod.fst) (id : Nat) (x : String) :
    (⟨t.cls, t.entries ++ [(mnemonic, id)]⟩ : MnemonicTable).machineId? x =
      if x = mnemonic then some id else t.machineId? x := by
  unfold machineId?
  rw [find?_column_snoc h]
  split <;> rfl

theorem mnemonic?_snoc (h : id ∉ t.entries.map Prod.snd) (mnemonic : String) (n : Nat) :
    (⟨t.cls, t.entries ++ [(mnemonic, id)]⟩ : MnemonicTable).mnemonic? n =
      if n = id then some mnemonic else t.mnemonic? n := by
  unfold mnemonic?
  rw [find?_column_snoc (e := (mnemonic, id)) h]
  split <;> rfl

end Questions

end MnemonicTable

namespace Target

/-- The tables of an accepted target are bijective. -/
theorem bijective_of_ofSource {s : Source} {t : Target} (h : ofSource s = .ok t)
    (cls : InstructionClass) : (t.table cls).Bijective :=
  ⟨(orderly_of_ofSource h cls).mnemonics, (orderly_of_ofSource h cls).ids⟩

/-- The position of a machine id selects a cache. There are two. -/
theorem cache_of_position? {t : Target} {cls : InstructionClass} {id index : Nat}
    (h : (t.table cls).position? id = some index) :
    t.cache cls id = match t.caches[index]? with
      | some cache => .ok cache
      | none => .error (.noCache (index + 1) cls) := by
  unfold cache
  cases hcache : t.caches[index]? with
  | some _ => simp only [h, hcache]
  | none => simp only [h, hcache]

end Target

end UnrollAsm
