import UnrollAsm.Proofs.Outcome
import UnrollAsm.Target.Basic

/-!
# Accepted Targets

What is known of a target once its description has been accepted. The fields of
a word leave room for a cache line, and every machine id fits in its field,
whichever table lists it. These are the two facts that the packing of words
depends on; all else in a description is taken as it comes. In particular the
number of places in a cache is not compared with the width of a place.

## Main definitions

* `Target.Accepted`: What the checks on a description guarantee.

## Theorems

* `Target.accepted_of_ofSource`: A target that has been read is accepted.
-/

namespace UnrollAsm

/-- What the checks on a description guarantee of a target. -/
structure Target.Accepted (t : Target) : Prop where
  usable : t.layout.isUsable = true
  fits : ∀ cls, cls ≠ .arithmetic → ∀ e ∈ (t.table cls).entries, e.2 ≤ t.layout.opcodeMask

/-- Every machine id of a table fits in its field, unless the table is one of
    arithmetic, which has no words. -/
def MnemonicTable.Fits (layout : Layout) (table : MnemonicTable) : Prop :=
  table.cls ≠ .arithmetic → ∀ e ∈ table.entries, e.2 ≤ layout.opcodeMask

namespace Target

theorem fits_of_readEntry {layout : Layout} {cls : InstructionClass}
    {table table' : MnemonicTable} {entry : String × String}
    (hfits : table.cls = cls ∧ table.Fits layout)
    (h : readEntry layout table entry = .ok table') : table'.cls = cls ∧ table'.Fits layout := by
  unfold readEntry at h
  rcases exists_of_bind_eq_ok h with ⟨id, -, h⟩
  rcases exists_of_bind_eq_ok h with ⟨_, hcheck, h⟩
  unfold MnemonicTable.insert at h
  split at h
  · cases h
  · cases h
    refine ⟨hfits.1, fun hcls e he => ?_⟩
    rcases List.mem_append.1 he with he | he
    · exact hfits.2 hcls e he
    · -- The new entry has been checked.
      cases List.mem_singleton.1 he
      unfold checkEntry at hcheck
      rw [if_neg hcls] at hcheck
      split at hcheck
      · assumption
      · cases hcheck

theorem fits_of_readTable {s : Source} {layout : Layout} {cls : InstructionClass}
    {table : MnemonicTable} (h : readTable s layout cls = .ok table)
    (hcls : cls ≠ .arithmetic) : ∀ e ∈ table.entries, e.2 ≤ layout.opcodeMask := by
  have hempty : (MnemonicTable.empty cls).Fits layout := by
    intro _ e he
    cases he
  have hfits := foldlM_invariant (fun table => table.cls = cls ∧ table.Fits layout)
    (fun _ _ _ => fits_of_readEntry) h ⟨rfl, hempty⟩
  refine hfits.2 ?_
  rw [hfits.1]
  exact hcls

theorem usable_of_readLayout {s : Source} {layout : Layout} (h : readLayout s = .ok layout) :
    layout.isUsable = true := by
  unfold readLayout at h
  rcases exists_of_bind_eq_ok h with ⟨opcodeBits, -, h⟩
  rcases exists_of_bind_eq_ok h with ⟨placeBits, -, h⟩
  dsimp only at h
  split at h
  · rename_i husable
    cases h
    exact husable
  · cases h

/-- A target that has been read from a description is accepted. -/
theorem accepted_of_ofSource {s : Source} {t : Target} (h : ofSource s = .ok t) :
    t.Accepted := by
  unfold ofSource at h
  rcases exists_of_bind_eq_ok h with ⟨layout, hlayout, h⟩
  rcases exists_of_bind_eq_ok h with ⟨wildcard, -, h⟩
  rcases exists_of_bind_eq_ok h with ⟨memory, -, h⟩
  rcases exists_of_bind_eq_ok h with ⟨dic, -, h⟩
  rcases exists_of_bind_eq_ok h with ⟨doc, -, h⟩
  rcases exists_of_bind_eq_ok h with ⟨noOperand, hnone, h⟩
  rcases exists_of_bind_eq_ok h with ⟨oneOperand, hone, h⟩
  rcases exists_of_bind_eq_ok h with ⟨twoOperand, htwo, h⟩
  rcases exists_of_bind_eq_ok h with ⟨threeOperand, hthree, h⟩
  rcases exists_of_bind_eq_ok h with ⟨arithmetic, -, h⟩
  cases h
  refine ⟨usable_of_readLayout hlayout, fun cls hcls => ?_⟩
  cases cls with
  | noOperand => exact fits_of_readTable hnone hcls
  | oneOperand => exact fits_of_readTable hone hcls
  | twoOperand => exact fits_of_readTable htwo hcls
  | threeOperand => exact fits_of_readTable hthree hcls
  | arithmetic => exact absurd rfl hcls

end Target

end UnrollAsm
