import UnrollAsm.Diagnostic

/-!
# Mnemonic Tables

The mnemonics of one instruction class with their machine ids. Both columns are
free of repetitions, so the table can be read in either direction, and the
entries stay in the order in which they were inserted, because the position of
an entry selects the cache that limits its operands.

## Main definitions

* `MnemonicTable`: The entries of a class, in order.
* `MnemonicTable.insert`: Appends an entry unless it repeats something.
* `MnemonicTable.machineId?`, `MnemonicTable.mnemonic?`: The two directions.
* `MnemonicTable.position?`: The place of a machine id in the table.
-/

namespace UnrollAsm

/-- The mnemonics of one class with their machine ids. -/
structure MnemonicTable where
  cls : InstructionClass
  entries : List (String × Nat)
  deriving DecidableEq, Repr

namespace MnemonicTable

/-- The table of a class before anything is inserted. -/
def empty (cls : InstructionClass) : MnemonicTable :=
  ⟨cls, []⟩

/-- The mnemonic or the machine id already has an entry. -/
def clashes (t : MnemonicTable) (mnemonic : String) (id : Nat) : Bool :=
  t.entries.any fun e => e.1 = mnemonic || e.2 = id

/-- Appends an entry whose mnemonic and machine id are both new. -/
def insert (t : MnemonicTable) (mnemonic : String) (id : Nat) :
    Except ConfigCause MnemonicTable :=
  if t.clashes mnemonic id then .error (.duplicate mnemonic id t.cls)
  else .ok { t with entries := t.entries ++ [(mnemonic, id)] }

/-- The machine id of a mnemonic. -/
def machineId? (t : MnemonicTable) (mnemonic : String) : Option Nat :=
  (t.entries.find? fun e => e.1 = mnemonic).map Prod.snd

/-- The mnemonic of a machine id. -/
def mnemonic? (t : MnemonicTable) (id : Nat) : Option String :=
  (t.entries.find? fun e => e.2 = id).map Prod.fst

/-- The position of the entry with a machine id. -/
def position? (t : MnemonicTable) (id : Nat) : Option Nat :=
  t.entries.findIdx? fun e => e.2 = id

/-- The number of entries. -/
def size (t : MnemonicTable) : Nat :=
  t.entries.length

end MnemonicTable

end UnrollAsm
