import UnrollAsm.Target.Basic

/-!
# Encoding

The packing of operand values into machine words. Every value is checked
against the cache or the memory it addresses before it is packed, and the
packed half once more against its sixteen bits: the number of lines a target
claims to have may exceed what the layout can express.

An address may be equal to the size of the memory, while lines and places have
to be below the size of the cache. The checks come in the order address, line,
place, packed half, and the first that fails is reported.

## Main definitions

* `encodeNone`, `encodeOne`, `encodeTwo`, `encodeThree`: One encoder for each
  number of operands.
-/

namespace UnrollAsm

namespace Encode

/-- The value as a natural number, unless it is negative. -/
def nonNegative (role : FieldRole) (v : Int32) : Except RangeCause Nat :=
  if v < 0 then .error (.negative role v) else .ok v.toInt.toNat

/-- A line or a place, which has to be below the size of the cache. -/
def below (role : FieldRole) (limit : Nat) (v : Int32) : Except RangeCause Nat := do
  let n ← nonNegative role v
  if n < limit then return n else throw (.beyondCache role n limit)

/-- The greatest number that a half can hold. -/
def halfMask : Nat := 0xFFFF

/-- An address, which may be equal to the size of the memory. -/
def addressHalf (memory : Nat) (v : Int32) : Except RangeCause UInt16 := do
  let n ← nonNegative .address v
  if n > memory then throw (.beyondMemory n memory)
  else if n > halfMask then throw (.addressTooWide n)
  else return n.toUInt16

/-- The packed half, provided that it fits. -/
def instructionHalf (packed : Nat) : Except RangeCause UInt16 :=
  if packed > halfMask then .error (.fieldTooWide packed) else .ok packed.toUInt16

/-- Packs a line, a place and a machine id. -/
def pack (layout : Layout) (line place id : Nat) : Nat :=
  (line <<< layout.lineShift) ||| (place <<< layout.placeShift) ||| id

end Encode

open Encode

/-- The word of a command without operands: just its machine id. -/
def encodeNone (id : Nat) : Except RangeCause MachineWord := do
  return ⟨0, ← instructionHalf id⟩

/-- The word of a command on a cache line. -/
def encodeOne (layout : Layout) (cache : Cache) (id : Nat) (line : Int32) :
    Except RangeCause MachineWord := do
  let line ← below .line cache.lines line
  return ⟨0, ← instructionHalf (pack layout line 0 id)⟩

/-- The word of a command on an address and a cache line, at any place. -/
def encodeTwo (target : Target) (cache : Cache) (id : Nat) (address line : Int32) :
    Except RangeCause MachineWord := do
  let address ← addressHalf target.memory address
  let line ← below .line cache.lines line
  return ⟨address, ← instructionHalf (pack target.layout line target.wildcard id)⟩

/-- The word of a command on an address, a cache line and a place. -/
def encodeThree (target : Target) (cache : Cache) (id : Nat) (address line place : Int32) :
    Except RangeCause MachineWord := do
  let address ← addressHalf target.memory address
  let line ← below .line cache.lines line
  let place ← below .place cache.places place
  return ⟨address, ← instructionHalf (pack target.layout line place id)⟩

end UnrollAsm
