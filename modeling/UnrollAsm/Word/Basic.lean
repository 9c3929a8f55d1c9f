import UnrollAsm.Text.Numeral

/-!
# Machine Words

A machine word has two halves of sixteen bits. The upper half is an address in
shared memory. The lower half is packed, from the top down, from a cache line,
a place within the line, and the machine id of the instruction; how many bits
the lower two fields get is a property of the target, and the line takes what
is left.

## Main definitions

* `MachineWord`: The two halves of a word.
* `MachineWord.toWord`, `MachineWord.ofWord`: A word as one number.
* `Layout`: The widths of the fields of the lower half.
* `Fields`, `MachineWord.decode`: The fields of a word under a layout.
-/

namespace UnrollAsm

/-- The address half and the instruction half of a word. -/
structure MachineWord where
  address : UInt16
  instruction : UInt16
  deriving DecidableEq, Repr

namespace MachineWord

/-- The word as one 32-bit number. -/
def toWord (w : MachineWord) : Nat :=
  (w.address.toNat <<< 16) ||| w.instruction.toNat

/-- The halves of a 32-bit number. -/
def ofWord (n : Nat) : MachineWord :=
  ⟨(n >>> 16).toUInt16, n.toUInt16⟩

/-- The characters of the word in hexadecimal, both halves in full. -/
def digits (w : MachineWord) : List Char :=
  Text.hexFixed 4 w.address.toNat ++ Text.hexFixed 4 w.instruction.toNat

/-- How a word is written. -/
def text (w : MachineWord) : String :=
  "0x" ++ String.ofList w.digits

end MachineWord

/-- The widths of the machine id and of the place, in bits. -/
structure Layout where
  opcodeBits : Nat
  placeBits : Nat
  deriving DecidableEq, Repr

namespace Layout

/-- The width of each half of a word. -/
def halfBits : Nat := 16

/-- The lowest bit of the place. -/
def placeShift (l : Layout) : Nat :=
  l.opcodeBits

/-- The lowest bit of the line. -/
def lineShift (l : Layout) : Nat :=
  l.opcodeBits + l.placeBits

/-- The greatest machine id. -/
def opcodeMask (l : Layout) : Nat :=
  (1 <<< l.opcodeBits) - 1

/-- The greatest place. -/
def placeMask (l : Layout) : Nat :=
  (1 <<< l.placeBits) - 1

/-- There is a machine id, and room for a line above it and the place. -/
def isUsable (l : Layout) : Bool :=
  0 < l.opcodeBits && l.lineShift < halfBits

end Layout

/-- A word taken apart. -/
structure Fields where
  address : Nat
  line : Nat
  place : Nat
  machineId : Nat
  deriving DecidableEq, Repr

/-- Takes a word apart. -/
def MachineWord.decode (w : MachineWord) (l : Layout) : Fields :=
  let n := w.instruction.toNat
  { address := w.address.toNat
    line := n >>> l.lineShift
    place := (n >>> l.placeShift) &&& l.placeMask
    machineId := n &&& l.opcodeMask }

end UnrollAsm
