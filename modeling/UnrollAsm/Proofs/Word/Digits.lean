import Mathlib.Algebra.Group.Nat.Defs
import Mathlib.Data.List.Induction
import UnrollAsm.Word.Basic

/-!
# Words in Hexadecimal

A word is written with eight hexadecimal digits, four for each half, and zeros in
front count as digits. Because the number of digits does not depend on the word,
nothing is needed to tell where a half ends, and the digits of the word as a whole
denote the word as one number. From this number the halves come back, so a word
that has been written is not lost.

## Main definitions

* `Text.isHexDigit`, `Text.hexDigitValue`: Upper-case digits and what they stand for.
* `Text.hexValue`: The number that digits denote.

## Theorems

* `Text.hexValue_hexFixed`: The digits of a number denote its lowest part.
* `MachineWord.hexValue_digits`: The digits of a word denote the word.
* `MachineWord.ofWord_toWord`: A word comes back from its number.
-/

namespace UnrollAsm

namespace Text

/-- The character is a hexadecimal digit, upper case. -/
def isHexDigit (c : Char) : Bool :=
  c.isDigit || ('A' ≤ c && c ≤ 'F')

/-- What a hexadecimal digit stands for. -/
def hexDigitValue (c : Char) : Nat :=
  if c.isDigit then c.toNat - '0'.toNat else c.toNat - 'A'.toNat + 10

/-- The number that a list of hexadecimal digits denotes, most significant first. -/
def hexValue (cs : List Char) : Nat :=
  cs.foldl (fun n c => 16 * n + hexDigitValue c) 0

theorem isHexDigit_hexDigit : ∀ n < 16, isHexDigit (hexDigit n) = true := by
  decide

theorem hexDigitValue_hexDigit : ∀ n < 16, hexDigitValue (hexDigit n) = n := by
  decide

theorem hexValue_concat (cs : List Char) (c : Char) :
    hexValue (cs ++ [c]) = 16 * hexValue cs + hexDigitValue c := by
  unfold hexValue
  rw [List.foldl_append]
  rfl

/-- Digits behind others move these up by their number. -/
theorem hexValue_append (cs ds : List Char) :
    hexValue (cs ++ ds) = hexValue cs * 16 ^ ds.length + hexValue ds := by
  induction ds using List.reverseRecOn with
  | nil => simp [hexValue]
  | append_singleton ds c ih =>
      rw [← List.append_assoc, hexValue_concat, hexValue_concat, ih, List.length_append,
        List.length_singleton, Nat.pow_succ, ← Nat.mul_assoc]
      omega

theorem length_hexFixed (width n : Nat) : (hexFixed width n).length = width := by
  induction width generalizing n with
  | zero => rfl
  | succ width ih => rw [hexFixed, List.length_append, ih, List.length_singleton]

theorem isHexDigit_of_mem_hexFixed {width n : Nat} {c : Char} (h : c ∈ hexFixed width n) :
    isHexDigit c = true := by
  induction width generalizing n with
  | zero => cases h
  | succ width ih =>
      rw [hexFixed, List.mem_append, List.mem_singleton] at h
      rcases h with h | rfl
      · exact ih h
      · exact isHexDigit_hexDigit _ (Nat.mod_lt n (by omega))

/-- The lowest digits of a number denote what is left of it without the others. -/
theorem hexValue_hexFixed (width n : Nat) : hexValue (hexFixed width n) = n % 16 ^ width := by
  induction width generalizing n with
  | zero => simp [hexFixed, hexValue, Nat.mod_one]
  | succ width ih =>
      have hdigit := hexDigitValue_hexDigit (n % 16) (Nat.mod_lt n (by omega))
      rw [hexFixed, hexValue_concat, ih, hdigit, Nat.pow_succ, Nat.mul_comm (16 ^ width),
        Nat.mod_mul, Nat.add_comm]

end Text

namespace MachineWord

open Text

/-- The word as a number, without bit operations. -/
theorem toWord_eq (w : MachineWord) :
    w.toWord = w.address.toNat * 16 ^ 4 + w.instruction.toNat := by
  have hlow : w.instruction.toNat < 2 ^ 16 := w.instruction.toNat_lt
  unfold toWord
  rw [← Nat.shiftLeft_add_eq_or_of_lt hlow, Nat.shiftLeft_eq]
  rfl

theorem length_digits (w : MachineWord) : w.digits.length = 8 := by
  unfold digits
  rw [List.length_append, length_hexFixed, length_hexFixed]

theorem isHexDigit_of_mem_digits {w : MachineWord} {c : Char} (h : c ∈ w.digits) :
    isHexDigit c = true := by
  unfold digits at h
  rcases List.mem_append.1 h with h | h
  · exact isHexDigit_of_mem_hexFixed h
  · exact isHexDigit_of_mem_hexFixed h

/-- The digits of a word denote the word. -/
theorem hexValue_digits (w : MachineWord) : hexValue w.digits = w.toWord := by
  have hhigh : w.address.toNat < 16 ^ 4 := w.address.toNat_lt
  have hlow : w.instruction.toNat < 16 ^ 4 := w.instruction.toNat_lt
  unfold digits
  rw [hexValue_append, hexValue_hexFixed, hexValue_hexFixed, length_hexFixed,
    Nat.mod_eq_of_lt hhigh, Nat.mod_eq_of_lt hlow, toWord_eq]

/-- A word comes back from its number. -/
theorem ofWord_toWord (w : MachineWord) : ofWord w.toWord = w := by
  rcases w with ⟨address, instruction⟩
  have hhigh := address.toNat_lt
  have hlow := instruction.toNat_lt
  have haddress : (toWord ⟨address, instruction⟩ >>> 16).toUInt16 = address := by
    rw [← UInt16.toNat_inj, Nat.toUInt16_eq, UInt16.toNat_ofNat', Nat.shiftRight_eq_div_pow,
      toWord_eq]
    dsimp only
    omega
  have hinstruction : (toWord ⟨address, instruction⟩).toUInt16 = instruction := by
    rw [← UInt16.toNat_inj, Nat.toUInt16_eq, UInt16.toNat_ofNat', toWord_eq]
    dsimp only
    omega
  unfold ofWord
  rw [haddress, hinstruction]

end MachineWord

end UnrollAsm
