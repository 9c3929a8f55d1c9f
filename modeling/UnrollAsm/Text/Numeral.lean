/-!
# Numerals

Reading and writing of integers. Decimal numerals are read with an optional
sign and any number of leading zeros; whether the value fits where it is going
is for the reader's caller to decide, except that `unsigned32?` refuses what
does not fit in 32 bits. Hexadecimal is only written, with upper-case digits.

## Main definitions

* `digitsValue`: The number a list of decimal digits denotes.
* `natural?`: Reads a non-empty list of decimal digits.
* `integer?`: Reads an optionally signed numeral.
* `unsigned32?`: Reads an unsigned numeral below `2 ^ 32`.
* `decimal`: Writes a 32-bit value in decimal.
* `hexFixed`: Writes the low hexadecimal digits of a number.
* `hex`: Writes a number with as many hexadecimal digits as it needs.
* `padStart`, `padEnd`: Fills a text with spaces up to a length.
-/

namespace UnrollAsm

namespace Text

/-- The number that a list of decimal digits denotes, most significant first. -/
def digitsValue (cs : List Char) : Nat :=
  cs.foldl (fun n c => 10 * n + (c.toNat - '0'.toNat)) 0

/-- Reads one or more ASCII digits. -/
def natural? (cs : List Char) : Option Nat :=
  if cs ≠ [] ∧ cs.all Char.isDigit then some (digitsValue cs) else none

/-- Reads an optional single sign followed by one or more ASCII digits. -/
def integer? : List Char → Option Int
  | '+' :: cs => (natural? cs).map Int.ofNat
  | '-' :: cs => (natural? cs).map fun n => -Int.ofNat n
  | cs => (natural? cs).map Int.ofNat

/-- The least number that does not fit in 32 bits. -/
def limit32 : Nat := 0x100000000

/-- Reads an optional plus sign and digits whose value fits in 32 bits. -/
def unsigned32? (cs : List Char) : Option Nat :=
  let digits := match cs with
    | '+' :: rest => rest
    | _ => cs
  (natural? digits).filter (· < limit32)

/-- The decimal text of a 32-bit value, without a sign unless it is negative. -/
def decimal (v : Int32) : String :=
  toString v.toInt

/-- One hexadecimal digit, upper case. -/
def hexDigit (n : Nat) : Char :=
  if n < 10 then Char.ofNat ('0'.toNat + n) else Char.ofNat ('A'.toNat + (n - 10))

/-- The lowest `width` hexadecimal digits of a number, zeros included. -/
def hexFixed : (width : Nat) → (n : Nat) → List Char
  | 0, _ => []
  | width + 1, n => hexFixed width (n / 16) ++ [hexDigit (n % 16)]

/-- The hexadecimal digits of a number without leading zeros. -/
def hex (n : Nat) : List Char :=
  hexFixed (n.log2 / 4 + 1) n

/-- Spaces in front of a text, up to the given length. -/
def padStart (width : Nat) (s : String) : String :=
  String.ofList (List.replicate (width - s.length) ' ') ++ s

/-- Spaces behind a text, up to the given length. -/
def padEnd (width : Nat) (s : String) : String :=
  s ++ String.ofList (List.replicate (width - s.length) ' ')

end Text

end UnrollAsm
