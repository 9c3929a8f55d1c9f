/-!
# Lines of a Text

A line ends at a line feed, and a carriage return right before the line feed
belongs to the line's end rather than to the line. What follows the last line
feed is a line only if it is not empty, and being unterminated it keeps a final
carriage return.

## Main definitions

* `cut`: The stretches of a text that a character ends, and the rest.
* `linesList`, `lines`: The lines of a text.
* `numbered`: The lines of a text counted from one.
-/

namespace UnrollAsm

namespace Text

/-- Cuts a text at every occurrence of a character: the stretches that the
    character ends, and what stands after the last of them. -/
def cut (mark : Char) : List Char → List (List Char) × List Char
  | [] => ([], [])
  | c :: rest =>
    match cut mark rest with
    | (ended, tail) =>
      if c = mark then ([] :: ended, tail)
      else
        match ended with
        | [] => ([], c :: tail)
        | first :: others => ((c :: first) :: others, tail)

/-- The line without the carriage return that may close it. -/
def dropReturn (cs : List Char) : List Char :=
  if cs.getLast? = some '\r' then cs.dropLast else cs

/-- The lines of a text, as lists of characters. -/
def linesList (cs : List Char) : List (List Char) :=
  match cut '\n' cs with
  | (ended, tail) => ended.map dropReturn ++ (if tail.isEmpty then [] else [tail])

/-- The lines of a text. -/
def lines (s : String) : List String :=
  (linesList s.toList).map String.ofList

/-- The lines of a text, each with its number, counted from one. Line numbers are
    words of 32 bits, so this is meant for texts of fewer than `2 ^ 32` lines. -/
def numbered (s : String) : List (Nat × String) :=
  (lines s).zipIdx.map fun (line, i) => (i + 1, line)

end Text

end UnrollAsm
