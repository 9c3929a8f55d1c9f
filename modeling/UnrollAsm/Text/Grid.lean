/-!
# Text Grids

Tables of cells, and the format in which they are shown: columns with a bar
between them, a rule below the titles and one below the last row. How a table is
measured and laid out is not settled here. That is up to a `Drawing`, which
draws a table in a format, or breaks off.

## Main definitions

* `Cell`, `Grid`: The content of a table.
* `Format`, `Format.report`: How a table is to look, and how those of a report do.
* `Drawing`: A way to draw tables.
* `Grid.render?`: A table as it is drawn in a report.
-/

namespace UnrollAsm

/-- The side of a cell at which its text stands. -/
inductive Align where
  | left
  | right
  deriving DecidableEq, Repr

/-- One cell of a table. -/
structure Cell where
  align : Align
  text : String
  deriving DecidableEq, Repr

namespace Cell

/-- A cell whose text stands at the left. -/
def left (text : String) : Cell := ⟨.left, text⟩

/-- A cell whose text stands at the right. -/
def right (text : String) : Cell := ⟨.right, text⟩

end Cell

/-- A table: its titles, which are bold and underlined, and rows with as many cells. -/
structure Grid where
  titles : List Cell
  rows : List (List Cell)
  deriving DecidableEq, Repr

/-- All cells of a table, the titles included. -/
def Grid.cells (g : Grid) : List Cell :=
  g.titles ++ g.rows.flatten

/-- A line across a table: its character, the one where it meets a bar, and the
    two at its ends. -/
structure Rule where
  line : Char
  joint : Char
  left : Char
  right : Char
  deriving DecidableEq, Repr

/-- How a table is to look. -/
structure Format where
  /-- Stands between two columns. -/
  bar : Char
  /-- Stands at both ends of a row. -/
  border : Char
  /-- Below the titles. -/
  titleRule : Rule
  /-- Below the last row. -/
  lastRule : Rule
  /-- The blanks on the two sides of every cell. -/
  leftPadding : Nat
  rightPadding : Nat
  deriving DecidableEq, Repr

/-- The format of all tables in a report. -/
def Format.report : Format where
  bar := '│'
  border := ' '
  titleRule := ⟨'─', '┼', ' ', ' '⟩
  lastRule := ⟨'─', '┴', ' ', ' '⟩
  leftPadding := 1
  rightPadding := 1

/-- A way to draw tables. It may break off in the middle of a table, which then
    has no drawing. -/
structure Drawing where
  render? : Format → Grid → Option String

/-- A table as it is drawn in a report. -/
def Grid.render? (drawing : Drawing) (g : Grid) : Option String :=
  drawing.render? .report g

end UnrollAsm
