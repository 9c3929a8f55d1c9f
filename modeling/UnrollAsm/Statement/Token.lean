import UnrollAsm.Text.Numeral

/-!
# Tokens

A line is cut into tokens in one pass. Spaces, tabs and commas separate, in any
number and mixture; a number sign ends the line's code; a line break inside the
code makes the line unreadable. Everything else is part of a token, so the cut
says nothing yet about which tokens make sense.

A token makes sense as an integer or as an identifier, never as both: an
identifier starts with a letter or an underscore.

## Main definitions

* `CharClass`, `CharClass.of`: The part that a character plays in a line.
* `scan`, `tokens?`: The tokens of a line.
* `isIdentifier`: The token can be a name.
-/

namespace UnrollAsm

namespace Statement

/-- The part that a character plays in a line of assembly. -/
inductive CharClass where
  /-- Stands between tokens. -/
  | separator
  /-- Ends the code of the line. -/
  | comment
  /-- Must not occur in the code of a line. -/
  | lineBreak
  /-- Belongs to a token. -/
  | glyph
  deriving DecidableEq, Repr

/-- The part that a given character plays. -/
def CharClass.of (c : Char) : CharClass :=
  if c = ' ' ∨ c = '\t' ∨ c = ',' then separator
  else if c = '#' then comment
  else if c = '\r' ∨ c = '\n' then lineBreak
  else glyph

/-- Puts a token whose characters were collected backwards in front of the
    others, unless there is nothing in it. -/
def flush (reversed : List Char) (others : List String) : List String :=
  if reversed.isEmpty then others else String.ofList reversed.reverse :: others

/-- Cuts the rest of a line into tokens, the first of which has been read up to
    here. -/
def scan (reversed : List Char) : List Char → Option (List String)
  | [] => some (flush reversed [])
  | c :: rest =>
    match CharClass.of c with
    | .separator => (scan [] rest).map (flush reversed)
    | .comment => some (flush reversed [])
    | .lineBreak => none
    | .glyph => scan (c :: reversed) rest

/-- The tokens of a line, or nothing if its code holds a line break. -/
def tokens? (text : String) : Option (List String) :=
  scan [] text.toList

/-- The character can start an identifier. -/
def isNameStart (c : Char) : Bool :=
  c.isAlpha || c = '_'

/-- The character can continue an identifier. -/
def isNamePart (c : Char) : Bool :=
  c.isAlphanum || c = '_'

/-- A letter or underscore followed by letters, digits and underscores, all of
    them ASCII. -/
def isIdentifier (token : String) : Bool :=
  match token.toList with
  | [] => false
  | c :: rest => isNameStart c && rest.all isNamePart

end Statement

end UnrollAsm
