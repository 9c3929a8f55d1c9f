import UnrollAsm.Diagnostic
import UnrollAsm.Text.Lines

/-!
# Configuration Documents

A target is described in a text of headings and entries:

    [ThreeOperator]
    DIC = 7        ; a comment starts with a semicolon or a number sign
    DOC = 8

An entry belongs to the latest heading above it, or to no heading, which is
kept as the empty one. The order of entries is part of the document, because
the position of a mnemonic under its heading selects a cache. Asked for the
value of a key, the last entry counts; a heading may be opened several times.

## Main definitions

* `Document`: The entries of a document, in order.
* `Document.Line`, `Document.Line.parse?`: What one line says.
* `Document.parse`: Reads a document.
* `Source`: What is asked of a description, however it is stored.
* `Document.source`: A document answers the questions asked of a description.
-/

namespace UnrollAsm

/-- One entry of a document under its heading. -/
structure Entry where
  heading : String
  key : String
  value : String
  deriving DecidableEq, Repr

/-- The entries of a configuration document, in order. -/
structure Document where
  entries : List Entry
  deriving DecidableEq, Repr

namespace Document

/-- A document without entries. -/
def empty : Document := ⟨[]⟩

/-- The document with one more entry at its end. -/
def insert (d : Document) (heading key value : String) : Document :=
  ⟨d.entries ++ [⟨heading, key, value⟩]⟩

/-- What a line of a document says. -/
inductive Line where
  | blank
  | heading (name : String)
  | entry (key value : String)
  deriving DecidableEq, Repr

/-- The character separates the parts of a line. -/
def isGap (c : Char) : Bool :=
  c = ' ' || c = '\t'

/-- The text after the spaces and tabs in front of it. -/
def skipGap (cs : List Char) : List Char :=
  cs.dropWhile isGap

/-- The character starts a comment. -/
def startsComment (c : Char) : Bool :=
  c = '#' || c = ';'

/-- The character can continue a heading or a key. -/
def isKeyPart (c : Char) : Bool :=
  c.isAlphanum || c = '_' || c = '-'

/-- The character can be part of a value. -/
def isValuePart (c : Char) : Bool :=
  !startsComment c && c ≠ '\r' && c ≠ '\n'

/-- Reads a heading or a key: a letter or underscore, then letters, digits,
    underscores and hyphens. Returns what follows. -/
def name? : List Char → Option (List Char × List Char)
  | [] => none
  | c :: rest =>
    if c.isAlpha || c = '_' then
      some (c :: rest.takeWhile isKeyPart, rest.dropWhile isKeyPart)
    else none

/-- Reads a heading in its brackets. Returns what follows. -/
def heading? : List Char → Option (List Char × List Char)
  | '[' :: rest =>
    match name? (skipGap rest) with
    | none => none
    | some (name, rest) =>
      match skipGap rest with
      | ']' :: rest => some (name, rest)
      | _ => none
  | _ => none

/-- Reads a key and its value. Returns what follows. -/
def entry? (cs : List Char) : Option ((List Char × List Char) × List Char) :=
  match name? cs with
  | none => none
  | some (key, rest) =>
    match skipGap rest with
    | '=' :: rest =>
      let rest := skipGap rest
      match rest.takeWhile isValuePart with
      | [] => none
      | value => some ((key, Text.trimEndList value), rest.dropWhile isValuePart)
    | _ => none

/-- Nothing is left of a line but spaces, tabs and a comment. -/
def isSpent (cs : List Char) : Bool :=
  (skipGap cs).head?.all startsComment

/-- Reads a line of a document, if it has one of the three shapes. -/
def Line.parse? (cs : List Char) : Option Line :=
  let cs := skipGap cs
  match heading? cs with
  | some (name, rest) =>
    if isSpent rest then some (heading (String.ofList name)) else none
  | none =>
    match entry? cs with
    | some ((key, value), rest) =>
      if isSpent rest then some (entry (String.ofList key) (String.ofList value)) else none
    | none => if isSpent cs then some blank else none

/-- Reads numbered lines, given the heading above them and the entries so far. -/
def parseLines (heading : String) (d : Document) :
    List (Nat × String) → Except Diagnostic Document
  | [] => .ok d
  | (number, text) :: rest =>
    match Line.parse? text.toList with
    | none => .error (.onLine number (.config (.malformedEntry (Text.trim text))))
    | some .blank => parseLines heading d rest
    | some (.heading name) => parseLines name d rest
    | some (.entry key value) => parseLines heading (d.insert heading key value) rest

/-- Reads a document. -/
def parse (text : String) : Except Diagnostic Document :=
  parseLines "" empty (Text.numbered text)

/-- The keys and values under a heading, in order. -/
def entriesOf (d : Document) (heading : String) : List (String × String) :=
  (d.entries.filter fun e => e.heading = heading).map fun e => (e.key, e.value)

/-- The value of a key under a heading. The last entry counts. -/
def valueOf? (d : Document) (heading key : String) : Option String :=
  ((d.entriesOf heading).reverse.find? fun e => e.1 = key).map Prod.snd

/-- The heading and the key of an option. They are divided by the first dot,
    and an option without a dot stands under no heading. -/
def splitOption (option : String) : String × String :=
  let before := option.toList.takeWhile (· ≠ '.')
  match option.toList.dropWhile (· ≠ '.') with
  | [] => ("", option)
  | _ :: after => (String.ofList before, String.ofList after)

/-- The value of an option written as `heading.key`. -/
def value? (d : Document) (option : String) : Option String :=
  let (heading, key) := splitOption option
  d.valueOf? heading key

end Document

/-- What a target asks of its description: the value of an option, and the
    entries under a heading in order. -/
structure Source where
  value? : String → Option String
  entries : String → List (String × String)

/-- A document as a description of a target. -/
def Document.source (d : Document) : Source :=
  ⟨d.value?, d.entriesOf⟩

end UnrollAsm
