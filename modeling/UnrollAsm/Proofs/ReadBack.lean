import Mathlib.Data.List.Forall2
import UnrollAsm.Proofs.Disassembly
import UnrollAsm.Proofs.Report.Listing
import UnrollAsm.Proofs.Target.Document

/-!
# Listings Read Back

A listing shows every word together with the line that it comes from, comment
included, and both can be read from it again. Nothing is escaped for this, so a
source line that could end a line of the listing would spoil all that follows.

No line of a text can. A line has no line feed, or it would be two lines. It may have
carriage returns, and even one at its end if it is the last and nothing terminates it.
But a session keeps a line without the blanks around it, and a carriage return is a
blank. What is left of them stands in the middle of the text, where it ends no line.
Lines that have been numbered elsewhere can hold anything, so sessions that were given
such lines are left out.

## Main definitions

* `FromTexts`: Calls that give whole texts to a session.

## Theorems

* `exists_line_of_mem_words`: Words come from lines that the session has been given.
* `isLine_source`: What is kept of a source line can be the end of a line.
* `listing_readable`: The words and the source lines can be read from a listing.
-/

namespace UnrollAsm

/-- Lines are only given as texts, by none of the calls as lines numbered elsewhere. -/
def FromTexts (calls : List Call) : Prop :=
  ∀ lines, Call.parse lines ∉ calls

section Words

variable {target : Target} {calls : List Call} {words : List EmittedWord} {w : EmittedWord}

/-- The words of a session come from lines that it has been given. -/
theorem exists_line_of_mem_words (hok : (history target calls).assemble.answer = .ok words)
    (hw : w ∈ words) : ∃ line ∈ linesOf calls, w.source = .of line.1 line.2 := by
  rcases exists_command_of_mem_words hok hw with ⟨number, text, _, _, _, _, hmem, hsource, -⟩
  exact ⟨(number, text), hmem, hsource⟩

-- There is no line feed in a line of a text.
theorem feed_not_mem_of_texts (h : FromTexts calls) {line : Nat × String}
    (hline : line ∈ linesOf calls) : '\n' ∉ line.2.toList := by
  rcases List.mem_flatMap.1 hline with ⟨c, hc, hline⟩
  cases c with
  | parse lines => exact absurd hc (h lines)
  | parseSource text =>
      rcases List.mem_map.1 hline with ⟨⟨content, index⟩, hcontent, rfl⟩
      exact Document.feed_not_mem (List.fst_mem_of_mem_zipIdx hcontent)
  | assemble => cases hline

/-- What is kept of a source line could be a line of its own. -/
theorem isLine_source (htexts : FromTexts calls)
    (hok : (history target calls).assemble.answer = .ok words) (hw : w ∈ words) :
    Text.IsLine w.source.text.toList := by
  rcases exists_line_of_mem_words hok hw with ⟨line, hline, hsource⟩
  have hkept : w.source.text.toList = Text.trimList line.2.toList := by
    rw [hsource]
    exact String.toList_ofList
  rw [hkept]
  exact Text.isLine_trimList (feed_not_mem_of_texts htexts hline)

end Words

/-- **A listing can be read back.** For every target and after any calls that give whole
    texts: if the session can be assembled, what is written is the listing, its lines
    show the words one by one, and reading them finds all words and source texts. So
    another session with the same listing has the same words and source texts. -/
theorem listing_readable {target : Target} {calls : List Call} {words : List EmittedWord}
    (htexts : FromTexts calls) (hok : (history target calls).assemble.answer = .ok words) :
    writtenListing words = listing words ∧
    List.Forall₂ (fun w line => ∃ digits, ShownAs w digits line) words
      (Text.lines (listing words)) ∧
    readListing (listing words) = words.map EmittedWord.shown ∧
    ∀ {target' calls' words'}, FromTexts calls' →
      (history target' calls').assemble.answer = .ok words' → listing words' = listing words →
      words'.map EmittedWord.shown = words.map EmittedWord.shown := by
  have hread := readListing_listing fun _ hw => isLine_source htexts hok hw
  refine ⟨writtenListing_eq words, ?_, hread, ?_⟩
  · rw [lines_listing fun _ hw => isLine_source htexts hok hw, List.forall₂_map_right_iff,
      List.forall₂_same]
    exact fun w _ => ⟨_, w.shownAs⟩
  · intro target' calls' words' htexts' hok' hsame
    have hread' := readListing_listing fun _ hw => isLine_source htexts' hok' hw
    rw [← hread', hsame, hread]

-- A line that has been numbered elsewhere can hold a line feed, and then shows as two.
example : (history sampleTarget [.parse [(1, "START # a\nb")]]).assemble.answer.toOption.map
    (fun words => (words.length, Text.lines (listing words))) =
    some (1, ["\"0x00000001\", // START # a", "b"]) := by
  decide +kernel

/-- A text with carriage returns at the ends of lines, in a comment that looks like a
    listing, and at its own end. -/
def returnsText : String :=
  "VAR x 1\r\nLOOP 0 2 1 # a loop\n  SETDIC x # \"0x\r\", // in a comment \u2003\r\n" ++
    "\tLOADDIC 7, x #\u3000\nPOOL\nFINISH #\r"

theorem listing_returnsText :
    ∃ words, (history sampleTarget [.parseSource returnsText]).assemble.answer = .ok words ∧
      words.map EmittedWord.shown =
        [(⟨0, 0x103⟩, "SETDIC x # \"0x\r\", // in a comment"), (⟨7, 0x1E4⟩, "LOADDIC 7, x #"),
         (⟨0, 0x103⟩, "SETDIC x # \"0x\r\", // in a comment"), (⟨7, 0x1E4⟩, "LOADDIC 7, x #"),
         (⟨0, 2⟩, "FINISH #")] ∧
      readListing (listing words) = words.map EmittedWord.shown := by
  have hdata :
      (history sampleTarget [.parseSource returnsText]).assemble.answer.toOption.map
        (List.map EmittedWord.shown) =
      some [(⟨0, 0x103⟩, "SETDIC x # \"0x\r\", // in a comment"), (⟨7, 0x1E4⟩, "LOADDIC 7, x #"),
        (⟨0, 0x103⟩, "SETDIC x # \"0x\r\", // in a comment"), (⟨7, 0x1E4⟩, "LOADDIC 7, x #"),
        (⟨0, 2⟩, "FINISH #")] := by
    decide +kernel
  have htexts : FromTexts [.parseSource returnsText] := fun lines h =>
    nomatch List.mem_singleton.1 h
  cases hok : (history sampleTarget [.parseSource returnsText]).assemble.answer with
  | error f =>
      rw [hok] at hdata
      cases hdata
  | ok words =>
      rw [hok] at hdata
      exact ⟨words, rfl, Option.some.inj hdata, (listing_readable htexts hok).2.2.1⟩

end UnrollAsm
