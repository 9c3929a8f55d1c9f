import UnrollAsm.Proofs.Word.Digits
import UnrollAsm.Report.Listing
import UnrollAsm.Text.Lines

/-!
# Listings Line by Line

A listing is written one line after the other. What has been written in the
end is the listing.

The other way round a listing is read by its lines. The text of the source line
stands at the end of each, as it has been kept, and whatever is in it becomes part
of the listing. It stays a single line if there is no line feed in the text and no
carriage return at its end. Everything in front of the text has a fixed length, so
the digits and the text are found without looking for marks that the text could
hold as well.

## Main definitions

* `Text.IsLine`: Characters that can be a line.
* `ShownAs`: A line shows a word and where it comes from.
* `readLine`, `readListing`: Reads a listing.

## Theorems

* `writtenListing_eq`: Writing line by line writes the listing.
* `Text.lines_join`: Lines that are put together come apart again.
* `lines_listing`: The lines of a listing.
* `ShownAs.readLine_eq`: A line tells the word and the text that it shows.
* `readListing_listing`: Reading a listing finds what it shows.
-/

namespace UnrollAsm

-- The lines come after what is there already.
theorem writeListing_run (words : List EmittedWord) (text : String) :
    ((writeListing (fun line => modify (· ++ line)) words : StateM String Unit).run text).2 =
      text ++ listing words := by
  induction words generalizing text with
  | nil => exact String.append_empty.symm
  | cons w rest ih =>
      change ((writeListing (fun line => modify (· ++ line)) rest : StateM String Unit).run
        (text ++ (w.line ++ "\n"))).2 = _
      rw [ih, listing, listing, List.map_cons, String.join_cons, String.append_assoc]

/-- Writing a listing line by line writes the listing. -/
theorem writtenListing_eq (words : List EmittedWord) : writtenListing words = listing words := by
  unfold writtenListing
  rw [writeListing_run, String.empty_append]

/-! ## Lines of a text -/

namespace Text

-- A stretch without the character ends where the character comes.
theorem cut_append {mark : Char} {cs : List Char} (h : mark ∉ cs) (rest : List Char) :
    cut mark (cs ++ mark :: rest) = (cs :: (cut mark rest).1, (cut mark rest).2) := by
  induction cs with
  | nil => exact if_pos rfl
  | cons c cs ih =>
      rw [List.mem_cons, not_or] at h
      rw [List.cons_append, cut, ih h.2]
      exact if_neg (Ne.symm h.1)

/-- The characters can be a line: there is no line feed, and no carriage return at
    the end that would be taken for a part of the line's end. -/
def IsLine (cs : List Char) : Prop :=
  '\n' ∉ cs ∧ cs.getLast? ≠ some '\r'

theorem linesList_append {cs : List Char} (h : IsLine cs) (rest : List Char) :
    linesList (cs ++ '\n' :: rest) = cs :: linesList rest := by
  have hkept : dropReturn cs = cs := if_neg h.2
  unfold linesList
  rw [cut_append h.1]
  dsimp only
  rw [List.map_cons, hkept, List.cons_append]

/-- Lines that are put together come apart again. -/
theorem lines_join {ls : List String} (h : ∀ l ∈ ls, IsLine l.toList) :
    lines (String.join (ls.map (· ++ "\n"))) = ls := by
  induction ls with
  | nil => rfl
  | cons l rest ih =>
      rw [List.forall_mem_cons] at h
      have hlines : lines (String.join ((l :: rest).map (· ++ "\n"))) =
          l :: lines (String.join (rest.map (· ++ "\n"))) := by
        have hfeed : "\n".toList = ['\n'] := rfl
        unfold lines
        rw [List.map_cons, String.join_cons, String.toList_append, String.toList_append, hfeed,
          List.append_assoc, List.singleton_append, linesList_append h.1, List.map_cons,
          String.ofList_toList]
      rw [hlines, ih h.2]

/-- A text without line feeds can be a line once it has been trimmed. -/
theorem isLine_trimList {cs : List Char} (h : '\n' ∉ cs) : IsLine (trimList cs) := by
  constructor
  · intro hfeed
    unfold trimList trimEndList at hfeed
    have hinner := (List.dropWhile_sublist _).subset (List.mem_reverse.1 hfeed)
    exact h ((List.dropWhile_sublist _).subset (List.mem_reverse.1 hinner))
  · intro hreturn
    unfold trimList trimEndList at hreturn
    rw [List.getLast?_reverse] at hreturn
    have hnot := List.head?_dropWhile_not isBlank (cs.dropWhile isBlank).reverse
    rw [hreturn] at hnot
    exact absurd hnot (by decide)

end Text

/-! ## Lines of a listing -/

/-- The line shows a word: in quotes, with eight hexadecimal digits that denote it
    and from which it comes back, and behind it the text of its source line. -/
structure ShownAs (w : EmittedWord) (digits : List Char) (line : String) : Prop where
  line : line = "\"0x" ++ String.ofList digits ++ "\", // " ++ w.source.text
  length : digits.length = 8
  upper : ∀ c ∈ digits, Text.isHexDigit c = true
  value : Text.hexValue digits = w.word.toWord
  word : MachineWord.ofWord (Text.hexValue digits) = w.word

/-- What a listing shows of a word. -/
def EmittedWord.shown (w : EmittedWord) : MachineWord × String :=
  (w.word, w.source.text)

/-- Takes the word and the text of its source line out of a line, each from the
    place where it stands in every line. -/
def readLine (line : String) : MachineWord × String :=
  (.ofWord (Text.hexValue ((line.toList.drop 3).take 8)), String.ofList (line.toList.drop 17))

/-- Reads a listing line by line. -/
def readListing (text : String) : List (MachineWord × String) :=
  (Text.lines text).map readLine

theorem EmittedWord.line_eq (w : EmittedWord) :
    w.line = "\"0x" ++ String.ofList w.word.digits ++ "\", // " ++ w.source.text := by
  have hopen : "\"" ++ "0x" = "\"0x" := rfl
  unfold EmittedWord.line MachineWord.text
  rw [← hopen]
  simp only [String.append_assoc]
  rfl

/-- A line of a listing shows its word. -/
theorem EmittedWord.shownAs (w : EmittedWord) : ShownAs w w.word.digits w.line where
  line := w.line_eq
  length := w.word.length_digits
  upper _ hc := MachineWord.isHexDigit_of_mem_digits hc
  value := w.word.hexValue_digits
  word := by
    rw [w.word.hexValue_digits]
    exact w.word.ofWord_toWord

namespace ShownAs

variable {w : EmittedWord} {digits : List Char} {line : String}

theorem toList_line (h : ShownAs w digits line) :
    line.toList = "\"0x".toList ++ (digits ++ ("\", // ".toList ++ w.source.text.toList)) := by
  rw [h.line]
  simp only [String.toList_append, String.toList_ofList, List.append_assoc]

/-- A line tells the word and the text that it shows. -/
theorem readLine_eq (h : ShownAs w digits line) : readLine line = w.shown := by
  have hword : (line.toList.drop 3).take 8 = digits := by
    rw [h.toList_line]
    exact List.take_left' h.length
  have htext : line.toList.drop 17 = w.source.text.toList := by
    have hfront : (digits ++ "\", // ".toList).length = 14 := by
      rw [List.length_append, h.length]
      rfl
    rw [h.toList_line, ← List.append_assoc digits]
    exact List.drop_left' hfront
  unfold readLine EmittedWord.shown
  rw [hword, htext, h.word, String.ofList_toList]

/-- What shows a word is a line if the text of the source line could be one. -/
theorem isLine (h : ShownAs w digits line) (htext : Text.IsLine w.source.text.toList) :
    Text.IsLine line.toList := by
  have hdigits : '\n' ∉ digits := fun hfeed => absurd (h.upper _ hfeed) (by decide)
  rw [h.toList_line]
  constructor
  · simp only [List.mem_append, not_or]
    exact ⟨by decide, hdigits, by decide, htext.1⟩
  · -- If there is no text, the blank in front of it is what the line ends in.
    rw [← List.append_assoc, ← List.append_assoc, List.getLast?_append]
    cases hlast : w.source.text.toList.getLast? with
    | some c =>
        rw [Option.some_or, ← hlast]
        exact htext.2
    | none =>
        have hblank : "\", // ".toList.getLast? = some ' ' := by decide
        rw [Option.none_or, List.getLast?_append, hblank, Option.some_or]
        decide

end ShownAs

/-- The lines of a listing, one for every word. -/
theorem lines_listing {words : List EmittedWord}
    (h : ∀ w ∈ words, Text.IsLine w.source.text.toList) :
    Text.lines (listing words) = words.map EmittedWord.line := by
  have hmap : words.map (fun w => w.line ++ "\n") =
      (words.map EmittedWord.line).map (· ++ "\n") := by
    rw [List.map_map]
    rfl
  unfold listing
  rw [hmap]
  refine Text.lines_join fun l hl => ?_
  rcases List.mem_map.1 hl with ⟨w, hw, rfl⟩
  exact w.shownAs.isLine (h w hw)

/-- Reading a listing finds what it shows, if every line of it is one. -/
theorem readListing_listing {words : List EmittedWord}
    (h : ∀ w ∈ words, Text.IsLine w.source.text.toList) :
    readListing (listing words) = words.map EmittedWord.shown := by
  unfold readListing
  rw [lines_listing h, List.map_map]
  exact List.map_congr_left fun w _ => w.shownAs.readLine_eq

end UnrollAsm
