import Mathlib.Data.List.Forall2
import UnrollAsm.Proofs.Target.Line

/-!
# What a Document Says

What can be learned from a configuration document. An entry belongs to the latest
heading above it, and a heading may be opened several times. So the entries under a
heading are scattered over the lines, and the value of a key is the one that was given
last.

What the reader keeps while it goes from line to line is a heading and a list of
entries. Both can be told from the lines so far, and nothing else of them matters for
what is read from the lines to come.

## Main definitions

* `headingAbove`, `entriesUnder`, `lastUnder`: The heading that a line belongs to, the
  entries under a heading, and the value of a key.
* `Shaped`, `Spelled`: Lines that say something.
* `Reads`: A document answers as its lines say.

## Theorems

* `feed_not_mem`: There is no line feed in a line.
* `parseLines_eq`, `parseLines_malformed`: Lines that are read, and a first that is not.
* `reads_gathered`: A document that has been read answers as its lines say.
* `parse_faithful`: Documents are read as they are written.
-/

namespace UnrollAsm

namespace Document

/-- The heading that a line opens. -/
def Line.opens? : Line → Option String
  | heading name => some name
  | blank | entry .. => none

/-- The key and the value that a line gives. -/
def Line.gives? : Line → Option (String × String)
  | entry key value => some (key, value)
  | blank | heading _ => none

/-- The latest heading above a line, or the empty one. -/
def headingAbove (content : List Line) (index : Nat) : String :=
  ((content.take index).filterMap Line.opens?).getLast?.getD ""

/-- The keys and values in the lines below a heading, however often it is opened. -/
def entriesUnder (content : List Line) (heading : String) : List (String × String) :=
  content.zipIdx.filterMap fun (line, index) =>
    if headingAbove content index = heading then line.gives? else none

/-- The value in the last line below a heading that has the key. -/
def lastUnder (content : List Line) (heading key : String) : Option String :=
  ((entriesUnder content heading).filter fun e => e.1 = key).getLast?.map Prod.snd

/-- The document answers as its lines say. -/
structure Reads (d : Document) (content : List Line) : Prop where
  entries : ∀ heading, d.entriesOf heading = entriesUnder content heading
  named : ∀ heading key : String, Name heading.toList → Name key.toList →
    d.value? (heading ++ "." ++ key) = lastUnder content heading key
  unnamed : ∀ key : String, Name key.toList → d.value? key = lastUnder content "" key

/-! ## Lines of a text -/

-- No stretch of a text that has been cut at a character has it inside.
theorem mark_not_mem_cut (mark : Char) (cs : List Char) :
    (∀ piece ∈ (Text.cut mark cs).1, mark ∉ piece) ∧ mark ∉ (Text.cut mark cs).2 := by
  induction cs with
  | nil => exact ⟨List.forall_mem_nil _, List.not_mem_nil⟩
  | cons c cs ih =>
      unfold Text.cut
      generalize Text.cut mark cs = pieces at ih ⊢
      rcases pieces with ⟨ended, tail⟩
      dsimp only at ih ⊢
      by_cases hc : c = mark
      · rw [if_pos hc]
        exact ⟨List.forall_mem_cons.2 ⟨List.not_mem_nil, ih.1⟩, ih.2⟩
      · have hne : ∀ {piece : List Char}, mark ∉ piece → mark ∉ c :: piece := fun hpiece hmem =>
          (List.mem_cons.1 hmem).elim (fun h => hc h.symm) hpiece
        rw [if_neg hc]
        cases ended with
        | nil => exact ⟨List.forall_mem_nil _, hne ih.2⟩
        | cons first others =>
            have hfirst := List.forall_mem_cons.1 ih.1
            exact ⟨List.forall_mem_cons.2 ⟨hne hfirst.1, hfirst.2⟩, ih.2⟩

/-- There is no line feed in a line. -/
theorem feed_not_mem {text line : String} (h : line ∈ Text.lines text) : '\n' ∉ line.toList := by
  unfold Text.lines Text.linesList at h
  rcases List.mem_map.1 h with ⟨cs, hcs, rfl⟩
  rcases mark_not_mem_cut '\n' text.toList with ⟨hended, htail⟩
  generalize Text.cut '\n' text.toList = pieces at hcs hended htail
  rw [String.toList_ofList]
  rcases List.mem_append.1 hcs with hcs | hcs
  · rcases List.mem_map.1 hcs with ⟨piece, hpiece, rfl⟩
    intro hfeed
    unfold Text.dropReturn at hfeed
    split at hfeed
    · exact hended piece hpiece (List.dropLast_subset _ hfeed)
    · exact hended piece hpiece hfeed
  · split at hcs
    · cases hcs
    · cases List.mem_singleton.1 hcs
      exact htail

/-! ## Headings and entries of several lines -/

section Content

variable {content : List Line} {line : Line}

/-- The entries of several lines with their headings. -/
def gathered (content : List Line) : List Entry :=
  content.zipIdx.filterMap fun (line, index) =>
    line.gives?.map fun (key, value) => ⟨headingAbove content index, key, value⟩

theorem headingAbove_append {index : Nat} (h : index ≤ content.length) (more : List Line) :
    headingAbove (content ++ more) index = headingAbove content index := by
  unfold headingAbove
  rw [List.take_append_of_le_length h]

/-- The heading below a line. -/
theorem headingAbove_snoc (content : List Line) (line : Line) :
    headingAbove (content ++ [line]) (content.length + 1) =
      line.opens?.getD (headingAbove content content.length) := by
  have hall : (content ++ [line]).take (content.length + 1) = content ++ [line] :=
    List.take_of_length_le (by simp)
  unfold headingAbove
  rw [hall, List.take_length, List.filterMap_append, List.getLast?_append]
  cases hopens : line.opens? <;> simp [hopens]

/-- One more line gives one more entry, or none. -/
theorem gathered_snoc (content : List Line) (line : Line) :
    gathered (content ++ [line]) = gathered content ++
      (line.gives?.map fun (key, value) =>
        (⟨headingAbove content content.length, key, value⟩ : Entry)).toList := by
  have hlast := headingAbove_append (Nat.le_refl content.length) [line]
  unfold gathered
  rw [List.zipIdx_append, List.filterMap_append]
  congr 1
  · refine List.filterMap_congr fun ⟨l, index⟩ hmem => ?_
    dsimp only
    rw [headingAbove_append (Nat.le_of_lt (List.snd_lt_of_mem_zipIdx hmem))]
  · cases hgives : line.gives? <;> simp [hgives, hlast]

theorem entriesOf_gathered (content : List Line) (heading : String) :
    entriesOf ⟨gathered content⟩ heading = entriesUnder content heading := by
  unfold entriesOf gathered entriesUnder
  rw [List.filter_filterMap, List.map_filterMap]
  refine List.filterMap_congr fun ⟨line, index⟩ _ => ?_
  cases hgives : line.gives? with
  | none => simp [hgives]
  | some given =>
      by_cases hheading : headingAbove content index = heading
      · simp [hgives, hheading]
      · simp [hgives, hheading]

/-! ## Lines in a row -/

/-- The reader goes on with the heading and the entries of the lines so far. -/
theorem parseLines_eq {lines : List (Nat × String)} (done : List Line)
    (h : List.Forall₂ (fun given line => Line.parse? given.2.toList = some line) lines content) :
    parseLines (headingAbove done done.length) ⟨gathered done⟩ lines =
      .ok ⟨gathered (done ++ content)⟩ := by
  induction h generalizing done with
  | nil =>
      rw [List.append_nil]
      rfl
  | @cons given line lines content hline _ ih =>
      have hrest := ih (done ++ [line])
      rw [List.append_assoc, List.singleton_append, List.length_append, List.length_singleton,
        headingAbove_snoc, gathered_snoc] at hrest
      rcases given with ⟨number, text⟩
      rw [← hrest, parseLines, hline]
      cases line with
      | blank => simp [Line.opens?, Line.gives?]
      | heading name => simp [Line.opens?, Line.gives?]
      | entry key value => rfl

/-- The first line that does not say anything is refused. -/
theorem parseLines_malformed {front rest : List (Nat × String)} {number : Nat} {text : String}
    (hfront : ∀ given ∈ front, (Line.parse? given.2.toList).isSome)
    (htext : Line.parse? text.toList = none) (heading : String) (d : Document) :
    parseLines heading d (front ++ (number, text) :: rest) =
      .error (.onLine number (.config (.malformedEntry (Text.trim text)))) := by
  induction front generalizing heading d with
  | nil =>
      rw [List.nil_append, parseLines, htext]
  | cons given front ih =>
      rcases List.forall_mem_cons.1 hfront with ⟨hgiven, hothers⟩
      rcases Option.isSome_iff_exists.1 hgiven with ⟨line, hline⟩
      rcases given with ⟨n, first⟩
      rw [List.cons_append, parseLines, hline]
      cases line with
      | blank => exact ih hothers _ _
      | heading name => exact ih hothers _ _
      | entry key value => exact ih hothers _ _

end Content

/-! ## Documents -/

/-- The line says something. -/
def Shaped (line : String) : Prop :=
  ∃ meaning, Line.Spells line.toList meaning

/-- The lines say this in a row. -/
def Spelled (lines : List String) (content : List Line) : Prop :=
  List.Forall₂ (fun line meaning => Line.Spells line.toList meaning) lines content

theorem exists_spelled {lines : List String} (h : ∀ line ∈ lines, Shaped line) :
    ∃ content, Spelled lines content := by
  induction lines with
  | nil => exact ⟨[], .nil⟩
  | cons line lines ih =>
      rcases List.forall_mem_cons.1 h with ⟨⟨meaning, hline⟩, hlines⟩
      rcases ih hlines with ⟨content, hcontent⟩
      exact ⟨meaning :: content, .cons hline hcontent⟩

-- Of lines that do not all say something, there is a first that does not.
theorem exists_first {lines : List String} (h : ¬ ∀ line ∈ lines, Shaped line) :
    ∃ front line rest, lines = front ++ line :: rest ∧ (∀ l ∈ front, Shaped l) ∧
      ¬ Shaped line := by
  induction lines with
  | nil => exact absurd (List.forall_mem_nil _) h
  | cons first lines ih =>
      by_cases hfirst : Shaped first
      · have hlines : ¬ ∀ line ∈ lines, Shaped line := fun hall =>
          h (List.forall_mem_cons.2 ⟨hfirst, hall⟩)
        rcases ih hlines with ⟨front, line, rest, rfl, hfront, hline⟩
        exact ⟨first :: front, line, rest, rfl, List.forall_mem_cons.2 ⟨hfirst, hfront⟩, hline⟩
      · exact ⟨[], first, lines, rfl, List.forall_mem_nil _, hfirst⟩

theorem parse_spelled {text : String} {content : List Line}
    (h : Spelled (Text.lines text) content) : parse text = .ok ⟨gathered content⟩ := by
  have hfeed : ∀ line ∈ Text.lines text, '\n' ∉ line.toList := fun _ => feed_not_mem
  have hread := ((List.forall₂_and_left _ _).2 ⟨hfeed, h⟩).imp
    fun line meaning hline => (Line.parse?_eq_some hline.1).2 hline.2
  have hnumbered : (Text.numbered text).map Prod.snd = Text.lines text := by
    unfold Text.numbered
    rw [List.map_map]
    exact List.zipIdx_map_fst 0 _
  rw [← hnumbered, List.forall₂_map_left_iff] at hread
  exact parseLines_eq [] hread

theorem parse_malformed {text line : String} {front rest : List String}
    (hlines : Text.lines text = front ++ line :: rest) (hfront : ∀ l ∈ front, Shaped l)
    (hline : ¬ Shaped line) : parse text =
      .error (.onLine (front.length + 1) (.config (.malformedEntry (Text.trim line)))) := by
  have hfeed : ∀ l ∈ front ++ line :: rest, '\n' ∉ l.toList := fun l hl =>
    feed_not_mem (hlines ▸ hl)
  have hnone : Line.parse? line.toList = none := by
    rw [Option.eq_none_iff_forall_ne_some]
    intro meaning hread
    have hmem : line ∈ front ++ line :: rest := List.mem_append_right _ List.mem_cons_self
    exact hline ⟨meaning, (Line.parse?_eq_some (hfeed line hmem)).1 hread⟩
  unfold parse Text.numbered
  rw [hlines, List.zipIdx_append, List.map_append, List.zipIdx_cons, List.map_cons, Nat.zero_add]
  refine parseLines_malformed (fun given hgiven => ?_) hnone "" empty
  rcases List.mem_map.1 hgiven with ⟨⟨l, index⟩, hmem, rfl⟩
  have hl : l ∈ front := List.fst_mem_of_mem_zipIdx hmem
  rcases hfront l hl with ⟨meaning, hmeaning⟩
  have hread := (Line.parse?_eq_some (hfeed l (List.mem_append_left _ hl))).2 hmeaning
  exact Option.isSome_of_mem hread

/-! ## Options -/

theorem Name.dot_not_mem {name : List Char} (h : Name name) : '.' ∉ name := by
  rcases h with ⟨c, rest, rfl, hc, hrest⟩
  intro hdot
  rcases List.mem_cons.1 hdot with rfl | hdot
  · exact absurd (Statement.isNameStart_iff.2 hc) (by decide)
  · exact absurd (isKeyPart_iff.2 (hrest _ hdot)) (by decide)

/-- An option is divided at its first dot. -/
theorem splitOption_dot {heading : String} (h : '.' ∉ heading.toList) (key : String) :
    splitOption (heading ++ "." ++ key) = (heading, key) := by
  have hchars : (heading ++ "." ++ key).toList = heading.toList ++ '.' :: key.toList := by
    simp
  have hfront : ∀ c ∈ heading.toList, decide (c ≠ '.') = true :=
    fun c hc => decide_eq_true (ne_of_mem_of_not_mem hc h)
  have hrest : ∀ c ∈ ('.' :: key.toList).head?, decide (c ≠ '.') = false := by
    intro c hc
    cases hc
    decide
  have hspan := span_eq hfront hrest
  unfold splitOption
  rw [hchars, hspan.1, hspan.2]
  simp

theorem splitOption_of_no_dot {key : String} (h : '.' ∉ key.toList) :
    splitOption key = ("", key) := by
  have hall : key.toList.dropWhile (· ≠ '.') = [] :=
    List.dropWhile_eq_nil_iff.2 fun c hc => decide_eq_true (ne_of_mem_of_not_mem hc h)
  unfold splitOption
  rw [hall]

/-- A document that has been read answers as its lines say. -/
theorem reads_gathered (content : List Line) : Reads ⟨gathered content⟩ content := by
  have hvalue : ∀ heading key,
      valueOf? ⟨gathered content⟩ heading key = lastUnder content heading key := by
    intro heading key
    unfold valueOf? lastUnder
    rw [entriesOf_gathered, List.getLast?_filter]
  refine ⟨entriesOf_gathered content, fun heading key hheading _ => ?_, fun key hkey => ?_⟩
  · unfold value?
    rw [splitOption_dot hheading.dot_not_mem]
    exact hvalue heading key
  · unfold value?
    rw [splitOption_of_no_dot hkey.dot_not_mem]
    exact hvalue "" key

/-- **Documents are read as they are written.** A text is a document exactly if each
    of its lines says something, and if not, the first line that does not is refused.
    The entries under a heading, and the values of its keys, are those that the lines
    say. -/
theorem parse_faithful (text : String) :
    ((∃ d, parse text = .ok d) ↔ ∀ line ∈ Text.lines text, Shaped line) ∧
      (∀ e, parse text = .error e → ∃ front line rest,
        Text.lines text = front ++ line :: rest ∧ (∀ l ∈ front, Shaped l) ∧ ¬ Shaped line ∧
        e = .onLine (front.length + 1) (.config (.malformedEntry (Text.trim line)))) ∧
      ∀ d content, parse text = .ok d → Spelled (Text.lines text) content → d.Reads content := by
  by_cases hshaped : ∀ line ∈ Text.lines text, Shaped line
  · rcases exists_spelled hshaped with ⟨content, hcontent⟩
    have hparse := parse_spelled hcontent
    refine ⟨⟨fun _ => hshaped, fun _ => ⟨_, hparse⟩⟩, fun e he => ?_, fun d content' hd h => ?_⟩
    · rw [hparse] at he
      cases he
    · rw [parse_spelled h] at hd
      cases hd
      exact reads_gathered content'
  · rcases exists_first hshaped with ⟨front, line, rest, hlines, hfront, hline⟩
    have hparse := parse_malformed hlines hfront hline
    refine ⟨⟨fun h => ?_, fun h => absurd h hshaped⟩, fun e he => ?_, fun d content hd => ?_⟩
    · rcases h with ⟨d, hd⟩
      rw [hparse] at hd
      cases hd
    · rw [hparse] at he
      cases he
      exact ⟨front, line, rest, hlines, hfront, hline, rfl⟩
    · rw [hparse] at hd
      cases hd

-- A heading that is opened twice, and a value with signs of other lines in it.
example : (parse "x = 1\n[A]\ny = [b] = c ; d\n[B]\n[ A ]# again\nx = 2").map
    (fun d => (d.entriesOf "A", d.value? "A.y", d.value? "x")) =
      .ok ([("y", "[b] = c"), ("x", "2")], some "[b] = c", some "1") := by
  decide +kernel

end Document

end UnrollAsm
