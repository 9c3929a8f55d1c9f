import Mathlib.Data.List.TakeWhile
import UnrollAsm.Proofs.Statement.Grammar
import UnrollAsm.Target.Document

/-!
# The Shape of a Line

What a line of a configuration document may look like. It is blank, or a name in
brackets, or a name with a value, and after each of them there may be a comment. This
is said piece by piece, whereas the reader takes as much as it can of each piece. It
comes to the same because no piece can start with what the piece before it is made of:
a gap is followed by something else, no name goes on with a gap or a bracket, and a
value ends where a comment starts.

## Main definitions

* `Gap`, `Comment`, `Name`, `Value`: The pieces of a line.
* `Line.Spells`: What a line says.

## Theorems

* `span_eq`: What is taken while something holds.
* `name?_eq_some`, `heading?_eq_some`, `entry?_eq_some`: What the reader takes.
* `Line.parse?_eq_some`: A line is read exactly if it says something.
-/

namespace UnrollAsm

namespace Document

/-- Nothing but spaces and tabs. -/
def Gap (cs : List Char) : Prop :=
  ∀ c ∈ cs, c = ' ' ∨ c = '\t'

/-- Nothing, or a comment. -/
def Comment (cs : List Char) : Prop :=
  ∀ c ∈ cs.head?, c = '#' ∨ c = ';'

/-- A letter or underscore, followed by more of them, by digits and by hyphens. -/
def Name (cs : List Char) : Prop :=
  ∃ c rest, cs = c :: rest ∧ Statement.IsLetter c ∧
    ∀ d ∈ rest, Statement.IsLetter d ∨ Statement.IsDigit d ∨ d = '-'

/-- The text of a value. The gap in front of it is not part of it, and it runs up to
    a comment or a carriage return. -/
structure Value (cs : List Char) : Prop where
  ne_nil : cs ≠ []
  front : ∀ c ∈ cs.head?, ¬ (c = ' ' ∨ c = '\t')
  inside : ∀ c ∈ cs, c ≠ '#' ∧ c ≠ ';' ∧ c ≠ '\r'

/-- What a line says. -/
inductive Line.Spells : List Char → Line → Prop
  | blank {lead comment : List Char} :
      Gap lead → Comment comment → Spells (lead ++ comment) .blank
  | heading {lead inner name outer tail comment : List Char} :
      Gap lead → Gap inner → Name name → Gap outer → Gap tail → Comment comment →
      Spells (lead ++ '[' :: (inner ++ name ++ outer ++ ']' :: (tail ++ comment)))
        (.heading (String.ofList name))
  | entry {lead key before after value comment : List Char} :
      Gap lead → Name key → Gap before → Gap after → Value value → Comment comment →
      Spells (lead ++ key ++ before ++ '=' :: (after ++ value ++ comment))
        (.entry (String.ofList key) (String.ofList (Text.trimEndList value)))

/-! ## Gaps and comments -/

-- As much as can be taken, if what follows cannot.
theorem span_eq {p : Char → Bool} {front rest : List Char} (hfront : ∀ c ∈ front, p c = true)
    (hrest : ∀ c ∈ rest.head?, p c = false) :
    (front ++ rest).takeWhile p = front ∧ (front ++ rest).dropWhile p = rest := by
  rw [List.takeWhile_append_of_pos hfront, List.dropWhile_append_of_pos hfront]
  cases rest with
  | nil => exact ⟨List.append_nil front, rfl⟩
  | cons c rest =>
      have hc : ¬ p c = true := Bool.eq_false_iff.1 (hrest c rfl)
      rw [List.takeWhile_cons_of_neg hc, List.dropWhile_cons_of_neg hc]
      exact ⟨List.append_nil front, rfl⟩

theorem head_dropWhile {p : Char → Bool} {cs : List Char} :
    ∀ c ∈ (cs.dropWhile p).head?, p c = false := by
  intro c hc
  have hnot := List.head?_dropWhile_not p cs
  rw [show (cs.dropWhile p).head? = some c from hc] at hnot
  exact hnot

theorem isGap_iff {c : Char} : isGap c = true ↔ c = ' ' ∨ c = '\t' := by
  unfold isGap
  rw [Bool.or_eq_true, decide_eq_true_eq, decide_eq_true_eq]

/-- A gap, and then what the reader goes on with. -/
theorem exists_gap (cs : List Char) : ∃ gap, Gap gap ∧ cs = gap ++ skipGap cs :=
  ⟨cs.takeWhile isGap, fun _ hc => isGap_iff.1 (List.mem_takeWhile_imp hc),
    List.takeWhile_append_dropWhile.symm⟩

theorem skipGap_append {gap : List Char} (hgap : Gap gap) (rest : List Char) :
    skipGap (gap ++ rest) = skipGap rest :=
  List.dropWhile_append_of_pos fun c hc => isGap_iff.2 (hgap c hc)

-- There is nothing to skip where no gap starts.
theorem skipGap_eq_self {cs : List Char} (h : ∀ c ∈ cs.head?, ¬ (c = ' ' ∨ c = '\t')) :
    skipGap cs = cs := by
  cases cs with
  | nil => rfl
  | cons c rest =>
      have hc : ¬ isGap c = true := mt isGap_iff.1 (h c rfl)
      exact List.dropWhile_cons_of_neg hc

theorem head_skipGap {cs : List Char} : ∀ c ∈ (skipGap cs).head?, ¬ (c = ' ' ∨ c = '\t') := by
  intro c hc hgap
  have hnot := head_dropWhile c hc
  rw [isGap_iff.2 hgap] at hnot
  cases hnot

theorem skipGap_comment {cs : List Char} (h : Comment cs) : skipGap cs = cs := by
  refine skipGap_eq_self fun c hc => ?_
  rcases h c hc with rfl | rfl <;> decide

theorem isSpent_iff {cs : List Char} :
    isSpent cs = true ↔ ∃ gap comment, Gap gap ∧ Comment comment ∧ cs = gap ++ comment := by
  have hcomment : ∀ cs : List Char, cs.head?.all startsComment = true ↔ Comment cs := by
    intro cs
    unfold Comment startsComment
    cases cs.head? <;> simp
  unfold isSpent
  constructor
  · intro h
    rcases exists_gap cs with ⟨gap, hgap, hcs⟩
    exact ⟨gap, skipGap cs, hgap, (hcomment _).1 h, hcs⟩
  · rintro ⟨gap, comment, hgap, hc, rfl⟩
    rw [skipGap_append hgap, skipGap_comment hc]
    exact (hcomment _).2 hc

theorem Comment.isSpent {cs : List Char} (h : Comment cs) : isSpent cs = true :=
  isSpent_iff.2 ⟨[], cs, List.forall_mem_nil _, h, rfl⟩

/-! ## Names -/

theorem isKeyPart_iff {c : Char} :
    isKeyPart c = true ↔ Statement.IsLetter c ∨ Statement.IsDigit c ∨ c = '-' := by
  rw [← or_assoc, ← Statement.isNamePart_iff]
  unfold isKeyPart Statement.isNamePart
  simp only [Bool.or_eq_true, decide_eq_true_eq]

/-- The reader takes a name as far as it goes. -/
theorem name?_eq_some {cs name rest : List Char} :
    name? cs = some (name, rest) ↔
      Name name ∧ cs = name ++ rest ∧ ∀ c ∈ rest.head?, isKeyPart c = false := by
  have hstart : ∀ c : Char, (c.isAlpha || c = '_') = true ↔ Statement.IsLetter c := by
    intro c
    rw [← Statement.isNameStart_iff]
    rfl
  constructor
  · intro h
    unfold name? at h
    split at h
    · cases h
    · rename_i c tail
      split at h
      · rename_i hc
        cases h
        refine ⟨⟨c, _, rfl, (hstart c).1 hc, fun d hd => ?_⟩, ?_, head_dropWhile⟩
        · exact isKeyPart_iff.1 (List.mem_takeWhile_imp hd)
        · rw [List.cons_append, List.takeWhile_append_dropWhile]
      · cases h
  · rintro ⟨⟨c, tail, rfl, hc, htail⟩, rfl, hrest⟩
    have hspan := span_eq (fun d hd => isKeyPart_iff.2 (htail d hd)) hrest
    unfold name?
    rw [List.cons_append]
    dsimp only
    rw [if_pos ((hstart c).2 hc), hspan.1, hspan.2]

-- A name starts with a letter, which is not what else a piece can start with.
theorem Name.head {name : List Char} (h : Name name) (rest : List Char) :
    ∀ c ∈ (name ++ rest).head?, Statement.IsLetter c := by
  rcases h with ⟨d, tail, rfl, hd, -⟩
  intro c hc
  cases hc
  exact hd

theorem not_isLetter {c : Char} (h : c ∈ [' ', '\t', '[', '#', ';']) :
    ¬ Statement.IsLetter c := by
  rw [← Statement.isNameStart_iff]
  simp only [List.mem_cons, List.not_mem_nil, or_false] at h
  rcases h with rfl | rfl | rfl | rfl | rfl <;> decide

theorem Name.skipGap {name : List Char} (h : Name name) (rest : List Char) :
    skipGap (name ++ rest) = name ++ rest := by
  refine skipGap_eq_self fun c hc hgap => not_isLetter ?_ (h.head rest c hc)
  rcases hgap with rfl | rfl <;> decide

theorem not_isKeyPart_gap {gap rest : List Char} (hgap : Gap gap)
    (hrest : ∀ c ∈ rest.head?, isKeyPart c = false) :
    ∀ c ∈ (gap ++ rest).head?, isKeyPart c = false := by
  intro c hc
  cases gap with
  | nil => exact hrest c hc
  | cons d gap =>
      cases hc
      rcases hgap c List.mem_cons_self with rfl | rfl <;> decide

/-! ## Headings and entries -/

/-- The reader takes a heading that stands in brackets. -/
theorem heading?_eq_some {cs name rest : List Char} :
    heading? cs = some (name, rest) ↔ ∃ inner outer, Gap inner ∧ Name name ∧ Gap outer ∧
      cs = '[' :: (inner ++ (name ++ (outer ++ ']' :: rest))) := by
  constructor
  · intro h
    unfold heading? at h
    split at h
    · rename_i after
      split at h
      · cases h
      · rename_i name' after' hname
        split at h
        · rename_i rest' hclose
          cases h
          rcases exists_gap after with ⟨inner, hinner, hafter⟩
          rcases name?_eq_some.1 hname with ⟨hname', hskip, -⟩
          rcases exists_gap after' with ⟨outer, houter, hafter'⟩
          refine ⟨inner, outer, hinner, hname', houter, ?_⟩
          rw [← hclose, ← hafter', ← hskip, ← hafter]
        · cases h
    · cases h
  · rintro ⟨inner, outer, hinner, hname, houter, rfl⟩
    have hclose : ∀ c ∈ (']' :: rest).head?, isKeyPart c = false := by
      intro c hc
      cases hc
      decide
    have hname' := name?_eq_some.2 ⟨hname, rfl, not_isKeyPart_gap houter hclose⟩
    have hskip : skipGap (']' :: rest) = ']' :: rest := List.dropWhile_cons_of_neg (by decide)
    simp only [heading?, skipGap_append hinner, hname.skipGap, hname', skipGap_append houter, hskip]

theorem isValuePart_iff {c : Char} :
    isValuePart c = true ↔ (c ≠ '#' ∧ c ≠ ';' ∧ c ≠ '\r') ∧ c ≠ '\n' := by
  unfold isValuePart startsComment
  simp only [Bool.and_eq_true, Bool.not_eq_true', Bool.or_eq_false_iff, decide_eq_false_iff_not,
    decide_eq_true_eq, ne_eq, and_assoc]

/-- The reader takes a key and a value as far as they go. -/
theorem entry?_eq_some {cs key value rest : List Char} (hline : '\n' ∉ cs) :
    entry? cs = some ((key, value), rest) ↔ ∃ before after full, Name key ∧ Gap before ∧
      Gap after ∧ Value full ∧ value = Text.trimEndList full ∧
      (∀ c ∈ rest.head?, isValuePart c = false) ∧
      cs = key ++ (before ++ '=' :: (after ++ (full ++ rest))) := by
  constructor
  · intro h
    unfold entry? at h
    split at h
    · cases h
    · rename_i key' tail hname
      split at h
      · rename_i tail' hequals
        dsimp only at h
        split at h
        · cases h
        · rename_i hne
          cases h
          rcases name?_eq_some.1 hname with ⟨hname', hcs, -⟩
          rcases exists_gap tail with ⟨before, hbefore, htail⟩
          rcases exists_gap tail' with ⟨after, hafter, htail'⟩
          have hsplit := List.takeWhile_append_dropWhile (p := isValuePart) (l := skipGap tail')
          refine ⟨before, after, _, hname', hbefore, hafter, ⟨hne, fun c hc => ?_, fun c hc => ?_⟩,
            rfl, head_dropWhile, ?_⟩
          · refine @head_skipGap tail' c ?_
            rw [← hsplit, List.head?_append, show (_ : Option Char) = some c from hc]
            rfl
          · exact (isValuePart_iff.1 (List.mem_takeWhile_imp hc)).1
          · rw [hsplit, ← htail', ← hequals, ← htail, ← hcs]
      · cases h
  · rintro ⟨before, after, full, hname, hbefore, hafter, hvalue, rfl, hrest, rfl⟩
    have hequals : ∀ c ∈ ('=' :: (after ++ (full ++ rest))).head?, isKeyPart c = false := by
      intro c hc
      cases hc
      decide
    have hname' := name?_eq_some.2 ⟨hname, rfl, not_isKeyPart_gap hbefore hequals⟩
    have hskip : skipGap ('=' :: (after ++ (full ++ rest))) = '=' :: (after ++ (full ++ rest)) :=
      List.dropWhile_cons_of_neg (by decide)
    have hfront : skipGap (full ++ rest) = full ++ rest := by
      cases full with
      | nil => exact absurd rfl hvalue.ne_nil
      | cons d full => exact skipGap_eq_self fun c hc => hvalue.front c hc
    have hinside : ∀ c ∈ full, isValuePart c = true := by
      intro c hc
      refine isValuePart_iff.2 ⟨hvalue.inside c hc, ?_⟩
      rintro rfl
      exact hline (by simp [hc])
    have hspan := span_eq hinside hrest
    simp only [hname', entry?, skipGap_append hbefore, hskip, skipGap_append hafter, hfront,
      hspan.1, hspan.2]
    cases full with
    | nil => exact absurd rfl hvalue.ne_nil
    | cons d full => rfl

/-! ## Lines -/

theorem heading?_eq_none {cs : List Char} (h : '[' ∉ cs.head?) : heading? cs = none := by
  unfold heading?
  split
  · exact absurd rfl h
  · rfl

theorem name?_eq_none {cs : List Char} (h : ∀ c ∈ cs.head?, ¬ Statement.IsLetter c) :
    name? cs = none := by
  cases hname : name? cs with
  | none => rfl
  | some taken =>
      rcases name?_eq_some.1 hname with ⟨hname', rfl, -⟩
      rcases hname' with ⟨c, tail, htaken, hc, -⟩
      refine absurd hc (h c ?_)
      rw [htaken]
      rfl

-- Where a comment starts, there is no name.
theorem entry?_comment {cs : List Char} (h : Comment cs) : entry? cs = none := by
  have hname : name? cs = none := by
    refine name?_eq_none fun c hc => not_isLetter ?_
    rcases h c hc with rfl | rfl <;> decide
  unfold entry?
  rw [hname]

-- What is read of a line is what it says.
theorem Line.spells_of_parse? {cs : List Char} (hline : '\n' ∉ cs) {line : Line}
    (h : Line.parse? cs = some line) : Line.Spells cs line := by
  unfold Line.parse? at h
  dsimp only at h
  rcases exists_gap cs with ⟨lead, hlead, hcs⟩
  generalize skipGap cs = code at h hcs
  subst hcs
  split at h
  · rename_i name rest hheading
    split at h
    · rename_i hspent
      cases h
      rcases heading?_eq_some.1 hheading with ⟨inner, outer, hinner, hname, houter, rfl⟩
      rcases isSpent_iff.1 hspent with ⟨tail, comment, htail, hcomment, rfl⟩
      have hspells := Spells.heading hlead hinner hname houter htail hcomment
      simpa only [List.append_assoc] using hspells
    · cases h
  · split at h
    · rename_i key value rest hentry
      split at h
      · rename_i hspent
        cases h
        have hcode : '\n' ∉ code := fun hc => hline (List.mem_append_right lead hc)
        rcases (entry?_eq_some hcode).1 hentry with
          ⟨before, after, full, hname, hbefore, hafter, hfull, rfl, hrest, rfl⟩
        rcases isSpent_iff.1 hspent with ⟨tail, comment, htail, hcomment, rfl⟩
        -- A gap would still be part of the value.
        cases tail with
        | nil =>
            have hspells := Spells.entry hlead hname hbefore hafter hfull hcomment
            simpa only [List.append_assoc, List.nil_append] using hspells
        | cons c tail =>
            have hend := hrest c rfl
            rcases htail c List.mem_cons_self with rfl | rfl <;> cases hend
      · cases h
    · split at h
      · rename_i hspent
        cases h
        rcases isSpent_iff.1 hspent with ⟨tail, comment, htail, hcomment, rfl⟩
        rw [← List.append_assoc]
        exact .blank (List.forall_mem_append.2 ⟨hlead, htail⟩) hcomment
      · cases h

-- A line that says something is read.
theorem Line.Spells.parse? {cs : List Char} (hline : '\n' ∉ cs) {line : Line}
    (h : Line.Spells cs line) : Line.parse? cs = some line := by
  cases h with
  | @blank lead comment hlead hcomment =>
      have hheading : heading? comment = none := by
        refine heading?_eq_none fun hbracket => ?_
        rcases hcomment _ hbracket with h | h <;> cases h
      simp only [Line.parse?, skipGap_append hlead, skipGap_comment hcomment, hheading,
        entry?_comment hcomment, hcomment.isSpent, if_true]
  | @heading lead inner name outer tail comment hlead hinner hname houter htail hcomment =>
      have hheading := (@heading?_eq_some _ name (tail ++ comment)).2
        ⟨inner, outer, hinner, hname, houter, rfl⟩
      have hspent := isSpent_iff.2 ⟨tail, comment, htail, hcomment, rfl⟩
      have hskip : ∀ cs, skipGap ('[' :: cs) = '[' :: cs := fun cs =>
        List.dropWhile_cons_of_neg (by decide)
      simp only [Line.parse?, List.append_assoc, skipGap_append hlead, hskip, hheading, hspent,
        if_true]
  | @entry lead key before after value comment hlead hname hbefore hafter hvalue hcomment =>
      simp only [List.append_assoc] at hline ⊢
      have hcode := fun hc => hline (List.mem_append_right lead hc)
      have hrest : ∀ c ∈ comment.head?, isValuePart c = false := by
        intro c hc
        rcases hcomment c hc with rfl | rfl <;> decide
      have hentry := (entry?_eq_some hcode).2
        ⟨before, after, value, hname, hbefore, hafter, hvalue, rfl, hrest, rfl⟩
      have hheading : heading? (key ++ (before ++ '=' :: (after ++ (value ++ comment)))) = none :=
        heading?_eq_none fun hbracket => not_isLetter (by decide) (hname.head _ _ hbracket)
      simp only [Line.parse?, skipGap_append hlead, hname.skipGap, hheading, hentry,
        hcomment.isSpent, if_true]

/-- A line is read exactly if it says something, and as what it says. -/
theorem Line.parse?_eq_some {cs : List Char} (hline : '\n' ∉ cs) {line : Line} :
    Line.parse? cs = some line ↔ Line.Spells cs line :=
  ⟨Line.spells_of_parse? hline, fun h => h.parse? hline⟩

end Document

end UnrollAsm
