import Mathlib.Data.List.Forall2
import Mathlib.Data.Nat.Digits.Defs
import UnrollAsm.Proofs.Statement.Names

/-!
# The Grammar of a Line

What a line of assembly may look like, said without reading it from left to
right. The code of a line ends at the first number sign. If there is no line break
in it, its words are what stands between spaces, tabs and commas, and the line
makes sense exactly if its words have one of six shapes.

The reader goes over the characters once, and of the word at hand it knows only
what it has seen so far. That this comes to the same is shown with these characters
put back in front of those to come.

## Main definitions

* `code`, `words`: The code of a line, and the words of a code.
* `Identifier`, `Numeral`, `Integer`: Words that are names, and that are integers.
* `Denotes`: The operand that a word stands for.
* `Spells`: The statement that words in a row make.

## Theorems

* `scan_eq`: The tokens of a line are the words of its code.
* `operand_eq_ok`, `declaredName_eq_ok`: Words that are operands and names.
* `ofTokens_eq_ok`: Words make sense exactly if they spell a statement.
* `parse_exact`: A line makes sense exactly if its words do.
-/

namespace UnrollAsm

namespace Statement

/-- The character stands between words. -/
def IsSeparator (c : Char) : Prop :=
  c = ' ' ∨ c = '\t' ∨ c = ','

instance (c : Char) : Decidable (IsSeparator c) :=
  inferInstanceAs (Decidable (_ ∨ _))

/-- There is a line break among the characters. -/
def IsBroken (cs : List Char) : Prop :=
  '\r' ∈ cs ∨ '\n' ∈ cs

instance (cs : List Char) : Decidable (IsBroken cs) :=
  inferInstanceAs (Decidable (_ ∨ _))

/-- The code of a line is all that stands before the first number sign. -/
def code (cs : List Char) : List Char :=
  cs.takeWhile (· ≠ '#')

/-- The words of a code are the pieces between separators that are not empty. -/
def words (cs : List Char) : List String :=
  ((cs.splitOnP fun c => IsSeparator c).filter (· ≠ [])).map String.ofList

/-- The word is a letter or underscore, followed by more of them and by digits. -/
def Identifier (word : String) : Prop :=
  ∃ c rest, word.toList = c :: rest ∧ IsLetter c ∧ ∀ d ∈ rest, IsLetter d ∨ IsDigit d

/-- The number that digits in a row denote in base ten. -/
def magnitude (digits : List Char) : Nat :=
  Nat.ofDigits 10 (digits.reverse.map fun c => c.toNat - '0'.toNat)

/-- The characters are one or more digits. -/
def Digits (cs : List Char) : Prop :=
  cs ≠ [] ∧ ∀ c ∈ cs, IsDigit c

/-- The characters are digits behind at most one sign, and denote the integer. -/
inductive Numeral : List Char → Int → Prop
  | unsigned {ds : List Char} : Digits ds → Numeral ds (magnitude ds)
  | plus {ds : List Char} : Digits ds → Numeral ('+' :: ds) (magnitude ds)
  | minus {ds : List Char} : Digits ds → Numeral ('-' :: ds) (-magnitude ds)

/-- The word is an integer of 32 bits. -/
def Integer (word : String) (value : Int32) : Prop :=
  ∃ n, Numeral word.toList n ∧ -2 ^ 31 ≤ n ∧ n ≤ 2 ^ 31 - 1 ∧ value = Int32.ofInt n

/-- The operand that a word stands for. -/
inductive Denotes : String → Operand → Prop
  | literal {word : String} {value : Int32} : Integer word value → Denotes word (.literal value)
  | name {word : String} : Identifier word → Denotes word (.name word)

/-- The word is an identifier that is not reserved. -/
def Free (word : String) : Prop :=
  Identifier word ∧ word ∉ ["LOOP", "POOL", "VAR", "CONST"]

/-- The statement that words in a row make. -/
inductive Spells : List String → Statement → Prop
  | empty : Spells [] .empty
  | loop {a b c : String} {start stop step : Operand} :
      Denotes a start → Denotes b stop → Denotes c step →
      Spells ["LOOP", a, b, c] (.loop start stop step)
  | pool : Spells ["POOL"] .pool
  | var {name word : String} {value : Operand} :
      Free name → Denotes word value → Spells ["VAR", name, word] (.var name value)
  | const {name word : String} {value : Int32} :
      Free name → Integer word value → Spells ["CONST", name, word] (.const name value)
  | command {mnemonic : String} {arguments : List String} {operands : List Operand} :
      Free mnemonic → arguments.length ≤ 3 → List.Forall₂ Denotes arguments operands →
      Spells (mnemonic :: arguments) (.command mnemonic operands)

/-! ## Words -/

theorem code_cons {c : Char} (hc : c ≠ '#') (cs : List Char) : code (c :: cs) = c :: code cs :=
  List.takeWhile_cons_of_pos (decide_eq_true hc)

theorem isBroken_cons {c : Char} {cs : List Char} :
    IsBroken (c :: cs) ↔ (c = '\r' ∨ c = '\n') ∨ IsBroken cs := by
  unfold IsBroken
  rw [List.mem_cons, List.mem_cons, eq_comm (b := c), eq_comm (b := c)]
  exact or_or_or_comm

section Words

variable {reversed : List Char} (hword : ∀ c ∈ reversed, ¬ IsSeparator c)

include hword

-- The word at hand is a word of its own where a separator comes,
theorem words_separator {c : Char} (hc : IsSeparator c) (rest : List Char) :
    words (reversed.reverse ++ c :: rest) = flush reversed (words rest) := by
  have hreversed : ∀ d ∈ reversed.reverse, decide (IsSeparator d) = false :=
    fun d hd => decide_eq_false (hword d (List.mem_reverse.1 hd))
  have hsplit := List.splitOnP_append_cons_of_forall_mem hreversed c (decide_eq_true hc) rest
  unfold words flush
  rw [hsplit]
  cases reversed with
  | nil => rfl
  | cons d ds =>
      rw [List.filter_cons_of_pos (by simp), List.map_cons]
      rfl

-- and where the code ends.
theorem words_end : words reversed.reverse = flush reversed [] := by
  have hsplit : reversed.reverse.splitOnP (fun c => IsSeparator c) = [reversed.reverse] :=
    List.splitOnP_eq_singleton fun d hd => decide_eq_false (hword d (List.mem_reverse.1 hd))
  unfold words flush
  rw [hsplit]
  cases reversed with
  | nil => rfl
  | cons d ds =>
      rw [List.filter_cons_of_pos (by simp)]
      rfl

/-- The tokens of the rest of a line are the words of its code, with the word at
    hand put back in front, unless there is a line break to come. -/
theorem scan_eq (cs : List Char) :
    scan reversed cs = if IsBroken (code cs) then none
      else some (words (reversed.reverse ++ code cs)) := by
  induction cs generalizing reversed with
  | nil =>
      have hword' := words_end hword
      unfold scan code
      rw [List.takeWhile_nil, if_neg (by decide), List.append_nil, hword']
  | cons c cs ih =>
      unfold scan CharClass.of
      by_cases hsep : IsSeparator c
      · have hcomment : c ≠ '#' := by
          rintro rfl
          exact absurd hsep (by decide)
        have hbreak : ¬ (c = '\r' ∨ c = '\n') := by
          rintro (rfl | rfl) <;> exact absurd hsep (by decide)
        have hclass : c = ' ' ∨ c = '\t' ∨ c = ',' := hsep
        rw [if_pos hclass, code_cons hcomment, words_separator hword hsep]
        dsimp only
        rw [ih (List.forall_mem_nil _)]
        simp only [isBroken_cons, hbreak, false_or]
        split <;> rfl
      · have hclass : ¬ (c = ' ' ∨ c = '\t' ∨ c = ',') := hsep
        rw [if_neg hclass]
        by_cases hcomment : c = '#'
        · -- All that is left is a comment, whatever is in it.
          have hcode : code (c :: cs) = [] :=
            List.takeWhile_cons_of_neg (by simpa using hcomment)
          rw [if_pos hcomment, hcode, if_neg (by decide), List.append_nil, words_end hword]
        · rw [if_neg hcomment, code_cons hcomment]
          by_cases hbreak : c = '\r' ∨ c = '\n'
          · rw [if_pos hbreak, if_pos (isBroken_cons.2 (Or.inl hbreak))]
          · -- The character joins the word at hand.
            rw [if_neg hbreak]
            dsimp only
            rw [ih (List.forall_mem_cons.2 ⟨hsep, hword⟩), List.reverse_cons,
              List.append_assoc]
            simp only [isBroken_cons, hbreak, false_or]
            rfl

end Words

/-- The tokens of a line are the words of its code. -/
theorem tokens?_eq (text : String) :
    tokens? text = if IsBroken (code text.toList) then none
      else some (words (code text.toList)) :=
  scan_eq (List.forall_mem_nil _) text.toList

example : words (code ",,VAR a, b#c\n".toList) = ["VAR", "a", "b"] := by
  decide +kernel

/-! ## Names and integers -/

theorem isIdentifier_iff {word : String} : isIdentifier word = true ↔ Identifier word := by
  unfold isIdentifier Identifier
  cases word.toList with
  | nil => simp only [Bool.false_eq_true, reduceCtorEq, false_and, exists_const]
  | cons c rest =>
      simp only [Bool.and_eq_true, isNameStart_iff, List.all_eq_true, isNamePart_iff,
        List.cons.injEq, and_assoc]
      constructor
      · rintro ⟨hstart, hrest⟩
        exact ⟨c, rest, rfl, rfl, hstart, hrest⟩
      · rintro ⟨_, _, rfl, rfl, hstart, hrest⟩
        exact ⟨hstart, hrest⟩

theorem digitsValue_eq (ds : List Char) : Text.digitsValue ds = magnitude ds := by
  unfold Text.digitsValue magnitude
  rw [Nat.ofDigits_eq_foldr, List.foldr_map, List.foldr_reverse]
  simp only [Nat.cast_id, Nat.add_comm]

theorem natural?_iff {ds : List Char} {n : Nat} :
    Text.natural? ds = some n ↔ Digits ds ∧ magnitude ds = n := by
  rw [Text.natural?_eq_some, digitsValue_eq, ← and_assoc]
  unfold Digits
  simp only [isDigit_iff]

/-- The characters are read as an integer exactly if they are a numeral for it. -/
theorem integer?_eq_some {cs : List Char} {n : Int} :
    Text.integer? cs = some n ↔ Numeral cs n := by
  constructor
  · intro h
    unfold Text.integer? at h
    split at h
    · rcases Option.map_eq_some_iff.1 h with ⟨m, hm, rfl⟩
      rcases natural?_iff.1 hm with ⟨hdigits, rfl⟩
      exact .plus hdigits
    · rcases Option.map_eq_some_iff.1 h with ⟨m, hm, rfl⟩
      rcases natural?_iff.1 hm with ⟨hdigits, rfl⟩
      exact .minus hdigits
    · rcases Option.map_eq_some_iff.1 h with ⟨m, hm, rfl⟩
      rcases natural?_iff.1 hm with ⟨hdigits, rfl⟩
      exact .unsigned hdigits
  · intro h
    cases h with
    | unsigned hdigits =>
        cases cs with
        | nil => exact absurd rfl hdigits.1
        | cons c cs =>
            -- A sign is not a digit.
            have hc : c.isDigit := isDigit_iff.2 (hdigits.2 c List.mem_cons_self)
            rw [Text.integer?_of_isDigit hc, natural?_iff.2 ⟨hdigits, rfl⟩]
            rfl
    | plus hdigits =>
        change (Text.natural? _).map _ = _
        rw [natural?_iff.2 ⟨hdigits, rfl⟩]
        rfl
    | minus hdigits =>
        change (Text.natural? _).map _ = _
        rw [natural?_iff.2 ⟨hdigits, rfl⟩]
        rfl

/-! ## Operands -/

/-- A word is read as an operand exactly if it stands for it. -/
theorem operand_eq_ok {word : String} {op : Operand} :
    operand word = .ok op ↔ Denotes word op := by
  constructor
  · intro h
    unfold operand at h
    split at h
    · rename_i n hn
      split at h
      · rename_i hfits
        cases h
        have hrange := fitsValue_iff.1 hfits
        exact .literal ⟨n, integer?_eq_some.1 hn, by omega, by omega, rfl⟩
      · cases h
    · split at h
      · rename_i hname
        cases h
        exact .name (isIdentifier_iff.1 hname)
      · cases h
  · intro h
    unfold operand
    cases h with
    | literal hvalue =>
        rcases hvalue with ⟨n, hn, hlow, hhigh, rfl⟩
        rw [integer?_eq_some.2 hn]
        dsimp only
        rw [if_pos (fitsValue_iff.2 ⟨by omega, by omega⟩)]
    | name hname =>
        have hident := isIdentifier_iff.2 hname
        rw [integer?_of_isIdentifier hident]
        dsimp only
        rw [if_pos hident]

theorem mapM_operand_eq_ok {tokens : List String} {operands : List Operand} :
    tokens.mapM operand = .ok operands ↔ List.Forall₂ Denotes tokens operands := by
  induction tokens generalizing operands with
  | nil =>
      rw [List.mapM_nil, List.forall₂_nil_left_iff]
      constructor
      · intro h
        cases h
        rfl
      · rintro rfl
        rfl
  | cons token rest ih =>
      rw [List.mapM_cons, List.forall₂_cons_left_iff]
      simp only [bind_eq_ok, operand_eq_ok, ih]
      constructor
      · rintro ⟨op, hop, others, hothers, h⟩
        cases h
        exact ⟨op, others, hop, hothers, rfl⟩
      · rintro ⟨op, others, hop, hothers, rfl⟩
        exact ⟨op, hop, others, hothers, rfl⟩

theorem ofToken?_eq_none_iff {word : String} :
    Keyword.ofToken? word = none ↔ word ∉ ["LOOP", "POOL", "VAR", "CONST"] := by
  rw [Option.eq_none_iff_forall_ne_some]
  simp only [ne_eq, Keyword.ofToken?_eq_some_iff, List.mem_cons, List.not_mem_nil, or_false]
  constructor
  · rintro h (rfl | rfl | rfl | rfl)
    · exact h .loop rfl
    · exact h .pool rfl
    · exact h .var rfl
    · exact h .const rfl
  · rintro h keyword rfl
    apply h
    cases keyword <;> decide

/-- A word is read as a name to declare exactly if it is a free one. -/
theorem declaredName_eq_ok {word name : String} :
    declaredName word = .ok name ↔ Free word ∧ word = name := by
  unfold declaredName Free
  rw [← isIdentifier_iff, ← ofToken?_eq_none_iff]
  constructor
  · intro h
    split at h
    · rename_i hname
      split at h
      · cases h
      · rename_i hkeyword
        cases h
        exact ⟨⟨hname, hkeyword⟩, rfl⟩
    · cases h
  · rintro ⟨⟨hname, hkeyword⟩, rfl⟩
    rw [if_pos hname, hkeyword]

/-! ## Statements -/

theorem ofTokens_keyword {keyword : Keyword} {word : String} (hword : keyword.text = word)
    (arguments : List String) : ofTokens (word :: arguments) = ofKeyword keyword arguments := by
  unfold ofTokens
  dsimp only
  rw [Keyword.ofToken?_eq_some_iff.2 hword]

theorem ofTokens_mnemonic {mnemonic : String} (hfree : Keyword.ofToken? mnemonic = none)
    (arguments : List String) :
    ofTokens (mnemonic :: arguments) = ofMnemonic mnemonic arguments := by
  unfold ofTokens
  dsimp only
  rw [hfree]

-- A reserved word that makes sense with what follows it spells a statement.
theorem spells_of_ofKeyword {keyword : Keyword} {arguments : List String} {st : Statement}
    (h : ofKeyword keyword arguments = .ok st) : Spells (keyword.text :: arguments) st := by
  unfold ofKeyword at h
  split at h
  · rcases exists_of_bind_eq_ok h with ⟨start, hstart, h⟩
    rcases exists_of_bind_eq_ok h with ⟨stop, hstop, h⟩
    rcases exists_of_bind_eq_ok h with ⟨step, hstep, h⟩
    cases h
    exact .loop (operand_eq_ok.1 hstart) (operand_eq_ok.1 hstop) (operand_eq_ok.1 hstep)
  · cases h
  · cases h
    exact .pool
  · cases h
  · rcases exists_of_bind_eq_ok h with ⟨name, hname, h⟩
    rcases exists_of_bind_eq_ok h with ⟨value, hvalue, h⟩
    cases h
    rcases declaredName_eq_ok.1 hname with ⟨hfree, rfl⟩
    exact .var hfree (operand_eq_ok.1 hvalue)
  · cases h
  · rcases exists_of_bind_eq_ok h with ⟨name, hname, h⟩
    rcases exists_of_bind_eq_ok h with ⟨value, hvalue, h⟩
    rcases declaredName_eq_ok.1 hname with ⟨hfree, rfl⟩
    cases operand_eq_ok.1 hvalue with
    | literal hinteger =>
        cases h
        exact .const hfree hinteger
    | name hother => cases h
  · cases h

theorem spells_of_ofMnemonic {mnemonic : String} {arguments : List String} {st : Statement}
    (hfree : Keyword.ofToken? mnemonic = none) (h : ofMnemonic mnemonic arguments = .ok st) :
    Spells (mnemonic :: arguments) st := by
  unfold ofMnemonic at h
  split at h
  · cases h
  · rename_i hname
    rw [not_not, isIdentifier_iff] at hname
    split at h
    · cases h
    · rename_i hmany
      rcases exists_of_bind_eq_ok h with ⟨operands, hoperands, h⟩
      cases h
      exact .command ⟨hname, ofToken?_eq_none_iff.1 hfree⟩ (Nat.not_lt.1 hmany)
        (mapM_operand_eq_ok.1 hoperands)

/-- Words make sense exactly if they spell a statement, and this is the one. -/
theorem ofTokens_eq_ok {tokens : List String} {st : Statement} :
    ofTokens tokens = .ok st ↔ Spells tokens st := by
  constructor
  · intro h
    unfold ofTokens at h
    split at h
    · cases h
      exact .empty
    · split at h
      · rename_i keyword hkeyword
        rw [← Keyword.ofToken?_eq_some_iff.1 hkeyword]
        exact spells_of_ofKeyword h
      · rename_i hfree
        exact spells_of_ofMnemonic hfree h
  · intro h
    cases h with
    | empty => rfl
    | loop hstart hstop hstep =>
        have hword : Keyword.loop.text = "LOOP" := rfl
        rw [ofTokens_keyword hword]
        unfold ofKeyword
        dsimp only
        rw [operand_eq_ok.2 hstart, operand_eq_ok.2 hstop, operand_eq_ok.2 hstep]
        rfl
    | pool => rfl
    | var hname hvalue =>
        have hword : Keyword.var.text = "VAR" := rfl
        rw [ofTokens_keyword hword]
        unfold ofKeyword
        dsimp only
        rw [declaredName_eq_ok.2 ⟨hname, rfl⟩, operand_eq_ok.2 hvalue]
        rfl
    | const hname hvalue =>
        have hword : Keyword.const.text = "CONST" := rfl
        rw [ofTokens_keyword hword]
        unfold ofKeyword
        dsimp only
        rw [declaredName_eq_ok.2 ⟨hname, rfl⟩, operand_eq_ok.2 (.literal hvalue)]
        rfl
    | @command _ arguments _ hname hlength hoperands =>
        have hfew : ¬ arguments.length > maxOperands := Nat.not_lt.2 hlength
        rw [ofTokens_mnemonic (ofToken?_eq_none_iff.2 hname.2)]
        unfold ofMnemonic
        rw [if_neg (not_not.2 (isIdentifier_iff.2 hname.1)), if_neg hfew,
          mapM_operand_eq_ok.2 hoperands]
        rfl

/-- A line whose code has a line break in it is a mistake in that line's syntax.
    Any other line is read as a statement exactly if its words spell it. -/
theorem parse_exact (number : Nat) (text : String) :
    (IsBroken (code text.toList) → ∃ d, parse number text = .error d ∧
      d.what.kind = .syntactic ∧ d.line = some number) ∧
    ∀ st, parse number text = .ok st ↔
      ¬ IsBroken (code text.toList) ∧ Spells (words (code text.toList)) st := by
  unfold parse
  rw [tokens?_eq]
  by_cases hbroken : IsBroken (code text.toList)
  · rw [if_pos hbroken]
    refine ⟨fun _ => ⟨_, rfl, rfl, rfl⟩, fun st => ⟨fun h => ?_, fun h => ?_⟩⟩
    · cases h
    · exact absurd hbroken h.1
  · rw [if_neg hbroken]
    refine ⟨fun h => absurd h hbroken, fun st => ?_⟩
    dsimp only
    rw [← ofTokens_eq_ok]
    cases ofTokens (words (code text.toList)) with
    | error cause => simp [Except.mapError]
    | ok st' => simp [Except.mapError, hbroken]

end Statement

end UnrollAsm
