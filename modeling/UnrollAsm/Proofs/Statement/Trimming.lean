import Mathlib.Data.List.DropRight
import UnrollAsm.Proofs.Statement.Names

/-!
# Lines Without the Blanks Around Them

A line is kept without the blanks at its two ends, and blanks in this sense are
many more characters than the separators between tokens. A line that is read as a
statement says the same without them. Its tokens are words, names and integers, in
which there are no blanks at all. So whatever is trimmed was a separator or part of
a comment; any other blank would have become part of a token, or would have made
the line unreadable.

## Main definitions

* `Statement.Solid`: A token without blanks.

## Theorems

* `Statement.solid_of_ofTokens`: The tokens of a statement are solid.
* `Statement.scan_dropWhile`, `Statement.scan_trimEndList`: Blanks in front of
  solid tokens and behind them.
* `Statement.parse_trim`: Trimming a statement.
-/

namespace UnrollAsm

namespace Text

-- Blanks are outside the printable characters of ASCII.
theorem isBlank_of_between {lo hi c : Char} (h : lo ≤ c ∧ c ≤ hi) (hlo : 0x20 < lo.toNat)
    (hhi : hi.toNat < 0x85) : isBlank c = false := by
  have hlow : lo.toNat ≤ c.toNat := h.1
  have hhigh : c.toNat ≤ hi.toNat := h.2
  unfold isBlank
  simp only [Bool.or_eq_false_iff, Bool.and_eq_false_iff, decide_eq_false_iff_not,
    beq_eq_false_iff_ne, ne_eq]
  omega

/-- A last character that is a blank makes no difference to a trimmed text. -/
theorem trimEndList_concat (cs : List Char) (c : Char) :
    trimEndList (cs ++ [c]) = if isBlank c then trimEndList cs else cs ++ [c] :=
  List.rdropWhile_concat isBlank cs c

end Text

namespace Statement

/-- There are no blanks in the token. -/
def Solid (token : String) : Prop :=
  ∀ c ∈ token.toList, Text.isBlank c = false

/-! ## Tokens that make sense -/

theorem isBlank_of_isDigit {c : Char} (h : IsDigit c) : Text.isBlank c = false :=
  Text.isBlank_of_between h (by decide) (by decide)

theorem isBlank_of_isNamePart {c : Char} (h : isNamePart c) : Text.isBlank c = false := by
  rcases isNamePart_iff.1 h with (hupper | hlower | rfl) | hdigit
  · exact Text.isBlank_of_between hupper (by decide) (by decide)
  · exact Text.isBlank_of_between hlower (by decide) (by decide)
  · rfl
  · exact isBlank_of_isDigit hdigit

theorem solid_of_isIdentifier {token : String} (h : isIdentifier token) : Solid token :=
  fun c hc => isBlank_of_isNamePart (isNamePart_of_isIdentifier h c hc)

theorem solid_of_natural? {cs : List Char} {n : Nat} (h : Text.natural? cs = some n) :
    ∀ c ∈ cs, Text.isBlank c = false := by
  unfold Text.natural? at h
  split at h
  · rename_i hdigits
    exact fun c hc => isBlank_of_isDigit (isDigit_iff.1 (List.all_eq_true.1 hdigits.2 c hc))
  · cases h

theorem solid_of_integer? {token : String} {n : Int} (h : Text.integer? token.toList = some n) :
    Solid token := by
  unfold Solid
  unfold Text.integer? at h
  split at h
  · rename_i cs htoken
    rcases Option.map_eq_some_iff.1 h with ⟨m, hm, -⟩
    rw [htoken]
    exact List.forall_mem_cons.2 ⟨rfl, solid_of_natural? hm⟩
  · rename_i cs htoken
    rcases Option.map_eq_some_iff.1 h with ⟨m, hm, -⟩
    rw [htoken]
    exact List.forall_mem_cons.2 ⟨rfl, solid_of_natural? hm⟩
  · rcases Option.map_eq_some_iff.1 h with ⟨m, hm, -⟩
    exact solid_of_natural? hm

theorem solid_of_operand {token : String} {op : Operand} (h : operand token = .ok op) :
    Solid token := by
  unfold operand at h
  split at h
  · rename_i n hn
    exact solid_of_integer? hn
  · split at h
    · rename_i hname
      exact solid_of_isIdentifier hname
    · cases h

theorem solid_of_declaredName {token name : String} (h : declaredName token = .ok name) :
    Solid token := by
  unfold declaredName at h
  split at h
  · rename_i hname
    exact solid_of_isIdentifier hname
  · cases h

theorem solid_of_mapM {tokens : List String} {operands : List Operand}
    (h : tokens.mapM operand = .ok operands) : ∀ token ∈ tokens, Solid token := by
  induction tokens generalizing operands with
  | nil => exact List.forall_mem_nil _
  | cons token rest ih =>
      rw [List.mapM_cons] at h
      rcases exists_of_bind_eq_ok h with ⟨first, hfirst, h⟩
      rcases exists_of_bind_eq_ok h with ⟨others, hothers, -⟩
      exact List.forall_mem_cons.2 ⟨solid_of_operand hfirst, ih hothers⟩

theorem solid_of_ofKeyword {keyword : Keyword} {arguments : List String} {st : Statement}
    (h : ofKeyword keyword arguments = .ok st) : ∀ token ∈ arguments, Solid token := by
  unfold ofKeyword at h
  split at h
  · rcases exists_of_bind_eq_ok h with ⟨start, hstart, h⟩
    rcases exists_of_bind_eq_ok h with ⟨stop, hstop, h⟩
    rcases exists_of_bind_eq_ok h with ⟨step, hstep, -⟩
    simp only [List.forall_mem_cons]
    exact ⟨solid_of_operand hstart, solid_of_operand hstop, solid_of_operand hstep,
      List.forall_mem_nil _⟩
  · cases h
  · exact List.forall_mem_nil _
  · cases h
  · rcases exists_of_bind_eq_ok h with ⟨name, hname, h⟩
    rcases exists_of_bind_eq_ok h with ⟨value, hvalue, -⟩
    simp only [List.forall_mem_cons]
    exact ⟨solid_of_declaredName hname, solid_of_operand hvalue, List.forall_mem_nil _⟩
  · cases h
  · rcases exists_of_bind_eq_ok h with ⟨name, hname, h⟩
    rcases exists_of_bind_eq_ok h with ⟨value, hvalue, -⟩
    simp only [List.forall_mem_cons]
    exact ⟨solid_of_declaredName hname, solid_of_operand hvalue, List.forall_mem_nil _⟩
  · cases h

/-- The tokens of a statement are solid. -/
theorem solid_of_ofTokens {tokens : List String} {st : Statement} (h : ofTokens tokens = .ok st) :
    ∀ token ∈ tokens, Solid token := by
  unfold ofTokens at h
  split at h
  · exact List.forall_mem_nil _
  · rename_i head arguments
    split at h
    · rename_i keyword hkeyword
      rw [Keyword.ofToken?, List.find?_eq_some_iff_append] at hkeyword
      obtain rfl : keyword.text = head := of_decide_eq_true hkeyword.1
      refine List.forall_mem_cons.2 ⟨solid_of_isIdentifier ?_, solid_of_ofKeyword h⟩
      cases keyword <;> decide
    · unfold ofMnemonic at h
      split at h
      · cases h
      · rename_i hname
        split at h
        · cases h
        · rcases exists_of_bind_eq_ok h with ⟨operands, hoperands, -⟩
          refine List.forall_mem_cons.2 ⟨solid_of_isIdentifier ?_, solid_of_mapM hoperands⟩
          exact Decidable.not_not.1 hname

/-! ## Scanning -/

section Scan

variable {reversed cs : List Char} {tokens : List String}

theorem mem_flush {token : String} {others : List String}
    (h : token ∈ others) : token ∈ flush reversed others := by
  unfold flush
  split
  · exact h
  · exact List.mem_cons_of_mem _ h

-- What has been collected becomes part of a token.
theorem exists_mem_of_scan (h : scan reversed cs = some tokens) {c : Char} (hc : c ∈ reversed) :
    ∃ token ∈ tokens, c ∈ token.toList := by
  have hflush : ∀ {r : List Char} {others : List String}, c ∈ r →
      ∃ token ∈ flush r others, c ∈ token.toList := by
    intro r others hr
    cases r with
    | nil => cases hr
    | cons x xs =>
        refine ⟨String.ofList (x :: xs).reverse, List.mem_cons_self, ?_⟩
        rw [String.toList_ofList, List.mem_reverse]
        exact hr
  induction cs generalizing reversed with
  | nil =>
      cases h
      exact hflush hc
  | cons x rest ih =>
      unfold scan at h
      split at h
      · rcases Option.map_eq_some_iff.1 h with ⟨others, -, rfl⟩
        exact hflush hc
      · cases h
        exact hflush hc
      · cases h
      · exact ih h (List.mem_cons_of_mem _ hc)

-- So a blank cannot be collected where all tokens are solid.
theorem not_scan_blank (h : scan reversed cs = some tokens) (hsolid : ∀ token ∈ tokens, Solid token)
    {c : Char} (hc : c ∈ reversed) : Text.isBlank c = false := by
  rcases exists_mem_of_scan h hc with ⟨token, htoken, hmem⟩
  exact hsolid token htoken c hmem

theorem class_ne_comment {c : Char} (hc : Text.isBlank c = true) : CharClass.of c ≠ .comment := by
  intro h
  obtain rfl : c = '#' := by
    unfold CharClass.of at h
    split at h
    · cases h
    · split at h
      · assumption
      · split at h <;> cases h
  cases hc

/-- Blanks in front of solid tokens. -/
theorem scan_dropWhile (h : scan [] cs = some tokens) (hsolid : ∀ token ∈ tokens, Solid token) :
    scan [] (cs.dropWhile Text.isBlank) = some tokens := by
  induction cs with
  | nil => exact h
  | cons c rest ih =>
      cases hblank : Text.isBlank c with
      | false =>
          rw [List.dropWhile_cons_of_neg (by rw [hblank]; exact Bool.false_ne_true)]
          exact h
      | true =>
          rw [List.dropWhile_cons_of_pos hblank]
          have hcomment := class_ne_comment hblank
          unfold scan at h
          split at h
          · rcases Option.map_eq_some_iff.1 h with ⟨others, hothers, rfl⟩
            exact ih hothers
          · exact absurd ‹_› hcomment
          · cases h
          · rw [not_scan_blank h hsolid List.mem_cons_self] at hblank
            cases hblank

-- One blank behind solid tokens.
theorem scan_concat {c : Char} (hblank : Text.isBlank c = true)
    (h : scan reversed (cs ++ [c]) = some tokens) (hsolid : ∀ token ∈ tokens, Solid token) :
    scan reversed cs = some tokens := by
  induction cs generalizing reversed tokens with
  | nil =>
      have hcomment := class_ne_comment hblank
      rw [List.nil_append] at h
      unfold scan at h
      split at h
      · exact h
      · exact absurd ‹_› hcomment
      · cases h
      · rw [not_scan_blank h hsolid List.mem_cons_self] at hblank
        cases hblank
  | cons x rest ih =>
      rw [List.cons_append] at h
      unfold scan at h ⊢
      split at h
      · rcases Option.map_eq_some_iff.1 h with ⟨others, hothers, rfl⟩
        rw [ih hothers fun token htoken => hsolid token (mem_flush htoken), Option.map_some]
      · exact h
      · cases h
      · exact ih h hsolid

/-- Blanks behind solid tokens. -/
theorem scan_trimEndList (h : scan [] cs = some tokens) (hsolid : ∀ token ∈ tokens, Solid token) :
    scan [] (Text.trimEndList cs) = some tokens := by
  induction cs using List.reverseRecOn with
  | nil => exact h
  | append_singleton cs c ih =>
      rw [Text.trimEndList_concat]
      split
      · rename_i hblank
        exact ih (scan_concat hblank h hsolid)
      · exact h

end Scan

/-- A line that is read as a statement is read as the same one without the blanks
    at its ends. -/
theorem parse_trim {number : Nat} {text : String} {st : Statement}
    (h : parse number text = .ok st) : parse number (Text.trim text) = .ok st := by
  rcases exists_tokens_of_parse h with ⟨tokens, htokens, hst⟩
  have hsolid := solid_of_ofTokens hst
  have htrim : tokens? (Text.trim text) = some tokens := by
    unfold tokens? Text.trim Text.trimList
    rw [String.toList_ofList]
    exact scan_trimEndList (scan_dropWhile htokens hsolid) hsolid
  unfold parse
  rw [htrim]
  dsimp only
  rw [hst]
  rfl

end Statement

end UnrollAsm
