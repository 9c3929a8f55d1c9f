import Mathlib.Data.List.Forall2
import UnrollAsm.Proofs.Statement.Names

/-!
# Renamed Lines

A renaming replaces identifiers by identifiers. Different ones stay different, and
reserved words stay as they are; hence no other identifier becomes a reserved
word. In a line, all tokens after the first are renamed that are identifiers. The
first one tells what the line does, and is no name that the program has given.

Integers are not renamed, and no identifier becomes one. So a token is read as an
integer, as a name or as neither just like the token that it is renamed to, and a
renamed line is read as the renamed statement. Even its mistakes stay, except that
they speak of other names.

A text is renamed in place: separators and comments stay. What counts is the
tokens, however; two texts of the same tokens are the same line.

## Main definitions

* `Renaming`: A renaming of identifiers.
* `Renaming.token`, `Renaming.tokens`: The renaming of a token, and of a line.
* `Renaming.text`: The renaming of a text.
* `Renaming.Relabels`: A numbered line is another, renamed.
* `Operand.rename`, `Statement.rename`: Renamed operands and statements.
* `Diagnostic.brief`, `Failure.brief`: The kind and the line of an error.

## Theorems

* `Renaming.token_injective`: Different tokens stay different.
* `Renaming.ofToken?_token`: Reserved words stay reserved, and no others become so.
* `Renaming.tokens?_text`: The tokens of a renamed text.
* `Renaming.parse_eq`: A renamed line is read as the renamed statement.
-/

namespace UnrollAsm

/-- A renaming of identifiers, which keeps them apart and leaves reserved words as
    they are. What it does to other texts does not matter. -/
structure Renaming where
  name : String → String
  isIdentifier_name : ∀ {x}, Statement.isIdentifier x → Statement.isIdentifier (name x)
  injective : ∀ {x y}, Statement.isIdentifier x → Statement.isIdentifier y →
    name x = name y → x = y
  reserved : ∀ keyword : Keyword, name keyword.text = keyword.text

/-- The operand with its name replaced. -/
def Operand.rename (f : String → String) : Operand → Operand
  | .literal value => .literal value
  | .name token => .name (f token)

/-- The statement with all names replaced. A mnemonic is no name. -/
def Statement.rename (f : String → String) : Statement → Statement
  | .empty => .empty
  | .loop start stop step => .loop (start.rename f) (stop.rename f) (step.rename f)
  | .pool => .pool
  | .var name value => .var (f name) (value.rename f)
  | .const name value => .const (f name) value
  | .command mnemonic operands => .command mnemonic (operands.map (Operand.rename f))

/-- The kind of a diagnostic, and its line. -/
def Diagnostic.brief (d : Diagnostic) : ErrorKind × Option Nat :=
  (d.what.kind, d.line)

/-- The kind of a failure and its line, unless it is a fault. -/
def Failure.brief : Failure → Option (ErrorKind × Option Nat)
  | .refused d => some d.brief
  | .fault _ => none

namespace Renaming

variable (ρ : Renaming)

/-- The token, renamed if it is an identifier. -/
def token (x : String) : String :=
  if Statement.isIdentifier x then ρ.name x else x

/-- The tokens of a line, renamed from the second on. -/
def tokens : List String → List String
  | [] => []
  | head :: arguments => head :: arguments.map ρ.token

/-- A numbered line is another one, renamed. -/
structure Relabels (line line' : Nat × String) : Prop where
  number : line'.1 = line.1
  tokens : Statement.tokens? line'.2 = (Statement.tokens? line.2).map ρ.tokens

/-! ## Tokens -/

theorem token_of_isIdentifier {x : String} (h : Statement.isIdentifier x) :
    ρ.token x = ρ.name x :=
  if_pos h

theorem token_of_not_isIdentifier {x : String} (h : ¬ Statement.isIdentifier x) :
    ρ.token x = x :=
  if_neg h

@[simp] theorem isIdentifier_token (x : String) :
    Statement.isIdentifier (ρ.token x) = Statement.isIdentifier x := by
  by_cases h : Statement.isIdentifier x
  · rw [ρ.token_of_isIdentifier h, h, ρ.isIdentifier_name h]
  · rw [ρ.token_of_not_isIdentifier h]

/-- Different tokens stay different. -/
theorem token_injective : Function.Injective ρ.token := by
  intro x y h
  have hsame : Statement.isIdentifier x = Statement.isIdentifier y := by
    rw [← ρ.isIdentifier_token x, h, ρ.isIdentifier_token]
  by_cases hx : Statement.isIdentifier x
  · have hy : Statement.isIdentifier y := hsame ▸ hx
    rw [ρ.token_of_isIdentifier hx, ρ.token_of_isIdentifier hy] at h
    exact ρ.injective hx hy h
  · have hy : ¬ Statement.isIdentifier y := hsame ▸ hx
    rwa [ρ.token_of_not_isIdentifier hx, ρ.token_of_not_isIdentifier hy] at h

theorem token_decimal (v : Int32) : ρ.token (Text.decimal v) = Text.decimal v :=
  ρ.token_of_not_isIdentifier (isIdentifier_decimal v)

theorem token_keyword (keyword : Keyword) : ρ.token keyword.text = keyword.text := by
  have hname : Statement.isIdentifier keyword.text := by cases keyword <;> decide
  rw [ρ.token_of_isIdentifier hname, ρ.reserved]

/-- A token is renamed to a reserved word only if it is that word. -/
theorem ofToken?_token (x : String) : Keyword.ofToken? (ρ.token x) = Keyword.ofToken? x := by
  refine Option.ext fun keyword => ?_
  rw [Keyword.ofToken?_eq_some_iff, Keyword.ofToken?_eq_some_iff]
  have hfixed := ρ.token_keyword keyword
  constructor
  · intro h
    exact ρ.token_injective (hfixed.trans h)
  · intro h
    rw [← h, hfixed]

/-! ## Texts -/

open Statement

/-- The characters of a token that were collected backwards, renamed unless the
    token is the first of its line. -/
def flush (first : Bool) (reversed : List Char) : List Char :=
  if first then reversed.reverse else (ρ.token (String.ofList reversed.reverse)).toList

/-- Renames the rest of a line, whose next token has been read up to here. -/
def rewrite (first : Bool) (reversed : List Char) : List Char → List Char
  | [] => ρ.flush first reversed
  | c :: rest =>
    match CharClass.of c with
    | .separator => ρ.flush first reversed ++ c :: rewrite (first && reversed.isEmpty) [] rest
    | .comment | .lineBreak => ρ.flush first reversed ++ c :: rest
    | .glyph => rewrite first (c :: reversed) rest

/-- The text of a line, renamed in place. -/
def text (s : String) : String :=
  String.ofList (ρ.rewrite true [] s.toList)

/-- The rest of the tokens of a line, renamed. -/
def rename (first : Bool) (tokens : List String) : List String :=
  if first then ρ.tokens tokens else tokens.map ρ.token

theorem glyph_of_isNamePart {c : Char} (h : isNamePart c) : CharClass.of c = .glyph := by
  unfold CharClass.of
  split
  · rename_i hsep
    rcases hsep with rfl | rfl | rfl <;> exact absurd h (by decide)
  · split
    · rename_i hcomment
      subst hcomment
      exact absurd h (by decide)
    · split
      · rename_i hbreak
        rcases hbreak with rfl | rfl <;> exact absurd h (by decide)
      · rfl

theorem glyph_of_isIdentifier {x : String} (h : isIdentifier x) :
    ∀ c ∈ x.toList, CharClass.of c = .glyph :=
  fun c hc => glyph_of_isNamePart (isNamePart_of_isIdentifier h c hc)

-- Glyphs are added to the token at hand.
theorem scan_glyphs {cs : List Char} (h : ∀ c ∈ cs, CharClass.of c = .glyph)
    (reversed rest : List Char) :
    scan reversed (cs ++ rest) = scan (cs.reverse ++ reversed) rest := by
  induction cs generalizing reversed with
  | nil => rfl
  | cons c cs ih =>
      rw [List.cons_append, scan, h c List.mem_cons_self]
      dsimp only
      rw [ih fun d hd => h d (List.mem_cons_of_mem c hd), List.reverse_cons, List.append_assoc]
      rfl

section Scanning

variable {first : Bool} {reversed : List Char}

theorem glyph_of_flush (h : ∀ c ∈ reversed, CharClass.of c = .glyph) :
    ∀ c ∈ ρ.flush first reversed, CharClass.of c = .glyph := by
  intro c hc
  unfold flush at hc
  split at hc
  · exact h c (List.mem_reverse.1 hc)
  · by_cases hname : isIdentifier (String.ofList reversed.reverse)
    · exact glyph_of_isIdentifier ((ρ.isIdentifier_token _).trans hname) c hc
    · rw [ρ.token_of_not_isIdentifier hname, String.toList_ofList] at hc
      exact h c (List.mem_reverse.1 hc)

-- A renamed token is empty only if the token is.
theorem flush_eq_nil : ρ.flush first reversed = [] ↔ reversed = [] := by
  unfold flush
  split
  · exact List.reverse_eq_nil_iff
  · by_cases hname : isIdentifier (String.ofList reversed.reverse)
    · constructor
      · intro h
        have hempty : isIdentifier (ρ.token (String.ofList reversed.reverse)) = false := by
          unfold isIdentifier
          rw [h]
        rw [ρ.isIdentifier_token, hname] at hempty
        cases hempty
      · rintro rfl
        cases hname
    · rw [ρ.token_of_not_isIdentifier hname, String.toList_ofList]
      exact List.reverse_eq_nil_iff

theorem flush_rename (first : Bool) (reversed : List Char) (others : List String) :
    Statement.flush (ρ.flush first reversed).reverse
        (ρ.rename (first && reversed.isEmpty) others) =
      ρ.rename first (Statement.flush reversed others) := by
  cases reversed with
  | nil =>
      rw [ρ.flush_eq_nil.2 rfl, List.isEmpty_nil, Bool.and_true]
      rfl
  | cons c cs =>
      have hne : (ρ.flush first (c :: cs)).reverse.isEmpty = false := by
        rw [List.isEmpty_reverse, Bool.eq_false_iff]
        intro h
        cases ρ.flush_eq_nil.1 (List.isEmpty_iff.1 h)
      unfold Statement.flush
      rw [hne, List.isEmpty_cons, Bool.and_false, List.reverse_reverse]
      unfold flush rename
      cases first with
      | true => rfl
      | false => exact congrArg (· :: _) (String.ofList_toList)

-- The token at hand is scanned and renamed as a whole.
theorem scan_flush (first : Bool) (h : ∀ c ∈ reversed, CharClass.of c = .glyph)
    (rest : List Char) :
    scan [] (ρ.flush first reversed ++ rest) = scan (ρ.flush first reversed).reverse rest := by
  rw [scan_glyphs (ρ.glyph_of_flush h), List.append_nil]

theorem scan_rewrite (first : Bool) (h : ∀ c ∈ reversed, CharClass.of c = .glyph)
    (cs : List Char) :
    scan [] (ρ.rewrite first reversed cs) = (scan reversed cs).map (ρ.rename first) := by
  -- At the end of the code, the token at hand is the last one.
  have hlast : Statement.flush (ρ.flush first reversed).reverse [] =
      ρ.rename first (Statement.flush reversed []) := by
    rw [← ρ.flush_rename]
    cases first && reversed.isEmpty <;> rfl
  induction cs generalizing first reversed with
  | nil =>
      have hscan := ρ.scan_flush first h []
      rw [List.append_nil] at hscan
      rw [rewrite, hscan]
      exact congrArg some hlast
  | cons c cs ih =>
      unfold rewrite
      rw [scan]
      cases hc : CharClass.of c with
      | separator =>
          dsimp only
          rw [ρ.scan_flush first h, scan, hc]
          dsimp only
          rw [ih _ (fun d hd => by cases hd) (by cases first && reversed.isEmpty <;> rfl),
            Option.map_map, Option.map_map]
          congr 1
          funext others
          exact ρ.flush_rename first reversed others
      | comment =>
          dsimp only
          rw [ρ.scan_flush first h, scan, hc]
          exact congrArg some hlast
      | lineBreak =>
          dsimp only
          rw [ρ.scan_flush first h, scan, hc]
          rfl
      | glyph =>
          dsimp only
          refine ih first (List.forall_mem_cons.2 ⟨hc, h⟩) ?_
          rw [← ρ.flush_rename]
          cases first && (c :: reversed).isEmpty <;> rfl

end Scanning

/-- The tokens of a renamed text are the renamed tokens. -/
theorem tokens?_text (s : String) : tokens? (ρ.text s) = (tokens? s).map ρ.tokens := by
  unfold tokens? text
  rw [String.toList_ofList, ρ.scan_rewrite true fun c hc => by cases hc]
  rfl

/-- Renaming the texts of lines renames the lines. -/
theorem relabels_text (lines : List (Nat × String)) :
    List.Forall₂ ρ.Relabels lines (lines.map fun line => (line.1, ρ.text line.2)) := by
  rw [List.forall₂_map_right_iff, List.forall₂_same]
  exact fun line _ => ⟨rfl, ρ.tokens?_text line.2⟩

/-! ## Statements -/

theorem operand_token (x : String) :
    operand (ρ.token x) = (operand x).map (Operand.rename ρ.token) := by
  by_cases h : isIdentifier x
  · have h' : isIdentifier (ρ.token x) := (ρ.isIdentifier_token x).trans h
    unfold operand
    rw [integer?_of_isIdentifier h, integer?_of_isIdentifier h']
    dsimp only
    rw [if_pos h, if_pos h']
    rfl
  · rw [ρ.token_of_not_isIdentifier h]
    unfold operand
    cases Text.integer? x.toList with
    | some n =>
        dsimp only
        split <;> rfl
    | none =>
        dsimp only
        rw [if_neg h]
        rfl

theorem declaredName_token (x : String) :
    declaredName (ρ.token x) = (declaredName x).map ρ.token := by
  unfold declaredName
  rw [ρ.isIdentifier_token, ρ.ofToken?_token]
  by_cases h : isIdentifier x
  · rw [if_pos h, if_pos h]
    cases Keyword.ofToken? x <;> rfl
  · rw [if_neg h, if_neg h, ρ.token_of_not_isIdentifier h]
    rfl

theorem mapM_operand_token (arguments : List String) :
    (arguments.map ρ.token).mapM operand =
      (arguments.mapM operand).map (List.map (Operand.rename ρ.token)) := by
  induction arguments with
  | nil => rfl
  | cons x rest ih =>
      rw [List.map_cons, List.mapM_cons, List.mapM_cons, ρ.operand_token, ih]
      cases operand x with
      | error cause => rfl
      | ok op => cases rest.mapM operand <;> rfl

theorem ofMnemonic_tokens (mnemonic : String) (arguments : List String) :
    ofMnemonic mnemonic (arguments.map ρ.token) =
      (ofMnemonic mnemonic arguments).map (Statement.rename ρ.token) := by
  unfold ofMnemonic
  rw [List.length_map]
  split
  · rfl
  · split
    · rfl
    · rw [ρ.mapM_operand_token]
      cases arguments.mapM operand <;> rfl

-- Only the error about a constant that is not an integer mentions a name.
theorem ofKeyword_tokens (keyword : Keyword) (arguments : List String) :
    (ofKeyword keyword (arguments.map ρ.token)).mapError Cause.kind =
      ((ofKeyword keyword arguments).map (Statement.rename ρ.token)).mapError Cause.kind := by
  cases keyword with
  | loop =>
      rcases arguments with _ | ⟨start, _ | ⟨stop, _ | ⟨step, _ | ⟨_, _⟩⟩⟩⟩
      case cons.cons.cons.nil =>
        simp only [List.map_cons, List.map_nil, ofKeyword, ρ.operand_token]
        cases operand start with
        | error cause => rfl
        | ok a =>
            cases operand stop with
            | error cause => rfl
            | ok b => cases operand step <;> rfl
      all_goals rfl
  | pool => cases arguments <;> rfl
  | var =>
      rcases arguments with _ | ⟨name, _ | ⟨value, _ | ⟨_, _⟩⟩⟩
      case cons.cons.nil =>
        simp only [List.map_cons, List.map_nil, ofKeyword, ρ.operand_token, ρ.declaredName_token]
        cases declaredName name with
        | error cause => rfl
        | ok a => cases operand value <;> rfl
      all_goals rfl
  | const =>
      rcases arguments with _ | ⟨name, _ | ⟨value, _ | ⟨_, _⟩⟩⟩
      case cons.cons.nil =>
        simp only [List.map_cons, List.map_nil, ofKeyword, ρ.operand_token, ρ.declaredName_token]
        cases declaredName name with
        | error cause => rfl
        | ok a =>
            cases operand value with
            | error cause => rfl
            | ok op => cases op <;> rfl
      all_goals rfl

theorem ofTokens_tokens (tokens : List String) :
    (ofTokens (ρ.tokens tokens)).mapError Cause.kind =
      ((ofTokens tokens).map (Statement.rename ρ.token)).mapError Cause.kind := by
  cases tokens with
  | nil => rfl
  | cons head arguments =>
      unfold tokens ofTokens
      dsimp only
      cases Keyword.ofToken? head with
      | some keyword => exact ρ.ofKeyword_tokens keyword arguments
      | none => exact congrArg _ (ρ.ofMnemonic_tokens head arguments)

/-- A renamed line is read as the renamed statement, or has a mistake of the same
    kind. -/
theorem parse_eq {number : Nat} {text text' : String}
    (h : tokens? text' = (tokens? text).map ρ.tokens) :
    (parse number text').mapError Diagnostic.brief =
      ((parse number text).map (Statement.rename ρ.token)).mapError Diagnostic.brief := by
  unfold parse
  rw [h]
  cases tokens? text with
  | none => rfl
  | some tokens =>
      have htokens := ρ.ofTokens_tokens tokens
      dsimp only [Option.map_some]
      generalize ofTokens (ρ.tokens tokens) = r at htokens ⊢
      generalize ofTokens tokens = q at htokens ⊢
      cases r with
      | error cause =>
          cases q with
          | error cause' =>
              have hkind : cause.kind = cause'.kind := Except.error.inj htokens
              exact congrArg (fun kind => Except.error (kind, some number)) hkind
          | ok st => cases htokens
      | ok st =>
          cases q with
          | error cause => cases htokens
          | ok st' =>
              have hst : st = st'.rename ρ.token := Except.ok.inj htokens
              exact congrArg Except.ok hst

end Renaming

end UnrollAsm
