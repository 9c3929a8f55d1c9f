import UnrollAsm.Proofs.Outcome
import UnrollAsm.Statement.Parse

/-!
# Names and Numerals

A token is read as an integer or as a name, and never as both. The decimal text
of a value is read back as that value; hence different literals have different
texts, and none of these texts is an identifier. This keeps the constants that
stand for literals apart from everything a program declares, although both live
in the same scopes and are looked up in the same way.

## Main definitions

* `Statement.IsLetter`, `Statement.IsDigit`: The characters of a name.
* `Declarable`: A name may be declared.
* `Operand.Named`, `Statement.Named`: All names in them are identifiers.

## Theorems

* `Text.integer?_decimal`: Reading undoes writing.
* `Text.decimal_injective`: Different values have different texts.
* `Statement.isNameStart_iff`, `Statement.isNamePart_iff`,
  `Statement.isNamePart_of_isIdentifier`: What a name is made of.
* `Keyword.ofToken?_eq_some_iff`: A reserved word is recognized by its spelling.
* `isIdentifier_decimal`: The text of a value is not an identifier.
* `Statement.named_of_parse`: The names in a line are identifiers.
* `Statement.declarable_of_parse`: What a line declares may be declared.
-/

namespace UnrollAsm

namespace Text

theorem natural?_eq_some {cs : List Char} {n : Nat} :
    natural? cs = some n ↔
      cs ≠ [] ∧ (∀ c ∈ cs, c.isDigit = true) ∧ digitsValue cs = n := by
  unfold natural?
  rw [Option.ite_none_right_eq_some, List.all_eq_true, Option.some.injEq, and_assoc]

-- The first digit rules out a sign.
theorem integer?_of_isDigit {c : Char} (hc : c.isDigit) (cs : List Char) :
    integer? (c :: cs) = (natural? (c :: cs)).map Int.ofNat := by
  unfold integer?
  split
  · rename_i heq
    cases heq
    exact absurd hc (by decide)
  · rename_i heq
    cases heq
    exact absurd hc (by decide)
  · rfl

theorem natural?_toDigits (n : Nat) : natural? (Nat.toDigits 10 n) = some n := by
  have hall : (Nat.toDigits 10 n).all Char.isDigit = true :=
    List.all_eq_true.2 fun c hc => Nat.isDigit_of_mem_toDigits (by decide) (by decide) hc
  unfold natural? digitsValue
  rw [if_pos ⟨Nat.toDigits_ne_nil, hall⟩, Option.some.injEq, ← Nat.ofDigitChars_eq_foldl]
  exact Nat.ofDigitChars_ten_toDigits

/-- The decimal text of a value is read back as that value. -/
theorem integer?_decimal (v : Int32) : integer? (decimal v).toList = some v.toInt := by
  unfold decimal
  rw [Int.toString_eq_repr, Int.repr_eq_if]
  by_cases hv : 0 ≤ v.toInt
  · rw [if_pos hv, Nat.toList_repr]
    cases hdigits : Nat.toDigits 10 v.toInt.toNat with
    | nil => exact absurd hdigits Nat.toDigits_ne_nil
    | cons c cs =>
        have hc : c.isDigit = true :=
          Nat.isDigit_of_mem_toDigits (by decide) (by decide) (hdigits ▸ List.mem_cons_self)
        rw [integer?_of_isDigit hc, ← hdigits, natural?_toDigits, Option.map_some,
          Option.some.injEq]
        exact Int.toNat_of_nonneg hv
  · rw [if_neg hv, String.toList_append, Nat.toList_repr]
    change (natural? (Nat.toDigits 10 (-v.toInt).toNat)).map (fun n => -Int.ofNat n) = _
    rw [natural?_toDigits, Option.map_some, Option.some.injEq]
    change -(((-v.toInt).toNat : Nat) : Int) = v.toInt
    omega

theorem decimal_injective {v v' : Int32} (h : decimal v = decimal v') : v = v' := by
  have hread := integer?_decimal v
  rw [h, integer?_decimal, Option.some.injEq] at hread
  exact Int32.toInt_inj.1 hread.symm

end Text

namespace Statement

/-- An ASCII letter or an underscore. -/
def IsLetter (c : Char) : Prop :=
  'A' ≤ c ∧ c ≤ 'Z' ∨ 'a' ≤ c ∧ c ≤ 'z' ∨ c = '_'

/-- An ASCII digit. -/
def IsDigit (c : Char) : Prop :=
  '0' ≤ c ∧ c ≤ '9'

theorem isNameStart_iff {c : Char} : isNameStart c = true ↔ IsLetter c := by
  unfold isNameStart IsLetter Char.isAlpha Char.isUpper Char.isLower
  simp only [Bool.or_eq_true, Bool.and_eq_true, decide_eq_true_eq, or_assoc, ge_iff_le,
    Char.le_def]

theorem isDigit_iff {c : Char} : c.isDigit = true ↔ IsDigit c := by
  unfold Char.isDigit IsDigit
  simp only [Bool.and_eq_true, decide_eq_true_eq, ge_iff_le, Char.le_def]

theorem isNamePart_iff {c : Char} : isNamePart c = true ↔ IsLetter c ∨ IsDigit c := by
  rw [← isNameStart_iff, ← isDigit_iff]
  unfold isNamePart isNameStart Char.isAlphanum
  simp only [Bool.or_eq_true]
  exact or_right_comm

-- What can start a name can also continue it.
theorem isNamePart_of_isNameStart {c : Char} (h : isNameStart c) : isNamePart c :=
  isNamePart_iff.2 (Or.inl (isNameStart_iff.1 h))

theorem isNamePart_of_isIdentifier {token : String} (h : isIdentifier token) :
    ∀ c ∈ token.toList, isNamePart c := by
  unfold isIdentifier at h
  split at h
  · cases h
  · rename_i c rest htoken
    rw [Bool.and_eq_true] at h
    rw [htoken]
    exact List.forall_mem_cons.2 ⟨isNamePart_of_isNameStart h.1, List.all_eq_true.1 h.2⟩

theorem isDigit_of_isNameStart {c : Char} (hstart : isNameStart c) : c.isDigit = false := by
  rw [Bool.eq_false_iff]
  intro hdigit
  rw [isDigit_iff] at hdigit
  -- A letter would lie above the digits.
  rcases isNameStart_iff.1 hstart with ⟨hupper, -⟩ | ⟨hlower, -⟩ | rfl
  · exact absurd (Char.le_trans hupper hdigit.2) (by decide)
  · exact absurd (Char.le_trans hlower hdigit.2) (by decide)
  · exact absurd hdigit.2 (by decide)

-- A name starts with what neither a digit nor a sign is.
theorem integer?_of_isIdentifier {token : String} (h : isIdentifier token) :
    Text.integer? token.toList = none := by
  unfold isIdentifier at h
  cases htoken : token.toList with
  | nil => rfl
  | cons c cs =>
      rw [htoken] at h
      simp only [Bool.and_eq_true] at h
      have hstart := h.1
      unfold Text.integer?
      split
      · rename_i heq
        cases heq
        exact absurd hstart (by decide)
      · rename_i heq
        cases heq
        exact absurd hstart (by decide)
      · have hdigit := isDigit_of_isNameStart hstart
        unfold Text.natural?
        rw [if_neg]
        · rfl
        · rintro ⟨-, hall⟩
          rw [List.all_cons, hdigit] at hall
          cases hall

end Statement

theorem Keyword.ofToken?_eq_some_iff {x : String} {keyword : Keyword} :
    Keyword.ofToken? x = some keyword ↔ keyword.text = x := by
  constructor
  · intro h
    have hfound := List.find?_some h
    exact of_decide_eq_true hfound
  · rintro rfl
    cases keyword <;> decide

theorem isIdentifier_decimal (v : Int32) : ¬ Statement.isIdentifier (Text.decimal v) := by
  intro h
  have hnone := Statement.integer?_of_isIdentifier h
  rw [Text.integer?_decimal] at hnone
  cases hnone

/-! ## The names in a statement -/

/-- The name may be declared: it is an identifier other than a reserved word. -/
def Declarable (name : String) : Prop :=
  Statement.isIdentifier name ∧ Keyword.ofToken? name = none

/-- The name that a statement declares, if it is there to do so. -/
def Statement.declared? : Statement → Option String
  | .var name _ | .const name _ => some name
  | .empty | .loop .. | .pool | .command .. => none

/-- If the operand is a name, it is an identifier. -/
def Operand.Named : Operand → Prop
  | .literal _ => True
  | .name token => Statement.isIdentifier token

/-- All names in the statement are identifiers. -/
def Statement.Named : Statement → Prop
  | .empty | .pool => True
  | .loop start stop step => start.Named ∧ stop.Named ∧ step.Named
  | .var name value => isIdentifier name ∧ value.Named
  | .const name _ => isIdentifier name
  | .command _ operands => ∀ op ∈ operands, op.Named

namespace Statement

theorem named_of_operand {token : String} {op : Operand} (h : operand token = .ok op) :
    op.Named := by
  unfold operand at h
  split at h
  · split at h
    · cases h
      trivial
    · cases h
  · split at h
    · rename_i hname
      cases h
      exact hname
    · cases h

theorem isIdentifier_of_declaredName {token name : String} (h : declaredName token = .ok name) :
    isIdentifier name := by
  unfold declaredName at h
  split at h
  · rename_i hname
    split at h
    · cases h
    · cases h
      exact hname
  · cases h

theorem named_of_mapM {tokens : List String} {operands : List Operand}
    (h : tokens.mapM operand = .ok operands) : ∀ op ∈ operands, op.Named := by
  induction tokens generalizing operands with
  | nil =>
      rw [List.mapM_nil] at h
      cases h
      intro op hop
      cases hop
  | cons token rest ih =>
      rw [List.mapM_cons] at h
      rcases exists_of_bind_eq_ok h with ⟨first, hfirst, h⟩
      rcases exists_of_bind_eq_ok h with ⟨others, hothers, h⟩
      cases h
      intro op hop
      rcases List.mem_cons.1 hop with rfl | hop
      · exact named_of_operand hfirst
      · exact ih hothers op hop

theorem named_of_ofKeyword {keyword : Keyword} {arguments : List String} {st : Statement}
    (h : ofKeyword keyword arguments = .ok st) : st.Named := by
  unfold ofKeyword at h
  split at h
  · rcases exists_of_bind_eq_ok h with ⟨start, hstart, h⟩
    rcases exists_of_bind_eq_ok h with ⟨stop, hstop, h⟩
    rcases exists_of_bind_eq_ok h with ⟨step, hstep, h⟩
    cases h
    exact ⟨named_of_operand hstart, named_of_operand hstop, named_of_operand hstep⟩
  · cases h
  · cases h
    trivial
  · cases h
  · rcases exists_of_bind_eq_ok h with ⟨name, hname, h⟩
    rcases exists_of_bind_eq_ok h with ⟨value, hvalue, h⟩
    cases h
    exact ⟨isIdentifier_of_declaredName hname, named_of_operand hvalue⟩
  · cases h
  · rcases exists_of_bind_eq_ok h with ⟨name, hname, h⟩
    rcases exists_of_bind_eq_ok h with ⟨value, hvalue, h⟩
    cases value with
    | literal v =>
        cases h
        exact isIdentifier_of_declaredName hname
    | name other => cases h
  · cases h

-- A line that makes sense has tokens that do.
theorem exists_tokens_of_parse {number : Nat} {text : String} {st : Statement}
    (h : parse number text = .ok st) :
    ∃ tokens, tokens? text = some tokens ∧ ofTokens tokens = .ok st := by
  unfold parse at h
  cases htokens : tokens? text with
  | none =>
      rw [htokens] at h
      cases h
  | some tokens =>
      rw [htokens] at h
      dsimp only at h
      refine ⟨tokens, rfl, ?_⟩
      cases hst : ofTokens tokens with
      | error cause =>
          rw [hst] at h
          cases h
      | ok st' =>
          rw [hst] at h
          cases h
          rfl

/-- The names in a line are identifiers. -/
theorem named_of_parse {number : Nat} {text : String} {st : Statement}
    (h : parse number text = .ok st) : st.Named := by
  rcases exists_tokens_of_parse h with ⟨tokens, -, hst⟩
  unfold ofTokens at hst
  split at hst
  · cases hst
    trivial
  · split at hst
    · exact named_of_ofKeyword hst
    · unfold ofMnemonic at hst
      split at hst
      · cases hst
      · split at hst
        · cases hst
        · rcases exists_of_bind_eq_ok hst with ⟨operands, hoperands, hst⟩
          cases hst
          exact named_of_mapM hoperands

/-! ## Declared names -/

theorem declarable_of_declaredName {token name : String} (h : declaredName token = .ok name) :
    Declarable name := by
  have hname := isIdentifier_of_declaredName h
  unfold declaredName at h
  split at h
  · split at h
    · cases h
    · rename_i hkeyword
      cases h
      exact ⟨hname, hkeyword⟩
  · cases h

theorem declarable_of_ofKeyword {keyword : Keyword} {arguments : List String} {st : Statement}
    {name : String} (h : ofKeyword keyword arguments = .ok st) (hst : st.declared? = some name) :
    Declarable name := by
  unfold ofKeyword at h
  split at h
  · rcases exists_of_bind_eq_ok h with ⟨start, -, h⟩
    rcases exists_of_bind_eq_ok h with ⟨stop, -, h⟩
    rcases exists_of_bind_eq_ok h with ⟨step, -, h⟩
    cases h
    cases hst
  · cases h
  · cases h
    cases hst
  · cases h
  · rcases exists_of_bind_eq_ok h with ⟨declared, hdeclared, h⟩
    rcases exists_of_bind_eq_ok h with ⟨value, -, h⟩
    cases h
    cases hst
    exact declarable_of_declaredName hdeclared
  · cases h
  · rcases exists_of_bind_eq_ok h with ⟨declared, hdeclared, h⟩
    rcases exists_of_bind_eq_ok h with ⟨value, -, h⟩
    cases value with
    | literal v =>
        cases h
        cases hst
        exact declarable_of_declaredName hdeclared
    | name other => cases h
  · cases h

/-- A name that a line declares may be declared. -/
theorem declarable_of_parse {number : Nat} {text name : String} {st : Statement}
    (h : parse number text = .ok st) (hst : st.declared? = some name) : Declarable name := by
  rcases exists_tokens_of_parse h with ⟨tokens, -, htokens⟩
  unfold ofTokens at htokens
  split at htokens
  · cases htokens
    cases hst
  · split at htokens
    · exact declarable_of_ofKeyword htokens hst
    · unfold ofMnemonic at htokens
      split at htokens
      · cases htokens
      · split at htokens
        · cases htokens
        · rcases exists_of_bind_eq_ok htokens with ⟨operands, -, htokens⟩
          cases htokens
          cases hst

end Statement

end UnrollAsm
