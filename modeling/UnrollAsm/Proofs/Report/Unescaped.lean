import UnrollAsm.Proofs.Disassembly
import UnrollAsm.Proofs.ErrorLines
import UnrollAsm.Proofs.Literals
import UnrollAsm.Proofs.Report.Drawing
import UnrollAsm.Proofs.Statement.Grammar
import UnrollAsm.Proofs.Word.Digits

/-!
# Escapes in Reports

What a session shows in its tables is made of numbers, of fixed words, of names, and
of the lines that it has been given. Numbers and names have no escape characters in
them, so these can only come from the lines, which are shown as they stand.

Mnemonics are not taken from the lines but from the target, where they could be
anything. Those that are shown, however, have been looked up for words, and are the
mnemonics that stand in the lines of these words.

## Main definitions

* `ScopeTree.Unescaped`: No name and no line in a tree has an escape character.

## Theorems

* `ScopeTree.unescaped_of_lines`: The tree of lines without escapes.
* `ScopeTree.Unescaped.scopeTables`, `ScopeTree.Unescaped.symbolTable`,
  `unescaped_disassembly`: The tables of a program.
* `unescaped_words`: The words of lines without escapes.
-/

namespace UnrollAsm

/-! ## Texts -/

namespace Text

@[simp] theorem unescaped_append {s s' : String} :
    Unescaped (s ++ s') ↔ Unescaped s ∧ Unescaped s' := by
  unfold Unescaped
  rw [String.toList_append, List.mem_append, not_or]

@[simp] theorem unescaped_toString {s : String} : Unescaped (toString s) ↔ Unescaped s := Iff.rfl

-- It is enough that all characters are of a kind that escapes are not.
theorem unescaped_of_forall (kind : Char → Bool) {s : String} (hkind : ¬ kind '\x1b')
    (h : ∀ c ∈ s.toList, kind c) : Unescaped s :=
  fun hmem => hkind (h _ hmem)

@[simp] theorem unescaped_repr (n : Nat) : Unescaped n.repr := by
  refine unescaped_of_forall Char.isDigit (by decide) fun c hc => ?_
  rw [Nat.toList_repr] at hc
  exact Nat.isDigit_of_mem_toDigits (by decide) (by decide) hc

@[simp] theorem unescaped_decimal (v : Int32) : Unescaped (decimal v) := by
  unfold decimal
  rw [Int.toString_eq_repr, Int.repr_eq_if]
  split
  · exact unescaped_repr _
  · exact unescaped_append.2 ⟨by decide, unescaped_repr _⟩

@[simp] theorem unescaped_blanks (n : Nat) : Unescaped (String.ofList (List.replicate n ' ')) := by
  refine unescaped_of_forall (· == ' ') (by decide) fun c hc => ?_
  rw [String.toList_ofList] at hc
  exact beq_iff_eq.2 (List.eq_of_mem_replicate hc)

@[simp] theorem unescaped_padStart {width : Nat} {s : String} :
    Unescaped (padStart width s) ↔ Unescaped s := by
  simp [padStart]

@[simp] theorem unescaped_padEnd {width : Nat} {s : String} :
    Unescaped (padEnd width s) ↔ Unescaped s := by
  simp [padEnd]

theorem unescaped_trim {s : String} (h : Unescaped s) : Unescaped (trim s) := by
  unfold Unescaped trim trimList trimEndList
  rw [String.toList_ofList]
  intro hmem
  have hinner := (List.dropWhile_sublist _).subset (List.mem_reverse.1 hmem)
  exact h ((List.dropWhile_sublist _).subset (List.mem_reverse.1 hinner))

end Text

@[simp] theorem ScopeId.unescaped_label (s : ScopeId) : Text.Unescaped s.label := by
  unfold ScopeId.label
  split
  · decide
  · simp +decide

@[simp] theorem Address.unescaped_text (a : Address) : Text.Unescaped a.text := by
  unfold Address.text
  simp +decide

@[simp] theorem Bounds.unescaped_text (b : Bounds) : Text.Unescaped b.text := by
  unfold Bounds.text
  simp +decide

@[simp] theorem LoopHeader.unescaped_text (h : LoopHeader) : Text.Unescaped h.text := by
  unfold LoopHeader.text
  simp +decide

@[simp] theorem Command.unescaped_text (c : Command) : Text.Unescaped c.text := by
  unfold Command.text
  cases c <;> simp +decide

@[simp] theorem Action.unescaped_text (a : Action) : Text.Unescaped a.text := by
  unfold Action.text
  cases a with
  | emit command => exact command.unescaped_text
  | fold op first second => cases op <;> simp +decide
  | reset source target => simp +decide
  | cleared => decide

@[simp] theorem MachineWord.unescaped_text (w : MachineWord) : Text.Unescaped w.text := by
  unfold MachineWord.text
  refine Text.unescaped_append.2 ⟨by decide, ?_⟩
  refine Text.unescaped_of_forall Text.isHexDigit (by decide) fun c hc => ?_
  rw [String.toList_ofList] at hc
  exact MachineWord.isHexDigit_of_mem_digits hc

/-! ## Names -/

theorem Statement.unescaped_of_isIdentifier {token : String} (h : isIdentifier token) :
    Text.Unescaped token :=
  Text.unescaped_of_forall isNamePart (by decide) (isNamePart_of_isIdentifier h)

theorem Symbol.Proper.unescaped_name {c : Symbol} (h : c.Proper) : Text.Unescaped c.name := by
  rcases h.name with hname | ⟨v, hv⟩
  · exact Statement.unescaped_of_isIdentifier hname.1
  · rw [hv]
    exact Text.unescaped_decimal v

-- A mnemonic is a name as well.
theorem Statement.unescaped_mnemonic {number : Nat} {text mnemonic : String}
    {operands : List Operand} (h : parse number text = .ok (.command mnemonic operands)) :
    Text.Unescaped mnemonic := by
  rcases exists_tokens_of_parse h with ⟨tokens, -, htokens⟩
  cases ofTokens_eq_ok.1 htokens with
  | command hfree _ _ => exact unescaped_of_isIdentifier (isIdentifier_iff.2 hfree.1)

/-! ## Tables -/

theorem Grid.unescaped_iff {g : Grid} :
    g.Unescaped ↔ (∀ c ∈ g.titles, Text.Unescaped c.text) ∧
      ∀ row ∈ g.rows, ∀ c ∈ row, Text.Unescaped c.text := by
  unfold Unescaped cells
  rw [List.forall_mem_append]
  refine and_congr_right fun _ => ?_
  simp only [List.mem_flatten]
  exact ⟨fun h row hrow c hc => h c ⟨row, hrow, hc⟩, fun h c ⟨row, hrow, hc⟩ => h row hrow c hc⟩

@[simp] theorem Cell.text_left (s : String) : (left s).text = s := rfl

@[simp] theorem Cell.text_right (s : String) : (right s).text = s := rfl

/-- There is no escape character in the names of symbols and the lines of
    instructions. -/
structure ScopeTree.Unescaped (t : ScopeTree) : Prop where
  symbols : ∀ a c, t.item? a = some (.symbol c) → Text.Unescaped c.name
  instructions : ∀ a i, t.item? a = some (.instruction i) → Text.Unescaped i.source.text

namespace ScopeTree

variable {t : ScopeTree}

/-- What has been read from lines without escapes has none in it. -/
theorem unescaped_of_lines {given : List (Nat × String)} (hsourced : Sourced given t)
    (hunmixed : Unmixed given t) (hlines : ∀ line ∈ given, Text.Unescaped line.2) :
    t.Unescaped where
  symbols a c hc := (hunmixed.symbols a c hc).unescaped_name
  instructions a i hi := by
    rcases hsourced.instructions a i hi with ⟨line, hline, hsource⟩
    rw [hsource]
    exact Text.unescaped_trim (hlines line hline)

-- The items of a scope stand at the addresses that the tables give them.
theorem item?_of_mem_zipIdx {scope : Scope} {s : Nat} (hscope : (scope, s) ∈ t.scopes.toList.zipIdx)
    {item : Item} {k : Nat} (hitem : (item, k) ∈ scope.items.toList.zipIdx) :
    t.item? ⟨s, k⟩ = some item := by
  have hs := List.mem_zipIdx_iff_getElem?.1 hscope
  have hk := List.mem_zipIdx_iff_getElem?.1 hitem
  rw [Array.getElem?_toList] at hs hk
  unfold item?
  rw [hs]
  exact hk

namespace Unescaped

theorem item (h : t.Unescaped) {a : Address} {i : Item} (hi : t.item? a = some i) :
    Text.Unescaped i.text := by
  cases i with
  | symbol c =>
      have hname := h.symbols a c hi
      change Text.Unescaped c.text
      unfold Symbol.text
      cases c.kind <;> simp +decide [hname]
  | instruction i =>
      have hline := h.instructions a i hi
      change Text.Unescaped i.text
      unfold Instruction.text
      simp +decide [hline]
  | loop body => exact ScopeId.unescaped_label body

/-- The tables of the scopes. -/
theorem scopeTables (h : t.Unescaped) : ∀ g ∈ t.scopeTables, g.Unescaped := by
  intro g hg
  rcases List.mem_map.1 hg with ⟨⟨scope, s⟩, hscope, rfl⟩
  refine Grid.unescaped_iff.2 ⟨?_, fun row hrow => ?_⟩
  · unfold scopeTable
    cases hheader : scope.header with
    | none => simp +decide [hheader]
    | some header => simp +decide [hheader]
  · rcases List.mem_map.1 hrow with ⟨⟨item, k⟩, hitem, rfl⟩
    have htext := h.item (item?_of_mem_zipIdx hscope hitem)
    simp [htext]

/-- The table of the symbols. -/
theorem symbolTable (h : t.Unescaped) : t.symbolTable.Unescaped := by
  refine Grid.unescaped_iff.2 ⟨?_, fun row hrow => ?_⟩
  · unfold ScopeTree.symbolTable
    simp +decide
  · rcases List.mem_flatMap.1 hrow with ⟨⟨scope, s⟩, hscope, hrow⟩
    rcases List.mem_filterMap.1 hrow with ⟨⟨item, k⟩, hitem, hrow⟩
    have hat := item?_of_mem_zipIdx hscope hitem
    cases item with
    | symbol c =>
        have hname := h.symbols _ c hat
        have hkind : Text.Unescaped c.kind.label := by cases c.kind <;> decide
        cases hrow
        simp [hname, hkind]
    | instruction _ => cases hrow
    | loop _ => cases hrow

end Unescaped

end ScopeTree

/-- The table of words, if neither their lines nor the mnemonics that are found for
    them have escapes. -/
theorem unescaped_disassembly {target : Target} {words : List EmittedWord}
    (h : ∀ w ∈ words, Text.Unescaped w.source.text ∧
      Text.Unescaped (((target.table w.cls).mnemonic? w.machineId).getD "?")) :
    (disassembly target words).Unescaped := by
  refine Grid.unescaped_iff.2 ⟨?_, fun row hrow => ?_⟩
  · unfold disassembly
    simp +decide
  · rcases List.mem_map.1 hrow with ⟨⟨w, k⟩, hw, rfl⟩
    rcases h w (List.fst_mem_of_mem_zipIdx hw) with ⟨hline, hmnemonic⟩
    simp +decide [hline, hmnemonic]

/-- The words of a session whose lines have no escapes. -/
theorem unescaped_words {s : Source} {target : Target} (hsource : Target.ofSource s = .ok target)
    {calls : List Call} (hlines : ∀ line ∈ linesOf calls, Text.Unescaped line.2)
    {words : List EmittedWord} (hok : (history target calls).assemble.answer = .ok words) :
    (disassembly target words).Unescaped := by
  refine unescaped_disassembly fun w hw => ?_
  rcases exists_command_of_mem_words hok hw with
    ⟨number, text, mnemonic, _, _, _, hmem, hline, hparse, hresolve, -, -, -⟩
  constructor
  · rw [hline]
    exact Text.unescaped_trim (hlines _ hmem)
  · -- What is looked up is the mnemonic of the line.
    rw [Target.mnemonic?_of_resolve? hsource hresolve]
    exact Statement.unescaped_mnemonic hparse

end UnrollAsm
