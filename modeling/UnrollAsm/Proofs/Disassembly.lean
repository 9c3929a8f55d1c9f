import UnrollAsm.Proofs.Reading.Instructions
import UnrollAsm.Proofs.Session.Trees
import UnrollAsm.Proofs.Statement.Trimming
import UnrollAsm.Proofs.Target.Mnemonics
import UnrollAsm.Proofs.Word.RoundTrip

/-!
# What a Disassembly Shows

A word leaves the assembler with the class and the machine id of a mnemonic and
with the line that it comes from, and the mnemonic itself is forgotten. The
disassembly looks it up again. What it finds is the mnemonic that was written, and
all that is kept with a word agrees with it: reading the line once more gives the
same command, and the machine id can be taken out of the packed half.

A mnemonic and a machine id may both stand in several tables. The first table that
lists the mnemonic decides on the class when the line is read, and the class is
kept, so that the machine id is looked up in that very table, where it stands only
once.

## Main definitions

* `Written`: The commands of a tree are those of the lines that have been read.
* `Recovers`: A word tells the mnemonic of its line.

## Theorems

* `written_lasting`: The commands of a session are those of its lines.
* `machineId_decode_encode`: The machine id of an encoded word.
* `Trace.mem_words`, `exists_command_of_mem_words`: Where words come from.
* `disassembly_recovers`: The words of a session tell their mnemonics.
-/

namespace UnrollAsm

/-- Every command stands in a line that has been read, and has the class and the
    machine id of the mnemonic there. -/
def Written (target : Target) (given : List (Nat × String)) (t : ScopeTree) : Prop :=
  ∀ m i command, t.item? m = some (.instruction i) → i.action = .emit command →
    ∃ number text mnemonic operands, (number, text) ∈ given ∧ i.source = .of number text ∧
      Statement.parse number text = .ok (.command mnemonic operands) ∧
      target.resolve? mnemonic = some (command.instructionClass, command.machineId)

/-- The word comes from a line with the given mnemonic, and what is kept with the
    word tells so. -/
structure Recovers (target : Target) (given : List (Nat × String)) (w : EmittedWord)
    (mnemonic : String) : Prop where
  /-- The line as it is kept is the command that the line was when it was read. -/
  line : ∃ number text operands, (number, text) ∈ given ∧ w.source = .of number text ∧
    Statement.parse number text = .ok (.command mnemonic operands) ∧
    Statement.parse w.source.number w.source.text = .ok (.command mnemonic operands)
  resolved : target.resolve? mnemonic = some (w.cls, w.machineId)
  lookup : (target.table w.cls).mnemonic? w.machineId = some mnemonic
  machineId : (w.word.decode target.layout).machineId = w.machineId

/-! ## Lines -/

section Lines

variable {target : Target} {given more : List (Nat × String)} {t u : ScopeTree}

theorem Written.mono (h : Written target given t) (hsub : given ⊆ more) :
    Written target more t := by
  intro m i command hm haction
  rcases h m i command hm haction with ⟨number, text, mnemonic, operands, hmem, hrest⟩
  exact ⟨number, text, mnemonic, operands, hsub hmem, hrest⟩

theorem written_invariant (target : Target) (given lines : List (Nat × String)) :
    Reading.InvariantOn target lines fun t _ => Written target (given ++ lines) t where
  stocks hsound h hstock m i command hm haction := by
    rcases hstock.item_cases hsound.current hm with hm | ⟨v, hv⟩
    · exact h m i command hm haction
    · cases hv
  grows hline hparse hsound h hgrows m i command hm haction := by
    rcases hgrows.instructions hsound.current with ⟨new, hnew⟩
    rcases hnew m i hm with hm | ⟨-, hsource, hcommand⟩
    · exact h m i command hm haction
    · rcases hcommand command haction with ⟨mnemonic, operands, rfl, hresolve⟩
      exact ⟨_, _, mnemonic, operands, List.mem_append_right given hline, hsource, hparse,
        hresolve⟩

/-- The commands of a session are those of its lines. -/
theorem written_lasting (target : Target) : Lasting target (Written target) where
  empty m i command hm := by
    rw [item?_empty] at hm
    cases hm
  read := by
    intro given t lines hrooted h
    have hstart : Written target (given ++ lines) t :=
      h.mono (List.subset_append_left given lines)
    rcases (written_invariant target given lines).run hrooted hstart with ⟨-, hafter⟩
    exact hafter
  unroll h hskel m i command hm := by
    rcases ScopeTree.exists_item hskel.symm hm with ⟨j, hj, hjskel⟩
    obtain rfl := Item.eq_of_skeleton_eq rfl hjskel
    exact h m i command hj
  clear h m i command hm haction := by
    -- There are no commands any more.
    rw [ScopeTree.item?_clear, Option.map_eq_some_iff] at hm
    rcases hm with ⟨j, -, hclear⟩
    cases j with
    | symbol _ => cases hclear
    | instruction _ =>
        cases hclear
        cases haction
    | loop _ => cases hclear

end Lines

/-! ## Words -/

section Words

variable {target : Target} {t : ScopeTree}

-- In the table that a mnemonic was found in, its machine id stands only once.
theorem Target.mnemonic?_of_resolve? {s : Source} (hsource : ofSource s = .ok target)
    {mnemonic : String} {cls : InstructionClass} {id : Nat}
    (h : target.resolve? mnemonic = some (cls, id)) :
    (target.table cls).mnemonic? id = some mnemonic :=
  (bijective_of_ofSource hsource cls).mnemonic?_iff.2 (mem_entries_of_resolve? h)

-- Arithmetic has no words.
theorem Command.instructionClass_ne_arithmetic (command : Command) :
    command.instructionClass ≠ .arithmetic := by
  intro h
  cases command <;> cases h

theorem onLine_eq_ok {α : Type} {line : Nat} {r : Except RangeCause α} {a : α}
    (h : ScopeTree.onLine line r = .ok a) : r = .ok a := by
  unfold ScopeTree.onLine at h
  cases r with
  | error cause => cases h
  | ok b =>
      cases h
      rfl

open Encode in
/-- The lower half of a word is packed with the machine id of its command. -/
theorem exists_pack_of_encode {line : Nat} {command : Command} {word : MachineWord}
    (h : t.encode target line command = .ok word) :
    ∃ m n, word.instruction.toNat = pack target.layout m n command.machineId := by
  unfold ScopeTree.encode at h
  cases command with
  | noOperand id =>
      have hword := onLine_eq_ok h
      unfold encodeNone at hword
      rcases exists_of_bind_eq_ok hword with ⟨half, hhalf, hword⟩
      cases hword
      refine ⟨0, 0, (instructionHalf_eq_ok hhalf).trans ?_⟩
      unfold pack
      rw [Nat.zero_shiftLeft, Nat.zero_shiftLeft, Nat.zero_or, Nat.zero_or]
      rfl
  | oneOperand a id =>
      rcases exists_of_bind_eq_ok h with ⟨cache, -, h⟩
      rcases exists_of_bind_eq_ok h with ⟨x, -, h⟩
      have hword := onLine_eq_ok h
      unfold encodeOne at hword
      rcases exists_of_bind_eq_ok hword with ⟨m, -, hword⟩
      rcases exists_of_bind_eq_ok hword with ⟨half, hhalf, hword⟩
      cases hword
      exact ⟨m, 0, instructionHalf_eq_ok hhalf⟩
  | twoOperand a b id =>
      rcases exists_of_bind_eq_ok h with ⟨cache, -, h⟩
      rcases exists_of_bind_eq_ok h with ⟨x, -, h⟩
      rcases exists_of_bind_eq_ok h with ⟨y, -, h⟩
      have hword := onLine_eq_ok h
      unfold encodeTwo at hword
      rcases exists_of_bind_eq_ok hword with ⟨address, -, hword⟩
      rcases exists_of_bind_eq_ok hword with ⟨m, -, hword⟩
      rcases exists_of_bind_eq_ok hword with ⟨half, hhalf, hword⟩
      cases hword
      exact ⟨m, target.wildcard, instructionHalf_eq_ok hhalf⟩
  | threeOperand a b c id =>
      rcases exists_of_bind_eq_ok h with ⟨cache, -, h⟩
      rcases exists_of_bind_eq_ok h with ⟨x, -, h⟩
      rcases exists_of_bind_eq_ok h with ⟨y, -, h⟩
      rcases exists_of_bind_eq_ok h with ⟨z, -, h⟩
      rcases encodeThree_eq_ok (onLine_eq_ok h) with ⟨m, n, -, -, -, -, -, hpack⟩
      exact ⟨m, n, hpack⟩

/-- The machine id can be taken out of a word if it fits in its field. -/
theorem machineId_decode_encode {line : Nat} {command : Command} {word : MachineWord}
    (hid : command.machineId < 2 ^ target.layout.opcodeBits)
    (h : t.encode target line command = .ok word) :
    (word.decode target.layout).machineId = command.machineId := by
  rcases exists_pack_of_encode h with ⟨m, n, hpack⟩
  unfold MachineWord.decode
  simp only [hpack, Encode.id_pack hid]

/-- What a command has done if it has not failed. -/
theorem Unrolling.perform_emit_ok {i : Instruction} {w v : Work (Array EmittedWord)}
    {command : Command} (hi : i.action = .emit command)
    (h : (Unrolling.perform target i).exec w = (.ok (), v)) :
    ∃ word, w.tree.encode target i.source.number command = .ok word ∧
      v.own = w.own.push ⟨word, command.instructionClass, command.machineId, i.source⟩ := by
  rcases i with ⟨s, source, action⟩
  cases hi
  rw [emit_exec] at h
  cases hencode : w.tree.encode target source.number command with
  | error e =>
      rw [hencode] at h
      cases h
  | ok word =>
      rw [hencode] at h
      cases h
      exact ⟨word, rfl, rfl⟩

/-- A word that is there after a trace was there before, or a command of the
    program has been encoded as it. -/
theorem Trace.mem_words {w v : Work (Array EmittedWord)} {l : List Address}
    (h : Trace t target w l v) {word : EmittedWord} (hword : word ∈ v.own) :
    word ∈ w.own ∨ ∃ m i command u, t.item? m = some (.instruction i) ∧
      i.action = .emit command ∧ word.source = i.source ∧
      word.cls = command.instructionClass ∧ word.machineId = command.machineId ∧
      ScopeTree.encode u target i.source.number command = .ok word.word := by
  induction h with
  | start => exact Or.inl hword
  | @perform _ y y' m i _ _ hm hexec ih =>
      rcases Unrolling.perform_cases hexec with
        ⟨command, _, hi, -⟩ | ⟨_, _, _, _, _, _, _, _, rfl⟩ | ⟨_, _, _, _, _, _, _, rfl⟩
      · rcases Unrolling.perform_emit_ok hi hexec with ⟨x, hencode, hown⟩
        rw [hown] at hword
        rcases Array.mem_push.1 hword with hword | rfl
        · exact ih hword
        · exact Or.inr ⟨m, i, command, y.tree, hm, hi, rfl, rfl, rfl, hencode⟩
      · exact ih hword
      · exact ih hword
  | note _ _ ih => exact ih hword
  | header _ _ _ ih => exact ih hword

end Words

/-! ## Sessions -/

-- The third cell of a row is the mnemonic that is found for its word.
theorem row_disassembly (target : Target) {words : List EmittedWord} {k : Nat} {w : EmittedWord}
    (hw : words[k]? = some w) :
    ∃ row, (disassembly target words).rows[k]? = some row ∧
      row[2]? = some (.left (((target.table w.cls).mnemonic? w.machineId).getD "?")) := by
  unfold disassembly
  dsimp only
  rw [List.getElem?_map, List.getElem?_zipIdx, hw]
  exact ⟨_, rfl, rfl⟩

/-- Every word that a session is assembled into is that of a command in one of its
    lines. -/
theorem exists_command_of_mem_words {target : Target} {calls : List Call}
    {words : List EmittedWord} (hok : (history target calls).assemble.answer = .ok words)
    {w : EmittedWord} (hw : w ∈ words) :
    ∃ number text mnemonic operands command u, (number, text) ∈ linesOf calls ∧
      w.source = .of number text ∧
      Statement.parse number text = .ok (.command mnemonic operands) ∧
      target.resolve? mnemonic = some (w.cls, w.machineId) ∧
      w.cls = command.instructionClass ∧ w.machineId = command.machineId ∧
      ScopeTree.encode u target w.source.number command = .ok w.word := by
  have hready := ready_of_mem_words hok hw
  rcases hready.assemble_ok hok with ⟨l, v, -, htrace, -, rfl⟩
  rcases htrace.mem_words (Array.mem_def.2 hw) with hold |
    ⟨m, i, command, u, hm, haction, hline, hcls, hid, hencode⟩
  · cases Array.not_mem_empty w hold
  rcases (written_lasting target).history calls m i command hm haction with
    ⟨number, text, mnemonic, operands, hmem, hsourceline, hparse, hresolve⟩
  refine ⟨number, text, mnemonic, operands, command, u, hmem, hline.trans hsourceline, hparse,
    ?_, hcls, hid, ?_⟩
  · rw [hcls, hid]
    exact hresolve
  · rw [hline]
    exact hencode

/-- For every target that has been read from a description and after any calls: if
    the session can be assembled, every word tells the mnemonic of the line that it
    comes from, and the disassembly shows this mnemonic. -/
theorem disassembly_recovers {s : Source} {target : Target}
    (hsource : Target.ofSource s = .ok target) (calls : List Call) {words : List EmittedWord}
    (hok : (history target calls).assemble.answer = .ok words) :
    ∀ (k : Nat) w, words[k]? = some w → ∃ mnemonic, Recovers target (linesOf calls) w mnemonic ∧
      ∃ row, (disassembly target words).rows[k]? = some row ∧ row[2]? = some (.left mnemonic) := by
  intro k w hw
  rcases exists_command_of_mem_words hok (List.mem_of_getElem? hw) with
    ⟨number, text, mnemonic, operands, command, u, hmem, hline, hparse, hresolve, hcls, hid,
      hencode⟩
  have hlookup := Target.mnemonic?_of_resolve? hsource hresolve
  have hfits : command.machineId < 2 ^ target.layout.opcodeBits := by
    rw [hcls, hid] at hresolve
    exact (Target.accepted_of_ofSource hsource).id_lt command.instructionClass_ne_arithmetic
      (mem_entries_of_resolve? hresolve)
  have hkept : Statement.parse w.source.number w.source.text =
      .ok (.command mnemonic operands) := by
    rw [hline]
    exact Statement.parse_trim hparse
  refine ⟨mnemonic, ⟨⟨number, text, operands, hmem, hline, hparse, hkept⟩, hresolve, hlookup, ?_⟩,
    ?_⟩
  · rw [hid]
    exact machineId_decode_encode hfits hencode
  · rcases row_disassembly target hw with ⟨row, hrow, hcell⟩
    rw [hlookup] at hcell
    exact ⟨row, hrow, hcell⟩

/-- A description in which one mnemonic and one machine id stand in two tables. -/
def sharedNames : Document where
  entries :=
    [⟨"Assembler_Property", "OpCodeSize", "4"⟩, ⟨"Assembler_Property", "PlaceSize", "3"⟩,
     ⟨"VCGRA_Property", "Available_Memory", "1023"⟩,
     ⟨"VCGRA_Property", "Num_Dic_Lines", "8"⟩, ⟨"VCGRA_Property", "Num_Dic_Places", "4"⟩,
     ⟨"VCGRA_Property", "Num_Doc_Lines", "4"⟩, ⟨"VCGRA_Property", "Num_Doc_Places", "2"⟩,
     ⟨"OneOperator", "SETDIC", "3"⟩, ⟨"OneOperator", "SETDOC", "4"⟩,
     ⟨"TwoOperator", "SETDIC", "5"⟩, ⟨"TwoOperator", "LOAD", "3"⟩]

/-- A program that uses both, in a loop and with blanks around the lines. -/
def sharedNamesLines : List (Nat × String) :=
  [(1, "VAR x 1"), (2, "LOOP 0 2 1 "), (3, "\tSETDIC x "), (4, " LOAD 7, x"), (5, "POOL")]

theorem disassembly_sharedNames :
    ∃ target words, Target.ofSource sharedNames.source = .ok target ∧
      (history target [.parse sharedNamesLines]).assemble.answer = .ok words ∧
      words.map (fun w => (w.cls, w.machineId)) =
        [(.oneOperand, 3), (.twoOperand, 3), (.oneOperand, 3), (.twoOperand, 3)] ∧
      ∀ (k : Nat) w, words[k]? = some w →
        ∃ mnemonic, Recovers target sharedNamesLines w mnemonic ∧
          ∃ row, (disassembly target words).rows[k]? = some row ∧
            row[2]? = some (.left mnemonic) := by
  have hdata : (Target.ofSource sharedNames.source).toOption.map (fun t =>
      (history t [.parse sharedNamesLines]).assemble.answer.toOption.map
        (List.map fun w => (w.cls, w.machineId))) =
      some (some [(.oneOperand, 3), (.twoOperand, 3), (.oneOperand, 3), (.twoOperand, 3)]) := by
    decide +kernel
  cases hsource : Target.ofSource sharedNames.source with
  | error cause =>
      rw [hsource] at hdata
      cases hdata
  | ok target =>
      rw [hsource] at hdata
      cases hok : (history target [.parse sharedNamesLines]).assemble.answer with
      | error e =>
          simp only [Except.toOption, Option.map_some, hok] at hdata
          cases hdata
      | ok words =>
          simp only [Except.toOption, Option.map_some, hok, Option.some.injEq] at hdata
          exact ⟨target, words, rfl, hok, hdata, disassembly_recovers hsource _ hok⟩

end UnrollAsm
