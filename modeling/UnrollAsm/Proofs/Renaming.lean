import Mathlib.Logic.Equiv.Basic
import UnrollAsm.Proofs.Renaming.Trees
import UnrollAsm.Proofs.Session.FailStop
import UnrollAsm.Proofs.Unrolling.Simulation

/-!
# Renaming a Program

The names that a program gives its constants and variables are its own affair. If
they are renamed throughout, the program is read with the same number of
statements, and assembles to the same words from the same lines. If it has a
mistake, then the renamed one has a mistake of the same kind on the same line.

The two programs are read and unrolled side by side. Their trees are always the
same up to names. Where the reader searches for a name, it finds the same address
in both; from then on, addresses stand for the names, and no instruction knows
under which name its operand was found. An integer is searched for under its
decimal text, which no renaming touches and no name is renamed to.

## Main definitions

* `EmittedWord.gist`, `SameGist`: What a word has apart from the text of its line.
* `Assembler.Renames`: A session is another one, renamed.

## Theorems

* `Reading.resolve_renamed`: An operand and the renamed one have one address.
* `Reading.readProgram_renamed`: Reading a program and the renamed one.
* `Unrolling.walk_renamed`: Unrolling a program and the renamed one.
* `Assembler.Renames.parse`, `Assembler.Renames.assemble`: Calls of both sessions.
* `assemble_renamed`: A program and the renamed one, from a new session on.
-/

namespace UnrollAsm

open PassM

/-- What a word has apart from the text of its line. -/
def EmittedWord.gist (w : EmittedWord) : MachineWord × InstructionClass × Nat × Nat :=
  (w.word, w.cls, w.machineId, w.source.number)

/-! ## Reading -/

namespace Reading

variable {ρ : Renaming} {target : Target}

theorem append_renamed {i j : Item} (hij : i.mask ρ.token = j.mask id) :
    (ρ.mirror Eq).Reflects Eq (append i) (append j) :=
  Mirror.Reflects.own.next fun s =>
    .change fun _ _ (h : ScopeTree.Renames ρ.token _ _) => h.add s hij

theorem appendAction_renamed {source source' : SourceLine}
    (hnumber : source.number = source'.number) (action : Action) :
    (ρ.mirror Eq).Reflects Eq (appendAction source action) (appendAction source' action) := by
  refine Mirror.Reflects.own.next fun s => ?_
  have hmask : (Item.instruction ⟨s, source, action⟩).mask ρ.token =
      (Item.instruction ⟨s, source', action⟩).mask id := by
    simp only [Item.mask, SourceLine.mask, hnumber]
  exact (append_renamed hmask).next fun _ => .pure rfl

theorem lookup_renamed (name : String) :
    (ρ.mirror Eq).Reflects Eq (lookup name) (lookup (ρ.token name)) := by
  refine Mirror.Reflects.own.next fun s => .ask fun t u (h : ScopeTree.Renames ρ.token t u) => ?_
  rw [h.find ρ.token_injective]
  exact ScopeTree.Renames.same _

/-- An operand and the renamed one have the same address. -/
theorem resolve_renamed (line : Nat) (op : Operand) :
    (ρ.mirror Eq).Reflects Eq (resolve line op) (resolve line (op.rename ρ.token)) := by
  cases op with
  | literal value =>
      -- The decimal text is not renamed.
      have hdecimal : ρ.token (Text.decimal value) = Text.decimal value := ρ.token_decimal value
      have hlookup : (ρ.mirror Eq).Reflects Eq (lookup (Text.decimal value))
          (lookup (ρ.token (Text.decimal value))) := lookup_renamed _
      rw [hdecimal] at hlookup
      refine hlookup.next fun found => ?_
      cases found with
      | some a => exact .pure rfl
      | none => exact append_renamed (congrArg (fun x => Item.symbol ⟨.const, x, value⟩) hdecimal)
  | name name =>
      refine (lookup_renamed name).next fun found => ?_
      cases found with
      | some a => exact .pure rfl
      | none => exact .throw rfl

theorem declareConst_renamed (line : Nat) (name : String) (value : Int32) :
    (ρ.mirror Eq).Reflects Eq (declareConst line name value)
      (declareConst line (ρ.token name) value) := by
  refine Mirror.Reflects.own.next fun s => ?_
  have hfound : (ρ.mirror Eq).Reflects Eq
      (ask fun t => orFault (t.findLocal s name) : ReadM (Option Address))
      (ask fun t => orFault (t.findLocal s (ρ.token name))) := by
    refine .ask fun t u (h : ScopeTree.Renames ρ.token t u) => ?_
    rw [h.findLocal ρ.token_injective]
    exact ScopeTree.Renames.same _
  refine hfound.next fun found => ?_
  cases found with
  | some a =>
      refine Mirror.Reflects.bind (.ask fun t u (h : ScopeTree.Renames ρ.token t u) => h.item a)
        fun _ _ _ => .throw rfl
  | none => exact (append_renamed rfl).next fun _ => .pure rfl

theorem value_renamed (a : Address) (line : Nat) :
    (ρ.mirror Eq).Reflects Eq (ask fun t => t.valueOf a line : ReadM Int32)
      (ask fun t => t.valueOf a line) :=
  .ask fun _ _ (h : ScopeTree.Renames ρ.token _ _) => h.valueOf a line

theorem declareVar_renamed (line : Nat) (name : String) (source : Address) :
    (ρ.mirror Eq).Reflects Eq (declareVar line name source)
      (declareVar line (ρ.token name) source) :=
  (value_renamed source line).next fun _ => append_renamed rfl

theorem targetVar_renamed (line : Nat) (name : String) (source : Address) :
    (ρ.mirror Eq).Reflects Eq (targetVar line name source)
      (targetVar line (ρ.token name) source) := by
  refine Mirror.Reflects.own.next fun s => (lookup_renamed name).next fun found => ?_
  cases found with
  | none => exact declareVar_renamed _ _ _
  | some a =>
      refine Mirror.Reflects.bind (.ask fun t u (h : ScopeTree.Renames ρ.token t u) => h.item a)
        fun i j hij => ?_
      have hvar : i.symbol?.any Symbol.isVar = j.symbol?.any Symbol.isVar := by
        rcases Item.mask_cases hij with ⟨c, rfl, rfl⟩ | ⟨_, _, _, _, -, rfl, rfl⟩ | ⟨_, rfl, rfl⟩
        · rfl
        · rfl
        · rfl
      rw [hvar]
      split
      · exact .pure rfl
      · split
        · exact .throw rfl
        · exact declareVar_renamed _ _ _

theorem openLoop_renamed {source source' : SourceLine} (hnumber : source.number = source'.number)
    (start stop step : Operand) :
    (ρ.mirror Eq).Reflects Eq (openLoop source start stop step)
      (openLoop source' (start.rename ρ.token) (stop.rename ρ.token) (step.rename ρ.token)) := by
  unfold openLoop
  dsimp only
  rw [hnumber]
  refine (resolve_renamed _ start).next fun a => (resolve_renamed _ stop).next fun b =>
    (resolve_renamed _ step).next fun c => ?_
  refine (value_renamed a _).next fun x => (value_renamed b _).next fun y =>
    (value_renamed c _).next fun z => ?_
  have hheader : (LoopHeader.create a b c ⟨x, y, z⟩ source).map LoopHeader.mask =
      (LoopHeader.create a b c ⟨x, y, z⟩ source').map LoopHeader.mask := by
    have hmask : source.mask = source'.mask := congrArg (SourceLine.mk · "") hnumber
    rw [← LoopHeader.create_mask, hmask, LoopHeader.create_mask]
  refine Mirror.Reflects.bind (.ofExcept (ScopeTree.Renames.masked hheader))
    fun header header' hmask => Mirror.Reflects.own.next fun s => ?_
  refine Mirror.Reflects.next
    (.change fun t u (h : ScopeTree.Renames ρ.token t u) => h.openLoop s hmask) fun body => ?_
  exact (Mirror.Reflects.note _ _).next fun _ => .setOwn fun _ _ _ => rfl

theorem closeLoop_renamed (line : Nat) :
    (ρ.mirror Eq).Reflects Eq (closeLoop line) (closeLoop line) := by
  refine Mirror.Reflects.own.next fun s => ?_
  refine Mirror.Reflects.next (.ask fun t u (h : ScopeTree.Renames ρ.token t u) => h.parent? s)
    fun parent => ?_
  cases parent with
  | some p => exact (Mirror.Reflects.setOwn fun _ _ _ => rfl).next fun _ => .note _ _
  | none => exact .throw rfl

theorem command_renamed {source source' : SourceLine} (hnumber : source.number = source'.number)
    (mnemonic : String) (operands : List Operand) :
    (ρ.mirror Eq).Reflects Eq (command target source mnemonic operands)
      (command target source' mnemonic (operands.map (Operand.rename ρ.token))) := by
  unfold command
  dsimp only
  rw [hnumber, List.length_map]
  cases target.resolve? mnemonic with
  | none => exact .throw rfl
  | some entry =>
      dsimp only
      split
      · exact .throw rfl
      · have hoperands : List.Forall₂ (fun op op' => op' = op.rename ρ.token) operands
            (operands.map (Operand.rename ρ.token)) := by
          rw [List.forall₂_map_right_iff, List.forall₂_same]
          exact fun _ _ => rfl
        have haddresses : (ρ.mirror Eq).Reflects (List.Forall₂ Eq)
            (operands.mapM (resolve source'.number))
            ((operands.map (Operand.rename ρ.token)).mapM (resolve source'.number)) := by
          refine Mirror.Reflects.mapM hoperands ?_
          rintro op _ rfl
          exact resolve_renamed _ op
        refine haddresses.bind fun as bs has => ?_
        obtain rfl : as = bs := List.forall₂_eq_eq_eq ▸ has
        cases action? entry.2 mnemonic entry.1 as with
        | some action => exact appendAction_renamed hnumber action
        | none => exact .throw rfl

/-- A statement and the renamed one have the same effect. -/
theorem readStatement_renamed {source source' : SourceLine}
    (hnumber : source.number = source'.number) (st : Statement) :
    (ρ.mirror Eq).Reflects Eq (readStatement target source st)
      (readStatement target source' (st.rename ρ.token)) := by
  cases st with
  | empty => exact .pure rfl
  | const name value =>
      unfold readStatement Statement.rename
      rw [hnumber]
      exact declareConst_renamed _ name value
  | var name value =>
      unfold readStatement Statement.rename
      rw [hnumber]
      exact (resolve_renamed _ value).next fun a => (targetVar_renamed _ name a).next fun b =>
        appendAction_renamed hnumber _
  | loop start stop step => exact openLoop_renamed hnumber start stop step
  | pool =>
      unfold readStatement Statement.rename
      rw [hnumber]
      exact closeLoop_renamed _
  | command mnemonic operands => exact command_renamed hnumber mnemonic operands

-- A line and the renamed one are read alike, or have a mistake of the same kind.
theorem parse_renamed {number : Nat} {text text' : String} {σ : Type} {own : σ → σ → Prop}
    (h : Statement.tokens? text' = (Statement.tokens? text).map ρ.tokens) :
    (ρ.mirror own).Matches (fun st st' => st' = st.rename ρ.token)
      (orRefuse (Statement.parse number text)) (orRefuse (Statement.parse number text')) := by
  have hparse : (Statement.parse number text').mapError Diagnostic.brief = _ := ρ.parse_eq h
  generalize Statement.parse number text = r at hparse ⊢
  generalize Statement.parse number text' = q at hparse ⊢
  cases r with
  | error d =>
      cases q with
      | error d' =>
          have hbrief : d'.brief = d.brief := Except.error.inj hparse
          exact congrArg some hbrief.symm
      | ok st' => cases hparse
  | ok st =>
      cases q with
      | error d' => cases hparse
      | ok st' => exact Except.ok.inj hparse

/-- A line and the renamed one have the same effect. -/
theorem readLine_renamed {line line' : Nat × String} (h : ρ.Relabels line line') :
    (ρ.mirror Eq).Reflects Eq (readLine target line.1 line.2)
      (readLine target line'.1 line'.2) := by
  rcases line with ⟨number, text⟩
  rcases line' with ⟨number', text'⟩
  obtain rfl : number' = number := h.number
  have hnumber : (SourceLine.of number' text).number = (SourceLine.of number' text').number := rfl
  dsimp only
  unfold readLine
  refine Mirror.Reflects.bind (.ofExcept (parse_renamed h.tokens)) ?_
  rintro st _ rfl
  refine (Mirror.Reflects.note _ _).next fun _ => ?_
  refine (readStatement_renamed hnumber st).next fun _ => .pure ?_
  have hempty : (st.rename ρ.token = .empty) = (st = .empty) := by
    cases st <;> simp [Statement.rename]
  simp only [hempty]

theorem readLines_renamed {lines lines' : List (Nat × String)}
    (h : List.Forall₂ ρ.Relabels lines lines') :
    (ρ.mirror Eq).Reflects Eq (readLines target lines) (readLines target lines') := by
  refine Mirror.Reflects.foldlM h ?_ rfl
  rintro count _ line line' rfl hline
  exact (readLine_renamed hline).next fun _ => .pure rfl

theorem finish_renamed : (ρ.mirror Eq).Reflects Eq finish finish := by
  refine Mirror.Reflects.own.next fun s => ?_
  refine Mirror.Reflects.bind (.ask fun t u (h : ScopeTree.Renames ρ.token t u) => h.scope s)
    fun a b hab => ?_
  rcases cases_of_map_eq (Scope.header_of_mask hab) with ⟨ha, hb⟩ | ⟨header, header', ha, hb, hmask⟩
  · rw [ha, hb]
    exact .pure rfl
  · have hnumber : header.mask.source.number = header'.mask.source.number := by rw [hmask]
    have hnumber : header.source.number = header'.source.number := hnumber
    rw [ha, hb]
    dsimp only
    rw [hnumber]
    exact .throw rfl

/-- A program and the renamed one are read alike. -/
theorem readProgram_renamed {lines lines' : List (Nat × String)}
    (h : List.Forall₂ ρ.Relabels lines lines') :
    (ρ.mirror Eq).Reflects Eq (readProgram target lines) (readProgram target lines') :=
  (readLines_renamed h).next fun _ => finish_renamed.next fun _ => .pure rfl

end Reading

/-! ## Unrolling -/

/-- The words are the same up to the texts of their lines. -/
def SameGist (words words' : Array EmittedWord) : Prop :=
  words.map EmittedWord.gist = words'.map EmittedWord.gist

namespace Unrolling

variable {ρ : Renaming} {target : Target}

theorem emit_renamed {word word' : EmittedWord} (h : word.gist = word'.gist) :
    (ρ.mirror SameGist).Reflects Eq (emit word) (emit word') := by
  refine (Mirror.Reflects.setOwn fun words words' hwords => ?_).next fun _ => .note _ _
  have hwords : words.map EmittedWord.gist = words'.map EmittedWord.gist := hwords
  change (words.push word).map EmittedWord.gist = (words'.push word').map EmittedWord.gist
  rw [Array.map_push, Array.map_push, hwords, h]

theorem perform_renamed (s : ScopeId) {source source' : SourceLine}
    (hnumber : source.number = source'.number) (action : Action) :
    (ρ.mirror SameGist).Reflects Eq (perform target ⟨s, source, action⟩)
      (perform target ⟨s, source', action⟩) := by
  unfold perform
  dsimp only
  rw [hnumber]
  cases action with
  | emit command =>
      refine Mirror.Reflects.next
        (.ask fun t u (h : ScopeTree.Renames ρ.token t u) => h.encode target _ command)
        fun word => emit_renamed ?_
      exact congrArg (fun number => (word, command.instructionClass, command.machineId, number))
        hnumber
  | fold op first second =>
      exact Mirror.Reflects.next
        (.change fun t u (h : ScopeTree.Renames ρ.token t u) => h.fold op first second _)
        fun value => .note _ _
  | reset a b =>
      exact Mirror.Reflects.next
        (.change fun t u (h : ScopeTree.Renames ρ.token t u) => h.reset a b _)
        fun value => .note _ _
  | cleared => exact .throw rfl

theorem setHeader_renamed (body : ScopeId) {header header' : LoopHeader}
    (hmask : header.mask = header'.mask) :
    (ρ.mirror SameGist).Reflects Eq (setHeader body header) (setHeader body header') :=
  .change fun _ _ (h : ScopeTree.Renames ρ.token _ _) => ⟨rfl, h.setHeader body hmask⟩

theorem bounds_renamed {header header' : LoopHeader} (hmask : header.mask = header'.mask) :
    (ρ.mirror SameGist).Reflects Eq (ask fun t => t.boundsOf header : UnrollM Bounds)
      (ask fun t => t.boundsOf header') :=
  .ask fun _ _ (h : ScopeTree.Renames ρ.token _ _) => h.boundsOf hmask

/-- The trips of a loop have the same effect if the bodies have. -/
theorem runTrips_renamed {walkBody walkBody' : UnrollM Unit}
    (hbody : (ρ.mirror SameGist).Reflects Eq walkBody walkBody') (body : ScopeId)
    {header header' : LoopHeader} (hmask : header.mask = header'.mask) (trip : Nat) :
    (ρ.mirror SameGist).Reflects Eq (runTrips walkBody body header trip)
      (runTrips walkBody' body header' trip) := by
  induction hroom : header.room using Nat.strongRecOn generalizing header header' trip with
  | ind room ih =>
      rw [runTrips_step, runTrips_step]
      refine (Mirror.Reflects.note _ _).next fun _ => hbody.next fun _ =>
        (bounds_renamed hmask).next fun b => ?_
      have hadvance : (header.advance b.stop b.step).map (fun x => (x.1, x.2.mask)) =
          (header'.advance b.stop b.step).map fun x => (x.1, x.2.mask) := by
        rw [← LoopHeader.advance_mask, hmask, LoopHeader.advance_mask]
      rcases outcomes_of_map_eq hadvance with ⟨d, hadv, hadv'⟩ | ⟨x, y, hadv, hadv', hxy⟩
      · rw [hadv, hadv']
        exact .throw rfl
      · rw [hadv, hadv']
        rcases x with ⟨again, next⟩
        rcases y with ⟨again', next'⟩
        rcases Prod.mk.inj hxy with ⟨rfl, hnext⟩
        cases again with
        | false => exact (setHeader_renamed body hnext).next fun _ => .pure rfl
        | true =>
            have hless : next.room < room := hroom ▸ LoopHeader.room_of_advance hadv
            exact (setHeader_renamed body hnext).next fun _ =>
              ih next.room hless hnext (trip + 1) rfl

theorem runLoop_renamed {walkScope walkScope' : ScopeId → UnrollM Unit}
    (hwalk : ∀ s, (ρ.mirror SameGist).Reflects Eq (walkScope s) (walkScope' s)) (body : ScopeId) :
    (ρ.mirror SameGist).Reflects Eq (runLoop walkScope body) (runLoop walkScope' body) := by
  refine Mirror.Reflects.bind (.ask fun t u (h : ScopeTree.Renames ρ.token t u) => h.scope body)
    fun a b hab => ?_
  rcases cases_of_map_eq (Scope.header_of_mask hab) with ⟨ha, hb⟩ | ⟨header, header', ha, hb, hmask⟩
  · rw [ha, hb]
    exact .throw rfl
  · rw [ha, hb]
    dsimp only
    refine (bounds_renamed hmask).next fun bounds => ?_
    have hbegin : (header.begin bounds).map LoopHeader.mask =
        (header'.begin bounds).map LoopHeader.mask := by
      rw [← LoopHeader.begin_mask, hmask, LoopHeader.begin_mask]
    refine Mirror.Reflects.bind (.ofExcept (ScopeTree.Renames.masked hbegin))
      fun next next' hnext => (setHeader_renamed body hnext).next fun _ => ?_
    refine Mirror.Reflects.next (.ofExcept (ScopeTree.Renames.same _)) fun expected => ?_
    exact (Mirror.Reflects.note _ _).next fun _ =>
      (runTrips_renamed (hwalk body) body hnext 1).next fun _ => .note _ _

theorem carryOut_renamed {walkScope walkScope' : ScopeId → UnrollM Unit}
    (hwalk : ∀ s, (ρ.mirror SameGist).Reflects Eq (walkScope s) (walkScope' s)) {i j : Item}
    (hij : i.mask ρ.token = j.mask id) :
    (ρ.mirror SameGist).Reflects Eq (carryOut target walkScope i)
      (carryOut target walkScope' j) := by
  rcases Item.mask_cases hij with ⟨c, rfl, rfl⟩ | ⟨s, source, source', action, hnumber, rfl, rfl⟩ |
    ⟨body, rfl, rfl⟩
  · exact .pure rfl
  · exact perform_renamed s hnumber action
  · exact runLoop_renamed hwalk body

/-- Walking over a scope has the same effect under other names. -/
theorem walk_renamed (depth : Nat) (s : ScopeId) :
    (ρ.mirror SameGist).Reflects Eq (walk target depth s) (walk target depth s) := by
  induction depth generalizing s with
  | zero => exact .throw rfl
  | succ depth ih =>
      refine Mirror.Reflects.bind (.ask fun t u (h : ScopeTree.Renames ρ.token t u) => h.scope s)
        fun a b hab => ?_
      exact Mirror.Reflects.forM (Scope.items_of_mask hab) fun i j hij => carryOut_renamed ih hij

end Unrolling

/-! ## Sessions -/

/-- The second session is the first one under other names. -/
structure Assembler.Renames (ρ : Renaming) (a b : Assembler) : Prop where
  target : a.target = b.target
  tree : ScopeTree.Renames ρ.token a.tree b.tree
  assembled : a.assembled = b.assembled
  failure : a.failure.map Diagnostic.brief = b.failure.map Diagnostic.brief

namespace Assembler.Renames

variable {ρ : Renaming} {a b : Assembler}

theorem new (ρ : Renaming) (target : Target) : Renames ρ (.new target) (.new target) :=
  ⟨rfl, .empty _, rfl, rfl⟩

theorem setTree (h : Renames ρ a b) {t u : ScopeTree} (htree : ScopeTree.Renames ρ.token t u) :
    Renames ρ { a with tree := t } { b with tree := u } :=
  ⟨h.target, htree, h.assembled, h.failure⟩

-- The first error that both remember is of the same kind, and on the same line.
theorem remember (h : Renames ρ a b) {e e' : Failure} (he : e.brief = e'.brief) :
    Renames ρ (a.remember e) (b.remember e') := by
  cases e with
  | refused d =>
      cases e' with
      | refused d' =>
          refine ⟨h.target, h.tree, h.assembled, ?_⟩
          have hbrief : d.brief = d'.brief := Option.some.inj he
          unfold Assembler.remember
          dsimp only
          rcases cases_of_map_eq h.failure with ⟨ha, hb⟩ | ⟨first, first', ha, hb, hfirst⟩
          · rw [ha, hb]
            exact congrArg some hbrief
          · rw [ha, hb]
            exact congrArg some hfirst
      | fault _ => cases he
  | fault _ =>
      cases e' with
      | refused _ => cases he
      | fault _ => exact h

/-- Both sessions answer alike when lines and the renamed lines are read, and are
    the same up to names afterwards. -/
theorem parse (h : Renames ρ a b) {lines lines' : List (Nat × String)}
    (hlines : List.Forall₂ ρ.Relabels lines lines') :
    (a.parse lines).answer.mapError Failure.brief =
        (b.parse lines').answer.mapError Failure.brief ∧
      Renames ρ (a.parse lines).after (b.parse lines').after := by
  have hread : (ρ.mirror Eq).Reflects Eq (Reading.readProgram a.target lines)
      (Reading.readProgram b.target lines') := by
    rw [← h.target]
    exact Reading.readProgram_renamed hlines
  have hrun := hread ⟨a.tree, #[], .root⟩ ⟨b.tree, #[], .root⟩ ⟨h.tree, rfl⟩
  unfold Assembler.parse Reading.run
  rw [start_eq_exec, start_eq_exec]
  generalize (Reading.readProgram a.target lines).exec ⟨a.tree, #[], .root⟩ = x at hrun ⊢
  generalize (Reading.readProgram b.target lines').exec ⟨b.tree, #[], .root⟩ = y at hrun ⊢
  rcases x with ⟨r, w⟩
  rcases y with ⟨q, v⟩
  rcases hrun with ⟨hmatch, htree, -⟩
  cases r with
  | error e =>
      cases q with
      | error e' => exact ⟨congrArg Except.error hmatch, (h.setTree htree).remember hmatch⟩
      | ok n' => exact hmatch.elim
  | ok n =>
      cases q with
      | error e' => exact hmatch.elim
      | ok n' => exact ⟨congrArg Except.ok hmatch, h.setTree htree⟩

theorem unroll (h : Renames ρ a b) :
    (a.unroll.answer.map (List.map EmittedWord.gist)).mapError Failure.brief =
      (b.unroll.answer.map (List.map EmittedWord.gist)).mapError Failure.brief := by
  have hwalk : (ρ.mirror SameGist).Reflects Eq (Unrolling.walk a.target a.tree.size .root)
      (Unrolling.walk a.target a.tree.size .root) := Unrolling.walk_renamed _ _
  have hrun := hwalk ⟨a.tree, #[], #[]⟩ ⟨b.tree, #[], #[]⟩ ⟨h.tree, rfl⟩
  unfold Assembler.unroll Unrolling.run
  rw [start_eq_exec, start_eq_exec, ← h.target, ← h.tree.size]
  generalize (Unrolling.walk a.target a.tree.size .root).exec ⟨a.tree, #[], #[]⟩ = x at hrun ⊢
  generalize (Unrolling.walk a.target a.tree.size .root).exec ⟨b.tree, #[], #[]⟩ = y at hrun ⊢
  rcases x with ⟨r, w⟩
  rcases y with ⟨q, v⟩
  rcases hrun with ⟨hmatch, -, hwords⟩
  have hwords : w.own.map EmittedWord.gist = v.own.map EmittedWord.gist := hwords
  cases r with
  | error e =>
      cases q with
      | error e' => exact congrArg Except.error hmatch
      | ok _ => exact hmatch.elim
  | ok _ =>
      cases q with
      | error e' => exact hmatch.elim
      | ok _ =>
          refine congrArg Except.ok ?_
          rw [← Array.toList_map, hwords, Array.toList_map]

/-- Both sessions assemble to the same words, up to the texts of lines, or to errors
    of one kind on one line. -/
theorem assemble (h : Renames ρ a b) :
    (a.assemble.answer.map (List.map EmittedWord.gist)).mapError Failure.brief =
      (b.assemble.answer.map (List.map EmittedWord.gist)).mapError Failure.brief := by
  rcases cases_of_map_eq h.failure with ⟨ha, hb⟩ | ⟨d, d', ha, hb, hbrief⟩
  · have hassembled := h.assembled
    cases hdone : a.assembled with
    | true =>
        rw [hdone] at hassembled
        rw [assemble_of_assembled ha hdone, assemble_of_assembled hb hassembled.symm]
    | false =>
        rw [hdone] at hassembled
        rw [assemble_of_pending ha hdone, assemble_of_pending hb hassembled.symm]
        exact h.unroll
  · rw [assemble_of_failure ha, assemble_of_failure hb]
    exact congrArg (fun brief => Except.error (some brief)) hbrief

end Assembler.Renames

/-- For every target, every renaming and all lines: renaming the texts of the lines
    renames the lines. Whatever lines the renamed ones are, both programs are read
    by a new session with the same number of statements, or an error of the same
    kind on the same line; and assembling them yields words that agree in all but the
    texts of their lines, or errors of the same kind on the same line. -/
theorem assemble_renamed (target : Target) (ρ : Renaming) (lines : List (Nat × String)) :
    List.Forall₂ ρ.Relabels lines (lines.map fun line => (line.1, ρ.text line.2)) ∧
    ∀ lines', List.Forall₂ ρ.Relabels lines lines' →
      ((Assembler.new target).parse lines).answer.mapError Failure.brief =
        ((Assembler.new target).parse lines').answer.mapError Failure.brief ∧
      (((Assembler.new target).parse lines).after.assemble.answer.map
          (List.map EmittedWord.gist)).mapError Failure.brief =
        (((Assembler.new target).parse lines').after.assemble.answer.map
          (List.map EmittedWord.gist)).mapError Failure.brief := by
  refine ⟨ρ.relabels_text lines, fun lines' hlines => ?_⟩
  rcases (Assembler.Renames.new ρ target).parse hlines with ⟨hanswer, hafter⟩
  exact ⟨hanswer, hafter.assemble⟩

/-- The names `i` and `j` change places. -/
def swapped : Renaming where
  name := Equiv.swap "i" "j"
  isIdentifier_name := by
    intro x hx
    rw [Equiv.swap_apply_def]
    split
    · decide
    · split
      · decide
      · exact hx
  injective _ _ h := (Equiv.swap "i" "j").injective h
  reserved keyword := by
    cases keyword <;> exact Equiv.swap_apply_of_ne_of_ne (by decide) (by decide)

/-- A loop that declares one of the names of its bounds anew. -/
def swappedLines : List (Nat × String) :=
  [(1, "VAR i 2"), (2, "CONST j -0, # j of the program"), (3, "LOOP j i 1"), (4, "VAR j i"),
    (5, "ADD j 1"), (6, "SETDIC j"), (7, "POOL"), (8, "DIC 16 i j")]

-- The renamed lines, and the words that both programs have in common.
theorem assemble_renamed_swappedLines :
    let lines := swappedLines.map fun line => (line.1, swapped.text line.2)
    lines = [(1, "VAR j 2"), (2, "CONST i -0, # j of the program"), (3, "LOOP i j 1"),
      (4, "VAR i j"), (5, "ADD i 1"), (6, "SETDIC i"), (7, "POOL"), (8, "DIC 16 j i")] ∧
    ((Assembler.new sampleTarget).parse lines).answer.mapError Failure.brief = .ok 8 ∧
    (((Assembler.new sampleTarget).parse lines).after.assemble.answer.map
        (List.map EmittedWord.gist)).mapError Failure.brief =
      .ok [(⟨0, 771⟩, .oneOperand, 3, 6), (⟨0, 771⟩, .oneOperand, 3, 6),
        (⟨16, 517⟩, .threeOperand, 5, 8)] := by
  rcases assemble_renamed sampleTarget swapped swappedLines with ⟨hlines, hsame⟩
  rcases hsame _ hlines with ⟨hanswer, hwords⟩
  refine ⟨by decide +kernel, ?_, ?_⟩
  · rw [← hanswer]
    decide +kernel
  · rw [← hwords]
    decide +kernel

end UnrollAsm
