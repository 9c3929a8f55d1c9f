import UnrollAsm.Proofs.Reading.Instructions
import UnrollAsm.Proofs.Session.Ready
import UnrollAsm.Proofs.Target.Mnemonics

/-!
# Which Failures Depend on Values

Three things can be wrong with an accepted program beyond the values of its
variables. Arithmetic may be given a constant to write to, or a variable where it
insists on a constant; and a command may have a mnemonic so far down its table
that no cache goes with it. All three can be told from the tree, and they make
every run fail, because no instruction is left out of a run.

Anything else that can be wrong with an accepted program is a value out of its
range. Operands lead to symbols, what a line resets is a variable, and every
machine id stands in the table that it was taken from, so the other complaints
that unrolling knows of are never heard.

## Main definitions

* `Illtyped`: Arithmetic on operands of the wrong sort.
* `Uncached`: A command that no cache goes with.
* `Verdict`: What can come of an instruction.
* `Predictable`: What is known of the failures of a session.

## Theorems

* `cache_cases`: Which commands have a cache.
* `verdict`: What comes of an instruction, in any state of the program.
* `assemble_predictable`: Only failures of range depend on values.
-/

namespace UnrollAsm

open PassM

/-- Arithmetic that is given a constant to write to, or a variable where it
    insists on a constant. -/
def Illtyped (t : ScopeTree) (i : Instruction) : Prop :=
  ∃ op first second, i.action = .fold op first second ∧
    ((∃ c, t.item? first = some (.symbol c) ∧ c.isVar = false) ∨
      (op.requiresConst = true ∧ ∃ c, t.item? second = some (.symbol c) ∧ c.isVar = true))

/-- A command with operands whose mnemonic is the third of its table, or further
    down. -/
def Uncached (target : Target) (i : Instruction) : Prop :=
  ∃ command position mnemonic, i.action = .emit command ∧
    command.instructionClass ≠ .noOperand ∧
    (target.table command.instructionClass).entries[position]? =
      some (mnemonic, command.machineId) ∧ 2 ≤ position

/-- What can come of an instruction of the program `t`. Whether it fails for
    another reason than a value is up to the instruction alone. -/
inductive Verdict (t : ScopeTree) (target : Target) (i : Instruction) :
    Except Failure Unit × Work (Array EmittedWord) → Prop
  | done {v : Work (Array EmittedWord)} :
      ¬ Illtyped t i → ¬ Uncached target i → Verdict t target i (.ok (), v)
  | range {cause : RangeCause} {v : Work (Array EmittedWord)} :
      ¬ Illtyped t i → ¬ Uncached target i →
      Verdict t target i (.error (.onLine i.source.number (.range cause)), v)
  | typing {cause : TypeCause} {v : Work (Array EmittedWord)} :
      Illtyped t i → Verdict t target i (.error (.onLine i.source.number (.typing cause)), v)
  | config {cause : ConfigCause} {v : Work (Array EmittedWord)} :
      Uncached target i →
      Verdict t target i (.error (.onLine i.source.number (.config cause)), v)
  | fault {f : Fault} {v : Work (Array EmittedWord)} : Verdict t target i (.error (.fault f), v)

/-- What can be told of the failures of a session from its tree. -/
structure Predictable (a : Assembler) : Prop where
  /-- Some instructions make every run fail. -/
  certain : ∀ m i, a.tree.item? m = some (.instruction i) →
    Illtyped a.tree i ∨ Uncached a.target i → ∃ d, a.assemble.answer = .error (.refused d)
  /-- Without them, only a value can be wrong. -/
  otherwise : (∀ m i, a.tree.item? m = some (.instruction i) →
      ¬ Illtyped a.tree i ∧ ¬ Uncached a.target i) →
    ∀ f, a.assemble.answer = .error f → ∃ line cause, f = .onLine line (.range cause)
  /-- With them, the other complaints are about one of them. -/
  kinds : ∀ f, a.assemble.answer = .error f → ∃ line cause, f = .onLine line cause ∧
    (cause.kind = .range ∨
      (cause.kind = .typing ∧ ∃ m i, a.tree.item? m = some (.instruction i) ∧
        i.source.number = line ∧ Illtyped a.tree i) ∨
      (cause.kind = .config ∧ ∃ m i, a.tree.item? m = some (.instruction i) ∧
        i.source.number = line ∧ Uncached a.target i))

/-! ## Caches -/

section Cache

variable {s : Source} {target : Target}

/-- A listed command has no cache exactly if its mnemonic is the third of its
    table, or further down. -/
theorem cache_cases (htarget : Target.ofSource s = .ok target) {cls : InstructionClass}
    {mnemonic : String} {id : Nat} (h : (mnemonic, id) ∈ (target.table cls).entries) :
    ((∃ cache, target.cache cls id = .ok cache) ∧
      ∀ (position : Nat) name, (target.table cls).entries[position]? = some (name, id) →
        position < 2) ∨
    (∃ cause position name, target.cache cls id = .error cause ∧
      (target.table cls).entries[position]? = some (name, id) ∧ 2 ≤ position) := by
  have hbij := Target.bijective_of_ofSource htarget cls
  rcases List.mem_iff_getElem?.1 h with ⟨position, hentry⟩
  have hposition := hbij.position?_iff.2 ⟨mnemonic, hentry⟩
  rw [Target.cache_of_position? hposition]
  by_cases hlt : position < 2
  · left
    refine ⟨?_, fun k name hk => ?_⟩
    · have hcache : ∃ cache, target.caches[position]? = some cache :=
        ⟨_, List.getElem?_eq_getElem (show position < target.caches.length from hlt)⟩
      rcases hcache with ⟨cache, hcache⟩
      exact ⟨cache, by simp only [hcache]⟩
    · have hk' := hbij.position?_iff.2 ⟨name, hk⟩
      rw [hposition, Option.some.injEq] at hk'
      omega
  · right
    have hnone : target.caches[position]? = none :=
      List.getElem?_eq_none (show target.caches.length ≤ position from Nat.le_of_not_lt hlt)
    refine ⟨.noCache (position + 1) cls, position, mnemonic, ?_, hentry, Nat.le_of_not_lt hlt⟩
    simp only [hnone]

end Cache

/-! ## Instructions -/

-- What an encoder complains about is a value.
theorem onLine_cases {α : Type} (line : Nat) (result : Except RangeCause α) :
    (∃ a, ScopeTree.onLine line result = .ok a) ∨
      ∃ cause, ScopeTree.onLine line result = .error (.onLine line (.range cause)) := by
  cases result with
  | error cause => exact Or.inr ⟨cause, rfl⟩
  | ok a => exact Or.inl ⟨a, rfl⟩

/-- A command with operands has to have a cache. If its operands are symbols, all
    else that can be wrong is a value. -/
theorem encode_cases (target : Target) {u : ScopeTree} {command : Command} (line : Nat)
    (hops : ∀ a ∈ command.operands, ∃ c, u.item? a = some (.symbol c)) :
    (∃ cause, command.instructionClass ≠ .noOperand ∧
      target.cache command.instructionClass command.machineId = .error cause ∧
      u.encode target line command = .error (.onLine line (.config cause))) ∨
    (command.instructionClass ≠ .noOperand →
        ∃ cache, target.cache command.instructionClass command.machineId = .ok cache) ∧
      ((∃ word, u.encode target line command = .ok word) ∨
        ∃ cause, u.encode target line command = .error (.onLine line (.range cause))) := by
  have hvalue : ∀ a ∈ command.operands, ∃ v, u.valueOf a line = .ok v := by
    intro a ha
    rcases hops a ha with ⟨c, hc⟩
    exact ⟨c.value, ScopeTree.valueOf_eq hc line⟩
  by_cases hcls : command.instructionClass = .noOperand
  · refine Or.inr ⟨fun h => absurd hcls h, ?_⟩
    cases command with
    | noOperand id => exact onLine_cases line _
    | oneOperand _ _ => cases hcls
    | twoOperand _ _ _ => cases hcls
    | threeOperand _ _ _ _ => cases hcls
  · -- The cache comes first, so its absence is what is reported.
    cases hcache : target.cache command.instructionClass command.machineId with
    | error cause =>
        have hfor : ScopeTree.cacheFor target line command =
            .error (.onLine line (.config cause)) := by
          unfold ScopeTree.cacheFor
          rw [hcache]
          rfl
        refine Or.inl ⟨cause, hcls, rfl, ?_⟩
        cases command with
        | noOperand id => exact absurd rfl hcls
        | oneOperand _ _ => exact congrArg (· >>= _) hfor
        | twoOperand _ _ _ => exact congrArg (· >>= _) hfor
        | threeOperand _ _ _ _ => exact congrArg (· >>= _) hfor
    | ok cache =>
        have hfor : ScopeTree.cacheFor target line command = .ok cache := by
          unfold ScopeTree.cacheFor
          rw [hcache]
          rfl
        refine Or.inr ⟨fun _ => ⟨cache, rfl⟩, ?_⟩
        unfold ScopeTree.encode
        cases command with
        | noOperand id => exact absurd rfl hcls
        | oneOperand a id =>
            simp only [Command.operands, List.forall_mem_cons] at hvalue
            rcases hvalue with ⟨⟨v, hv⟩, -⟩
            simp only [hfor, hv]
            exact onLine_cases line _
        | twoOperand a b id =>
            simp only [Command.operands, List.forall_mem_cons] at hvalue
            rcases hvalue with ⟨⟨v, hv⟩, ⟨v', hv'⟩, -⟩
            simp only [hfor, hv, hv']
            exact onLine_cases line _
        | threeOperand a b c id =>
            simp only [Command.operands, List.forall_mem_cons] at hvalue
            rcases hvalue with ⟨⟨v, hv⟩, ⟨v', hv'⟩, ⟨v'', hv''⟩, -⟩
            simp only [hfor, hv, hv', hv'']
            exact onLine_cases line _

section Verdict

variable {s : Source} {target : Target} {t : ScopeTree} {m : Address} {i : Instruction}
  {w : Work (Array EmittedWord)}

-- An operand is a symbol of the same sort in every state of the program.
theorem WellFormed.exists_operand (ht : WellFormed t) (hm : t.item? m = some (.instruction i))
    (hw : w.tree.skeleton = t.skeleton) {a : Address} (ha : a ∈ i.action.operands) :
    ∃ c d, t.item? a = some (.symbol c) ∧ w.tree.item? a = some (.symbol d) ∧
      d.isVar = c.isVar := by
  rcases (ht.operands m i hm a ha).symbol with ⟨c, hc⟩
  rcases ScopeTree.exists_item hw hc with ⟨item, hitem, hskel⟩
  rcases Item.skeleton_eq_symbol hskel with ⟨d, rfl, hd⟩
  refine ⟨c, d, hc, hitem, ?_⟩
  unfold Symbol.isVar
  rw [← Symbol.skeleton_kind, hd, Symbol.skeleton_kind]

theorem not_illtyped {action : Action} (haction : i.action = action)
    (h : ∀ op a b, action ≠ .fold op a b) : ¬ Illtyped t i := by
  rintro ⟨op, a, b, hfold, -⟩
  rw [haction] at hfold
  exact h op a b hfold

theorem not_uncached {action : Action} (haction : i.action = action)
    (h : ∀ command, action ≠ .emit command) : ¬ Uncached target i := by
  rintro ⟨command, _, _, hemit, -⟩
  rw [haction] at hemit
  exact h command hemit

theorem emit_verdict (htarget : Target.ofSource s = .ok target) (ht : WellFormed t)
    (hlisted : Listed target t) {r : Nat} {source : SourceLine} {command : Command}
    (hm : t.item? m = some (.instruction ⟨r, source, .emit command⟩))
    (hw : w.tree.skeleton = t.skeleton) :
    Verdict t target ⟨r, source, .emit command⟩
      ((Unrolling.perform target ⟨r, source, .emit command⟩).exec w) := by
  have htyped : ¬ Illtyped t ⟨r, source, .emit command⟩ :=
    not_illtyped rfl fun op a b h => by cases h
  have hops : ∀ a ∈ command.operands, ∃ c, w.tree.item? a = some (.symbol c) := by
    intro a ha
    rcases ht.exists_operand hm hw ha with ⟨-, d, -, hd, -⟩
    exact ⟨d, hd⟩
  rcases hlisted m _ command hm rfl with ⟨mnemonic, hentry⟩
  have hcases := cache_cases htarget hentry
  rw [Unrolling.emit_exec]
  rcases encode_cases target source.number hops with ⟨cause, hcls, hcache, hencode⟩ |
    ⟨hcache, hencode⟩
  · rw [hencode]
    rcases hcases with ⟨⟨cache, hok⟩, -⟩ | ⟨_, position, name, -, hposition, hle⟩
    · rw [hcache] at hok
      cases hok
    · exact .config ⟨command, position, name, rfl, hcls, hposition, hle⟩
  · have hcached : ¬ Uncached target ⟨r, source, .emit command⟩ := by
      rintro ⟨_, position, name, ⟨⟩, hcls, hposition, hle⟩
      rcases hcache hcls with ⟨cache, hok⟩
      rcases hcases with ⟨-, hlt⟩ | ⟨cause, _, _, herror, -⟩
      · exact absurd (hlt position name hposition) (Nat.not_lt_of_le hle)
      · rw [hok] at herror
        cases herror
    rcases hencode with ⟨word, hword⟩ | ⟨cause, hcause⟩
    · rw [hword]
      exact .done htyped hcached
    · rw [hcause]
      exact .range htyped hcached

theorem fold_verdict (ht : WellFormed t) {r : Nat} {source : SourceLine} {op : Arithmetic}
    {a b : Address} (hm : t.item? m = some (.instruction ⟨r, source, .fold op a b⟩))
    (hw : w.tree.skeleton = t.skeleton) :
    Verdict t target ⟨r, source, .fold op a b⟩
      ((Unrolling.perform target ⟨r, source, .fold op a b⟩).exec w) := by
  have hcached : ¬ Uncached target ⟨r, source, .fold op a b⟩ :=
    not_uncached rfl fun command h => by cases h
  rcases ht.exists_operand hm hw (a := a) (by simp [Action.operands]) with ⟨c, c', hc, hc', hsort⟩
  rcases ht.exists_operand hm hw (a := b) (by simp [Action.operands]) with ⟨d, d', hd, hd', hsort'⟩
  rw [Unrolling.fold_exec, ScopeTree.fold_eq hc' hd', hsort, hsort']
  by_cases hvar : c.isVar = true
  · rw [if_neg (not_not_intro hvar)]
    by_cases hconst : d.isVar = true ∧ op.requiresConst = true
    · rw [if_pos hconst]
      exact .typing ⟨op, a, b, rfl, Or.inr ⟨hconst.2, d, hd, hconst.1⟩⟩
    · rw [if_neg hconst]
      refine .done ?_ hcached
      rintro ⟨_, _, _, ⟨⟩, ⟨x, hx, hx'⟩ | ⟨hop, x, hx, hx'⟩⟩
      · rw [hc] at hx
        cases hx
        rw [hvar] at hx'
        cases hx'
      · rw [hd] at hx
        cases hx
        exact hconst ⟨hx', hop⟩
  · rw [if_pos hvar]
    exact .typing ⟨op, a, b, rfl, Or.inl ⟨c, hc, Bool.eq_false_iff.2 hvar⟩⟩

/-- What comes of an instruction, in any state of the program. -/
theorem verdict (htarget : Target.ofSource s = .ok target) (ht : WellFormed t)
    (hlisted : Listed target t) (hm : t.item? m = some (.instruction i))
    (hw : w.tree.skeleton = t.skeleton) :
    Verdict t target i ((Unrolling.perform target i).exec w) := by
  rcases i with ⟨r, source, action⟩
  cases action with
  | emit command => exact emit_verdict htarget ht hlisted hm hw
  | fold op a b => exact fold_verdict ht hm hw
  | reset a b =>
      -- A reset has a variable to write to, so it cannot fail.
      rcases ht.resets m _ a b hm rfl with ⟨c, hc, hvar⟩
      rcases ht.exists_operand hm hw (a := a) (by simp [Action.operands]) with ⟨-, x, -, hx, -⟩
      rcases ht.exists_operand hm hw (a := b) (by simp [Action.operands]) with
        ⟨d, d', hd, hd', hsort⟩
      rw [hc] at hd
      cases hd
      rw [Unrolling.reset_exec target hx hd' (hsort.trans hvar)]
      exact .done (not_illtyped rfl fun op a b h => by cases h)
        (not_uncached rfl fun command h => by cases h)
  | cleared => exact .fault

end Verdict

/-! ## Sessions -/

/-- The complaint about a loop is about the range of its bounds. -/
theorem Origin.kinds {s : Source} {target : Target} {t : ScopeTree} {f : Failure}
    (horigin : Origin t target f) (htarget : Target.ofSource s = .ok target) (ht : WellFormed t)
    (hlisted : Listed target t) (hfault : ∀ x, f ≠ .fault x) :
    ∃ line cause, f = .onLine line cause ∧ (cause.kind = .range ∨
      (cause.kind = .typing ∧ ∃ m i, t.item? m = some (.instruction i) ∧
        i.source.number = line ∧ Illtyped t i) ∨
      (cause.kind = .config ∧ ∃ m i, t.item? m = some (.instruction i) ∧
        i.source.number = line ∧ Uncached target i)) := by
  cases horigin with
  | fault x => exact absurd rfl (hfault x)
  | @instruction m i w v _ hm hw hexec =>
      have hverdict := verdict htarget ht hlisted hm hw
      rw [hexec] at hverdict
      cases hverdict with
      | range _ _ => exact ⟨_, _, rfl, Or.inl rfl⟩
      | typing hill => exact ⟨_, _, rfl, Or.inr (Or.inl ⟨rfl, m, i, hm, rfl, hill⟩)⟩
      | config hcache => exact ⟨_, _, rfl, Or.inr (Or.inr ⟨rfl, m, i, hm, rfl, hcache⟩)⟩
      | fault => exact absurd rfl (hfault _)
  | @entry c h₀ h b d _ _ hbegin =>
      unfold LoopHeader.begin at hbegin
      split at hbegin
      · cases hbegin
      · cases hbegin
        exact ⟨_, _, rfl, Or.inl rfl⟩
  | @update c h₀ h b b' d _ _ _ _ _ hadv =>
      rcases h.advance_cases b' with ⟨-, hcase⟩ | ⟨-, -, hcase⟩ | ⟨-, -, next, hcase, -⟩
      · rw [hadv] at hcase
        cases hcase
        exact ⟨_, _, rfl, Or.inl rfl⟩
      · rw [hadv] at hcase
        cases hcase
        exact ⟨_, _, rfl, Or.inl rfl⟩
      · rw [hadv] at hcase
        cases hcase

/-- **Only failures of range depend on values.** For every accepted target and
    all lines that a fresh session accepts, whether assembling fails for any other
    reason can be told from the tree. -/
theorem assemble_predictable {s : Source} {target : Target}
    (htarget : Target.ofSource s = .ok target) {lines : List (Nat × String)} {n : Nat}
    (hparse : ((Assembler.new target).parse lines).answer = .ok n) :
    Predictable ((Assembler.new target).parse lines).after := by
  have hready := ready_of_parse hparse
  rcases (listed_invariant target).parse (.empty target) lines with ⟨-, hlisted⟩
  generalize ((Assembler.new target).parse lines).after = a at hready hlisted
  have hkinds : ∀ f, a.assemble.answer = .error f → _ := fun f hf =>
    (hready.assemble_error hf).kinds htarget hready.wellFormed hlisted
      fun x hx => hready.healthy.assemble.2 x (hf.trans (congrArg _ hx))
  rw [← hready.target] at hkinds
  refine ⟨fun m i hm hi => ?_, fun hnone f hf => ?_, hkinds⟩
  · cases hanswer : a.assemble.answer with
    | error f =>
        rcases hkinds f hanswer with ⟨line, cause, rfl, -⟩
        exact ⟨_, rfl⟩
    | ok words =>
        -- The instruction has been carried out at some point, which it cannot be.
        rcases hready.assemble_ok hanswer with ⟨l, w, hl, htrace, -, -⟩
        have hmem := hl.mem hready.wellFormed hm (hready.wellFormed.contains_item hm)
        rcases htrace.exists_perform hmem with ⟨i', x, x', hm', hx, hexec⟩
        rw [hm] at hm'
        cases hm'
        have hverdict := verdict htarget hready.wellFormed hlisted hm hx
        rw [hexec] at hverdict
        cases hverdict with
        | done htyped hcached =>
            rw [hready.target] at hi
            exact (hi.elim htyped hcached).elim
  · rcases hkinds f hf with ⟨line, cause, rfl, hrange | ⟨-, m, i, hm, -, hill⟩ |
      ⟨-, m, i, hm, -, hcache⟩⟩
    · cases cause with
      | range cause => exact ⟨line, cause, rfl⟩
      | syntactic _ => cases hrange
      | naming _ => cases hrange
      | typing _ => cases hrange
      | config _ => cases hrange
    · exact absurd hill (hnone m i hm).1
    · exact absurd hcache (hnone m i hm).2

/-- A description with more mnemonics than there are caches. -/
def thirdMnemonic : Document where
  entries :=
    [⟨"Assembler_Property", "OpCodeSize", "5"⟩, ⟨"Assembler_Property", "PlaceSize", "3"⟩,
     ⟨"VCGRA_Property", "Available_Memory", "1023"⟩,
     ⟨"VCGRA_Property", "Num_Dic_Lines", "8"⟩, ⟨"VCGRA_Property", "Num_Dic_Places", "4"⟩,
     ⟨"VCGRA_Property", "Num_Doc_Lines", "4"⟩, ⟨"VCGRA_Property", "Num_Doc_Places", "2"⟩,
     ⟨"OneOperator", "SETDIC", "3"⟩, ⟨"OneOperator", "SETDOC", "4"⟩,
     ⟨"OneOperator", "SETALL", "5"⟩, ⟨"ArithOperator", "ADD", "6"⟩]

/-- A program that uses the third of them in a loop. -/
def thirdMnemonicLines : List (Nat × String) :=
  [(1, "VAR x 1"), (2, "LOOP 0 3 1"), (3, "ADD x 2"), (4, "SETALL x"), (5, "POOL")]

theorem assemble_thirdMnemonic :
    ∃ target, Target.ofSource thirdMnemonic.source = .ok target ∧
      ((Assembler.new target).parse thirdMnemonicLines).answer = .ok 5 ∧
      ∃ d, ((Assembler.new target).parse thirdMnemonicLines).after.assemble.answer =
        .error (.refused d) := by
  -- A target has functions in it, so only what is asked of it can be decided.
  have hdata : (Target.ofSource thirdMnemonic.source).toOption.map (fun t =>
      (((Assembler.new t).parse thirdMnemonicLines).answer,
        ((Assembler.new t).parse thirdMnemonicLines).after.tree.item? ⟨1, 2⟩,
        (t.table .oneOperand).entries[2]?)) =
      some (.ok 5, some (.instruction ⟨1, ⟨4, "SETALL x"⟩, .emit (.oneOperand ⟨0, 1⟩ 5)⟩),
        some ("SETALL", 5)) := by
    decide +kernel
  cases hsource : Target.ofSource thirdMnemonic.source with
  | error cause =>
      rw [hsource] at hdata
      cases hdata
  | ok target =>
      rw [hsource] at hdata
      simp only [Except.toOption, Option.map_some, Option.some.injEq, Prod.mk.injEq] at hdata
      rcases hdata with ⟨hanswer, hitem, hentry⟩
      refine ⟨target, rfl, hanswer, ?_⟩
      refine (assemble_predictable hsource hanswer).certain _ _ hitem (Or.inr ?_)
      rw [(ready_of_parse hanswer).target]
      exact ⟨.oneOperand ⟨0, 1⟩ 5, 2, "SETALL", rfl, by decide, hentry, Nat.le_refl 2⟩

end UnrollAsm
