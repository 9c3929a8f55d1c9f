import UnrollAsm.Proofs.Pass
import UnrollAsm.Proofs.Tree.Errors
import UnrollAsm.Session.Reading

/-!
# What Reading a Line Is Made Of

Reading a line asks for symbols and appends items, notes events and moves to
another scope, and it does these things one after the other. Whatever holds of such
small steps and goes through when actions follow each other holds of the whole. The
reader is taken apart here once, so that nobody who has a property of this kind has
to look into it again.

One such property is that every complaint is on the line that is being read.

## Main definitions

* `Stepwise`: An action that is put together from small steps.

## Theorems

* `Reading.stepwise_readLine`: Reading a line is put together from small steps.
* `Stepwise.isOn`: What such an action complains about is on its line.
-/

namespace UnrollAsm

open PassM

/-- An action of reading that is put together from small steps. What these complain
    about is on the given line, and what they report has no tables. -/
inductive Stepwise (line : Nat) : {α : Type} → ReadM α → Prop
  | pure {α : Type} (a : α) : Stepwise line (Pure.pure a)
  | refuse {α : Type} (cause : Cause) : Stepwise line (PassM.refuse line cause : ReadM α)
  | ofExcept {α : Type} {r : Except Failure α} :
      ErrorsAre (Failure.IsOn line) r → Stepwise line (MonadExcept.ofExcept r)
  | ask {α : Type} {query : ScopeTree → Except Failure α} :
      (∀ t, ErrorsAre (Failure.IsOn line) (query t)) → Stepwise line (PassM.ask query)
  | change {α : Type} {step : ScopeTree → Except Failure (α × ScopeTree)} :
      (∀ t, ErrorsAre (Failure.IsOn line) (step t)) → Stepwise line (PassM.change step)
  | note {e : Event} : e.tables = [] → Stepwise line (PassM.note e)
  | own : Stepwise line PassM.own
  | setOwn (f : ScopeId → ScopeId) : Stepwise line (PassM.setOwn f)
  | bind {α β : Type} {m : ReadM α} {f : α → ReadM β} :
      Stepwise line m → (∀ a, Stepwise line (f a)) → Stepwise line (m >>= f)

namespace Stepwise

variable {line : Nat} {α β : Type}

-- Nothing but a fault can go wrong.
theorem askFault (query : ScopeTree → Except Fault α) :
    Stepwise line (PassM.ask fun t => orFault (query t)) :=
  ask fun t => (orFault_errors line (query t)).mono fun _ he => he.isOn

theorem changeFault (step : ScopeTree → Except Fault (α × ScopeTree)) :
    Stepwise line (PassM.change fun t => orFault (step t)) :=
  change fun t => (orFault_errors line (step t)).mono fun _ he => he.isOn

theorem askValue (a : Address) : Stepwise line (PassM.ask fun t => t.valueOf a line) :=
  ask fun t => (valueOf_errors t line a).mono fun _ he => he.isOn

theorem mapM {f : α → ReadM β} (hf : ∀ a, Stepwise line (f a)) (l : List α) :
    Stepwise line (l.mapM f) := by
  induction l with
  | nil =>
      rw [List.mapM_nil]
      exact pure _
  | cons a rest ih =>
      rw [List.mapM_cons]
      exact (hf a).bind fun b => ih.bind fun bs => pure _

/-- What such an action complains about is on its line. -/
theorem isOn {m : ReadM α} (h : Stepwise line m) {w v : Work ScopeId} {e : Failure}
    (hexec : m.exec w = (.error e, v)) : e.IsOn line := by
  induction h generalizing w v with
  | pure a => cases hexec
  | refuse cause =>
      cases hexec
      exact rfl
  | ofExcept hr =>
      rw [exec_ofExcept] at hexec
      exact hr e (congrArg Prod.fst hexec)
  | ask hquery =>
      rw [exec_ask] at hexec
      exact hquery w.tree e (congrArg Prod.fst hexec)
  | @change _ step hstep =>
      rw [exec_change] at hexec
      cases hresult : step w.tree with
      | error e' =>
          rw [hresult] at hexec
          cases hexec
          exact hstep w.tree e hresult
      | ok r =>
          rw [hresult] at hexec
          cases hexec
  | note _ => cases hexec
  | own => cases hexec
  | setOwn f => cases hexec
  | @bind _ _ m f _ _ ih ihf =>
      rw [exec_bind] at hexec
      rcases hm : m.exec w with ⟨e' | a, x⟩
      · rw [hm] at hexec
        cases hexec
        exact ih hm
      · rw [hm] at hexec
        exact ihf a hexec

end Stepwise

namespace Reading

variable {target : Target}

theorem stepwise_append (line : Nat) (item : Item) : Stepwise line (append item) :=
  Stepwise.own.bind fun _ => .changeFault _

theorem stepwise_appendAction (line : Nat) (source : SourceLine) (action : Action) :
    Stepwise line (appendAction source action) :=
  Stepwise.own.bind fun _ => (stepwise_append line _).bind fun _ => .pure _

theorem stepwise_lookup (line : Nat) (name : String) : Stepwise line (lookup name) :=
  Stepwise.own.bind fun _ => .askFault _

theorem stepwise_resolve (line : Nat) (op : Operand) : Stepwise line (resolve line op) := by
  cases op with
  | literal value =>
      refine (stepwise_lookup line _).bind fun found => ?_
      cases found with
      | some a => exact .pure a
      | none => exact stepwise_append line _
  | name name =>
      refine (stepwise_lookup line _).bind fun found => ?_
      cases found with
      | some a => exact .pure a
      | none => exact .refuse _

theorem stepwise_declareConst (line : Nat) (name : String) (value : Int32) :
    Stepwise line (declareConst line name value) := by
  refine Stepwise.own.bind fun s => (Stepwise.askFault _).bind fun found => ?_
  cases found with
  | some a => exact (Stepwise.askFault _).bind fun _ => .refuse _
  | none => exact (stepwise_append line _).bind fun _ => .pure _

theorem stepwise_declareVar (line : Nat) (name : String) (source : Address) :
    Stepwise line (declareVar line name source) :=
  (Stepwise.askValue source).bind fun _ => stepwise_append line _

theorem stepwise_targetVar (line : Nat) (name : String) (source : Address) :
    Stepwise line (targetVar line name source) := by
  refine Stepwise.own.bind fun s => (stepwise_lookup line _).bind fun found => ?_
  cases found with
  | none => exact stepwise_declareVar _ _ _
  | some a =>
      refine (Stepwise.askFault _).bind fun item => ?_
      by_cases hvar : item.symbol?.any Symbol.isVar
      · rw [if_pos hvar]
        exact .pure a
      · rw [if_neg hvar]
        by_cases hhere : a.scope = s
        · rw [if_pos hhere]
          exact .refuse _
        · rw [if_neg hhere]
          exact stepwise_declareVar _ _ _

theorem stepwise_openLoop (source : SourceLine) (start stop step : Operand) :
    Stepwise source.number (openLoop source start stop step) := by
  refine (stepwise_resolve _ start).bind fun a => (stepwise_resolve _ stop).bind fun b =>
    (stepwise_resolve _ step).bind fun c => ?_
  refine (Stepwise.askValue a).bind fun x => (Stepwise.askValue b).bind fun y =>
    (Stepwise.askValue c).bind fun z => ?_
  refine (Stepwise.ofExcept (create_errors _ _ _ _ source)).bind fun header =>
    Stepwise.own.bind fun s => ?_
  exact (Stepwise.changeFault _).bind fun body => (Stepwise.note rfl).bind fun _ => .setOwn _

theorem stepwise_closeLoop (line : Nat) : Stepwise line (closeLoop line) := by
  refine Stepwise.own.bind fun s => (Stepwise.askFault _).bind fun parent => ?_
  cases parent with
  | some p => exact (Stepwise.setOwn _).bind fun _ => .note rfl
  | none => exact .refuse _

theorem stepwise_command (source : SourceLine) (mnemonic : String) (operands : List Operand) :
    Stepwise source.number (command target source mnemonic operands) := by
  unfold command
  cases target.resolve? mnemonic with
  | none => exact .refuse _
  | some entry =>
      dsimp only
      by_cases harity : operands.length ≠ entry.1.arity
      · rw [if_pos harity]
        exact .refuse _
      · rw [if_neg harity]
        refine (Stepwise.mapM (stepwise_resolve _) operands).bind fun addresses => ?_
        cases action? entry.2 mnemonic entry.1 addresses with
        | some action => exact stepwise_appendAction _ _ _
        | none => exact .refuse _

theorem stepwise_readStatement (source : SourceLine) (st : Statement) :
    Stepwise source.number (readStatement target source st) := by
  cases st with
  | empty => exact .pure _
  | const name value => exact stepwise_declareConst _ _ _
  | var name value =>
      exact (stepwise_resolve _ _).bind fun a => (stepwise_targetVar _ _ _).bind fun b =>
        stepwise_appendAction _ _ _
  | loop start stop step => exact stepwise_openLoop _ _ _ _
  | pool => exact stepwise_closeLoop _
  | command mnemonic operands => exact stepwise_command _ _ _

-- The number of a line marks what is reported of its text.
theorem parse_errors (number : Nat) (text : String) :
    ErrorsAre (Failure.IsOn number) (orRefuse (Statement.parse number text)) := by
  refine .mapError ?_
  unfold Statement.parse
  split
  · exact .error rfl
  · exact .mapError fun _ _ => rfl

/-- Reading a line is put together from small steps. -/
theorem stepwise_readLine (number : Nat) (text : String) :
    Stepwise number (readLine target number text) :=
  (Stepwise.ofExcept (parse_errors number text)).bind fun st => (Stepwise.note rfl).bind fun _ =>
    (stepwise_readStatement (.of number text) st).bind fun _ => .pure _

end Reading

end UnrollAsm
