import UnrollAsm.Program.Evaluate
import UnrollAsm.Proofs.Outcome

/-!
# What Evaluation Complains About

An encoder does not know where its operands come from, so it complains about a
value and names no line. Whoever asks it attaches the line of the instruction. The
same line goes along with every symbol that is looked up, and the header of a loop
has the line of the loop with it. In the end every complaint has a line, and only
loops complain about bounds.

## Main definitions

* `Failure.IsOn`: The failure is on a line.
* `Failure.isOfLoop`: A loop was refused.
* `Failure.OfInstruction`: The failure of an instruction on a line.

## Theorems

* `encode_errors`, `fold_errors`, `reset_errors`: The failures of instructions.
* `boundsOf_errors`, `create_errors`, `begin_errors`, `advance_errors`: The
  failures of loops.
-/

namespace UnrollAsm

/-- The failure is on the line. A fault is on no line in particular. -/
def Failure.IsOn (line : Nat) : Failure → Prop
  | .refused d => d.line = some line
  | .fault _ => True

/-- The complaint is about the bounds of a loop. -/
def RangeCause.isOfLoop : RangeCause → Bool
  | .zeroStep | .stepsDownBelow _ | .stepsUpAbove _ | .stepReversed .. => true
  | _ => false

/-- The failure is that a loop was refused, at its start or after a trip. -/
def Failure.isOfLoop : Failure → Bool
  | .refused ⟨_, .range cause⟩ => cause.isOfLoop
  | _ => false

/-- The failure can be that of an instruction on the line. -/
structure Failure.OfInstruction (line : Nat) (e : Failure) : Prop where
  isOn : e.IsOn line
  notLoop : e.isOfLoop = false

/-! ## Encoding -/

section Encoding

open Encode

theorem nonNegative_errors (role : FieldRole) (v : Int32) :
    ErrorsAre (·.isOfLoop = false) (nonNegative role v) :=
  .ite (.error rfl) (.ok _)

theorem below_errors (role : FieldRole) (limit : Nat) (v : Int32) :
    ErrorsAre (·.isOfLoop = false) (below role limit v) :=
  .bind (nonNegative_errors role v) fun _ => .ite (.ok _) (.error rfl)

theorem addressHalf_errors (memory : Nat) (v : Int32) :
    ErrorsAre (·.isOfLoop = false) (addressHalf memory v) :=
  .bind (nonNegative_errors .address v) fun _ => .ite (.error rfl) (.ite (.error rfl) (.ok _))

theorem instructionHalf_errors (packed : Nat) :
    ErrorsAre (·.isOfLoop = false) (instructionHalf packed) :=
  .ite (.error rfl) (.ok _)

end Encoding

/-! ## Instructions -/

section Instructions

variable (u : ScopeTree) (line : Nat)

theorem orFault_errors {α : Type} (r : Except Fault α) :
    ErrorsAre (Failure.OfInstruction line) (orFault r) :=
  .mapError fun _ _ => ⟨trivial, rfl⟩

theorem valueOf_errors (a : Address) :
    ErrorsAre (Failure.OfInstruction line) (u.valueOf a line) := by
  unfold ScopeTree.valueOf
  refine .bind (orFault_errors line _) fun item => ?_
  cases item with
  | symbol _ => exact .ok _
  | instruction _ => exact .error ⟨rfl, rfl⟩
  | loop _ => exact .error ⟨rfl, rfl⟩

/-- The encoder is asked on behalf of a line, and a cache is chosen for it. -/
theorem encode_errors (target : Target) (command : Command) :
    ErrorsAre (Failure.OfInstruction line) (u.encode target line command) := by
  have hcache : ErrorsAre (Failure.OfInstruction line) (ScopeTree.cacheFor target line command) :=
    .mapError fun _ _ => ⟨rfl, rfl⟩
  have hline : ∀ (result : Except RangeCause MachineWord),
      ErrorsAre (·.isOfLoop = false) result →
      ErrorsAre (Failure.OfInstruction line) (ScopeTree.onLine line result) :=
    fun _ h => .mapError fun e he => ⟨rfl, h e he⟩
  unfold ScopeTree.encode
  cases command with
  | noOperand id => exact hline _ (.bind (instructionHalf_errors _) fun _ => .ok _)
  | oneOperand a id =>
      refine .bind hcache fun cache => .bind (valueOf_errors u line _) fun _ => hline _ ?_
      exact .bind (below_errors _ _ _) fun _ => .bind (instructionHalf_errors _) fun _ => .ok _
  | twoOperand a b id =>
      refine .bind hcache fun cache => .bind (valueOf_errors u line _) fun _ =>
        .bind (valueOf_errors u line _) fun _ => hline _ ?_
      exact .bind (addressHalf_errors _ _) fun _ => .bind (below_errors _ _ _) fun _ =>
        .bind (instructionHalf_errors _) fun _ => .ok _
  | threeOperand a b c id =>
      refine .bind hcache fun cache => .bind (valueOf_errors u line _) fun _ =>
        .bind (valueOf_errors u line _) fun _ => .bind (valueOf_errors u line _) fun _ => hline _ ?_
      exact .bind (addressHalf_errors _ _) fun _ => .bind (below_errors _ _ _) fun _ =>
        .bind (below_errors _ _ _) fun _ => .bind (instructionHalf_errors _) fun _ => .ok _

-- Arithmetic and resets can only be given operands of the wrong sort.
theorem fold_errors (op : Arithmetic) (a b : Address) :
    ErrorsAre (Failure.OfInstruction line) (u.fold op a b line) := by
  unfold ScopeTree.fold
  refine .bind (orFault_errors line _) fun item => ?_
  cases item with
  | instruction _ => exact .error ⟨rfl, rfl⟩
  | loop _ => exact .error ⟨rfl, rfl⟩
  | symbol c =>
      refine .ite (.error ⟨rfl, rfl⟩) (.bind (orFault_errors line _) fun item' => ?_)
      cases item' with
      | instruction _ => exact .error ⟨rfl, rfl⟩
      | loop _ => exact .error ⟨rfl, rfl⟩
      | symbol d => exact .ite (.error ⟨rfl, rfl⟩) (.ok _)

theorem reset_errors (a b : Address) :
    ErrorsAre (Failure.OfInstruction line) (u.reset a b line) := by
  unfold ScopeTree.reset
  refine .bind (valueOf_errors u line a) fun value => .bind (orFault_errors line _)
    fun item => ?_
  cases item with
  | instruction _ => exact .error ⟨rfl, rfl⟩
  | loop _ => exact .error ⟨rfl, rfl⟩
  | symbol c =>
      dsimp only
      split
      · exact .ok _
      · exact .error ⟨rfl, rfl⟩

end Instructions

/-! ## Loops -/

section Loops

variable (u : ScopeTree) (h : LoopHeader)

theorem boundsOf_errors : ErrorsAre (Failure.IsOn h.source.number) (u.boundsOf h) := by
  have hvalue : ∀ a, ErrorsAre (Failure.IsOn h.source.number) (u.valueOf a h.source.number) :=
    fun a => (valueOf_errors u _ a).mono fun _ he => he.isOn
  exact .bind (hvalue _) fun _ => .bind (hvalue _) fun _ => .bind (hvalue _) fun _ => .ok _

theorem create_errors (start stop step : Address) (bounds : Bounds) (source : SourceLine) :
    ErrorsAre (Failure.IsOn source.number)
      (orRefuse (LoopHeader.create start stop step bounds source)) := by
  refine .mapError ?_
  unfold LoopHeader.create
  split
  · exact .ok _
  · exact .error rfl

theorem begin_errors (bounds : Bounds) :
    ErrorsAre (Failure.IsOn h.source.number) (orRefuse (h.begin bounds)) := by
  refine .mapError ?_
  unfold LoopHeader.begin
  split
  · exact .ok _
  · exact .error rfl

theorem advance_errors (stop step : Int32) :
    ErrorsAre (Failure.IsOn h.source.number) (orRefuse (h.advance stop step)) := by
  refine .mapError ?_
  unfold LoopHeader.advance
  refine .ite (.error rfl) (.ite (.error rfl) ?_)
  dsimp only
  split
  · exact .ok _
  · exact .ok _

end Loops

end UnrollAsm
