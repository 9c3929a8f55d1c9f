import UnrollAsm.Proofs.Block.Repetition
import UnrollAsm.Proofs.Tree.Errors
import UnrollAsm.Proofs.Tree.WellFormed
import UnrollAsm.Proofs.Unrolling.Lockstep

/-!
# The Trace of a Walk

What a walk over a scope has done can be written down as a list: the addresses of
the instructions that it has carried out, in the order in which it has done so.
Between two instructions there are only the books that a loop keeps, which are
its header and the events about its trips.

The lists that are possible can be told from the tree. Every item contributes its
part, and a loop contributes its body a number of times, at least once, because a
loop asks whether it goes on when a trip is over. A loop between constants finds
the same bounds whenever it asks, so the number is the one that the bounds say.

Where a walk fails there is a place that it has failed at. Either an instruction
has failed, in some state that the program can be in; or a loop was refused, at
its start or after a trip, with bounds that its operands had in such a state.

## Main definitions

* `Trace`: The instructions carried out between two states.
* `Origin`: Where a failure comes from.
* `Yields`: What comes of an action.
* `BoundsIn`, `Steady`: The bounds that a loop may find, or always finds.
* `Trips`, `IsPart`: Trips of a loop in a row, and the part of an item.
* `Unrolls`: The lists that a walk over a scope may carry out.
* `Contains`: A scope is another, or has it inside.

## Theorems

* `Unrolling.perform_cases`: What an instruction has done.
* `Unrolling.perform_errors`: What it complains about.
* `Unrolling.runTrips_yields`: The trips of a loop.
* `Unrolling.walk_yields`: A walk carries out one of the lists of its scope, or
  its failure has an origin.
* `Unrolls.mem`: Every instruction of a scope is carried out, however deep it is.
-/

namespace UnrollAsm

/-- The event is about the trips of a loop. -/
def Event.isRepetition : Event → Bool
  | .loopEntered .. | .tripStarted .. | .loopLeft .. => true
  | _ => false

/-- The addresses of the instructions of `t` that have been carried out from the
    state `w` on, in order. Loops may have kept their books in between. -/
inductive Trace (t : ScopeTree) (target : Target) (w : Work (Array EmittedWord)) :
    List Address → Work (Array EmittedWord) → Prop
  | start : Trace t target w [] w
  | perform {l : List Address} {v v' : Work (Array EmittedWord)} {m : Address}
      {i : Instruction} :
      Trace t target w l v → v.tree.skeleton = t.skeleton →
      t.item? m = some (.instruction i) →
      (Unrolling.perform target i).exec v = (.ok (), v') → Trace t target w (l ++ [m]) v'
  | note {l : List Address} {v : Work (Array EmittedWord)} {e : Event} :
      Trace t target w l v → e.isRepetition →
      Trace t target w l { v with log := v.log.push e }
  | header {l : List Address} {v : Work (Array EmittedWord)} (c : ScopeId) (h : LoopHeader) :
      Trace t target w l v → Trace t target w l { v with tree := v.tree.setHeader c h }

/-- The operands of a loop may have the values `b`. -/
def BoundsIn (t : ScopeTree) (h : LoopHeader) (b : Bounds) : Prop :=
  ∃ u : ScopeTree, u.skeleton = t.skeleton ∧ u.boundsOf h = .ok b

/-- The operands of a loop have the values `b` whenever they are read. -/
def Steady (t : ScopeTree) (h : LoopHeader) (b : Bounds) : Prop :=
  ∀ u : ScopeTree, u.skeleton = t.skeleton → u.boundsOf h = .ok b

/-- Where a failure of unrolling the program `t` comes from. -/
inductive Origin (t : ScopeTree) (target : Target) : Failure → Prop
  | fault (f : Fault) : Origin t target (.fault f)
  /-- An instruction has failed. -/
  | instruction {m : Address} {i : Instruction} {w v : Work (Array EmittedWord)} {e : Failure} :
      t.item? m = some (.instruction i) → w.tree.skeleton = t.skeleton →
      (Unrolling.perform target i).exec w = (.error e, v) → Origin t target e
  /-- A loop was refused at its start. -/
  | entry {c : Nat} {h₀ h : LoopHeader} {b : Bounds} {d : Diagnostic} :
      t.headerAt c = some h₀ → BoundsIn t h₀ b → h.begin b = .error d →
      Origin t target (.refused d)
  /-- A loop was refused after a trip. -/
  | update {c : Nat} {h₀ h : LoopHeader} {b b' : Bounds} {d : Diagnostic} :
      t.headerAt c = some h₀ → BoundsIn t h₀ b → h.bounds.step = b.step → b.step ≠ 0 →
      BoundsIn t h₀ b' → h.advance b'.stop b'.step = .error d → Origin t target (.refused d)

/-- What comes of an action in a state of the program: it ends in such a state
    again, with instructions carried out, or for a reason. -/
structure Yields {α : Type} (t : ScopeTree) (target : Target) (w : Work (Array EmittedWord))
    (m : UnrollM α) (P : List Address → Prop) : Prop where
  skeleton : (m.exec w).2.tree.skeleton = t.skeleton
  done : ∀ a v, m.exec w = (.ok a, v) → ∃ l, Trace t target w l v ∧ P l
  failed : ∀ e v, m.exec w = (.error e, v) → Origin t target e

/-- The trips of a loop in a row, of each of which `P` holds, and `N` of their
    number. -/
def Trips (P : List Address → Prop) (N : Nat → Prop) (l : List Address) : Prop :=
  ∃ trips : List (List Address), l = trips.flatten ∧ (∀ trip ∈ trips, P trip) ∧ N trips.length

/-- The addresses that an item of the scope `s` stands for, given what may be gone
    through inside a loop. A loop contributes its body once for every trip. -/
def IsPart (t : ScopeTree) (inside : Nat → List Address → Prop) (s : Nat) :
    Item × Nat → List Address → Prop
  | (.symbol _, _), part => part = []
  | (.instruction _, k), part => part = [⟨s, k⟩]
  | (.loop c, _), part => Trips (inside c) (fun n => 0 < n ∧
      ∀ h b, t.headerAt c = some h → Steady t h b → b.tripCount? = some n) part

/-- The addresses that a walk over the scope `s` may go through: the parts of its
    items in a row. -/
def Unrolls (t : ScopeTree) : Nat → Nat → List Address → Prop
  | 0, _, _ => False
  | depth + 1, s, l => ∃ parts : List (List Address), l = parts.flatten ∧
      List.Forall₂ (IsPart t (Unrolls t depth) s) (t.itemsAt s).zipIdx parts

-- What is related to a list has a partner for each of its members.
theorem exists_of_forall₂ {α β : Type} {R : α → β → Prop} {l : List α} {l' : List β}
    (h : List.Forall₂ R l l') {a : α} (ha : a ∈ l) : ∃ b ∈ l', R a b := by
  induction h with
  | nil => cases ha
  | cons hfirst _ ih =>
      rcases List.mem_cons.1 ha with rfl | ha
      · exact ⟨_, List.mem_cons_self, hfirst⟩
      · rcases ih ha with ⟨b, hb, hR⟩
        exact ⟨b, List.mem_cons_of_mem _ hb, hR⟩

/-- The scope `r` is the scope `s`, or lies inside it. -/
def Contains (t : ScopeTree) (s r : Nat) : Prop :=
  Relation.ReflTransGen (fun p c : Nat => t.parentAt c = some p) s r

namespace Trace

variable {t : ScopeTree} {target : Target} {u v w : Work (Array EmittedWord)}
  {l l' : List Address}

theorem append (h : Trace t target u l v) (h' : Trace t target v l' w) :
    Trace t target u (l ++ l') w := by
  induction h' with
  | start =>
      rw [List.append_nil]
      exact h
  | perform _ hskel hitem hexec ih =>
      rw [← List.append_assoc]
      exact ih.perform hskel hitem hexec
  | note _ he ih => exact ih.note he
  | header c hd _ ih => exact ih.header c hd

/-- Whatever stands in a trace has been carried out. -/
theorem exists_perform (h : Trace t target w l v) {m : Address} (hm : m ∈ l) :
    ∃ i x x', t.item? m = some (.instruction i) ∧ x.tree.skeleton = t.skeleton ∧
      (Unrolling.perform target i).exec x = (.ok (), x') := by
  induction h with
  | start => cases hm
  | perform _ hskel hitem hexec ih =>
      rcases List.mem_append.1 hm with hm | hm
      · exact ih hm
      · cases List.mem_singleton.1 hm
        exact ⟨_, _, _, hitem, hskel, hexec⟩
  | note _ _ ih => exact ih hm
  | header _ _ _ ih => exact ih hm

end Trace

namespace Yields

open PassM

variable {α β : Type} {t : ScopeTree} {target : Target} {w : Work (Array EmittedWord)}
  {m : UnrollM α} {f : α → UnrollM β} {P P' Q : List Address → Prop}

theorem mono (h : Yields t target w m P) (hP : ∀ l, P l → P' l) : Yields t target w m P' where
  skeleton := h.skeleton
  done a v hexec := by
    rcases h.done a v hexec with ⟨l, hl, hPl⟩
    exact ⟨l, hl, hP l hPl⟩
  failed := h.failed

theorem bind (hm : Yields t target w m P)
    (hf : ∀ a v, m.exec w = (.ok a, v) → v.tree.skeleton = t.skeleton →
      Yields t target v (f a) Q) :
    Yields t target w (m >>= f) (fun l => ∃ x y, l = x ++ y ∧ P x ∧ Q y) := by
  have hskel := hm.skeleton
  rcases hexec : m.exec w with ⟨result, v⟩
  rw [hexec] at hskel
  have hbind := exec_bind m f w
  rw [hexec] at hbind
  cases result with
  | error e =>
      dsimp only at hbind
      refine ⟨?_, fun b x hx => ?_, fun e' x hx => ?_⟩
      · rw [hbind]
        exact hskel
      · rw [hbind] at hx
        cases hx
      · rw [hbind] at hx
        cases hx
        exact hm.failed e v hexec
  | ok a =>
      dsimp only at hbind
      have hnext := hf a v hexec hskel
      refine ⟨?_, fun b x hx => ?_, fun e x hx => ?_⟩
      · rw [hbind]
        exact hnext.skeleton
      · rw [hbind] at hx
        rcases hm.done a v hexec with ⟨l, hl, hPl⟩
        rcases hnext.done b x hx with ⟨l', hl', hQl'⟩
        exact ⟨l ++ l', hl.append hl', l, l', rfl, hPl, hQl'⟩
      · rw [hbind] at hx
        exact hnext.failed e x hx

-- An action that carries out nothing, in front of others.
theorem next (hm : Yields t target w m (· = []))
    (hf : ∀ a v, m.exec w = (.ok a, v) → v.tree.skeleton = t.skeleton →
      Yields t target v (f a) Q) :
    Yields t target w (m >>= f) Q := by
  refine (hm.bind hf).mono ?_
  rintro l ⟨x, y, rfl, rfl, hy⟩
  exact hy

-- The same, behind others.
theorem last (hm : Yields t target w m P)
    (hf : ∀ a v, m.exec w = (.ok a, v) → v.tree.skeleton = t.skeleton →
      Yields t target v (f a) (· = [])) :
    Yields t target w (m >>= f) P := by
  refine (hm.bind hf).mono ?_
  rintro l ⟨x, y, rfl, hx, rfl⟩
  rw [List.append_nil]
  exact hx

theorem of_exec {r : Except Failure α} (hm : m.exec w = (r, w))
    (hw : w.tree.skeleton = t.skeleton) (hr : ∀ e, r = .error e → Origin t target e) :
    Yields t target w m (· = []) where
  skeleton := by rw [hm]; exact hw
  done a v hexec := by
    rw [hm] at hexec
    cases hexec
    exact ⟨[], .start, rfl⟩
  failed e v hexec := by
    rw [hm] at hexec
    cases hexec
    exact hr e rfl

theorem pure (a : α) (hw : w.tree.skeleton = t.skeleton) :
    Yields t target w (Pure.pure a : UnrollM α) (· = []) :=
  of_exec (exec_pure a w) hw fun e he => by cases he

theorem throw {e : Failure} (he : Origin t target e) (hw : w.tree.skeleton = t.skeleton) :
    Yields t target w (MonadExcept.throw e : UnrollM α) P where
  skeleton := hw
  done a v hexec := by
    rw [exec_throw] at hexec
    cases hexec
  failed e' v hexec := by
    rw [exec_throw] at hexec
    cases hexec
    exact he

-- What can fail with nothing but a fault.
theorem askFault (query : ScopeTree → Except Fault α) (hw : w.tree.skeleton = t.skeleton) :
    Yields t target w (ask fun u => orFault (query u)) (· = []) := by
  refine of_exec (exec_ask _ w) hw fun e he => ?_
  cases hquery : query w.tree with
  | error f =>
      rw [hquery] at he
      cases he
      exact .fault f
  | ok a =>
      rw [hquery] at he
      cases he

theorem note {e : Event} (he : e.isRepetition) (hw : w.tree.skeleton = t.skeleton) :
    Yields t target w (PassM.note e) (· = []) where
  skeleton := hw
  done a v hexec := by
    rw [exec_note] at hexec
    cases hexec
    exact ⟨[], Trace.start.note he, rfl⟩
  failed e' v hexec := by
    rw [exec_note] at hexec
    cases hexec

theorem setHeader {c s : Nat} (hc : t.parentAt c = some s) {header h₀ : LoopHeader}
    (hheader : t.headerAt c = some h₀) (hskel : header.skeleton = h₀.skeleton)
    (hw : w.tree.skeleton = t.skeleton) :
    Yields t target w (Unrolling.setHeader c header) (· = []) where
  skeleton := (Kept.setHeader hw hc hheader hskel).skeleton
  done a v hexec := by
    rw [Unrolling.setHeader_exec] at hexec
    cases hexec
    exact ⟨[], Trace.start.header c header, rfl⟩
  failed e v hexec := by
    rw [Unrolling.setHeader_exec] at hexec
    cases hexec

end Yields

/-! ## Bounds -/

section Bounds

variable {t u : ScopeTree} {c s : Nat} {h₀ h : LoopHeader} {b b' : Bounds}

-- Where the operands of a loop stand is part of its skeleton.
theorem boundsOf_of_skeleton (u : ScopeTree) (hskel : h.skeleton = h₀.skeleton) :
    u.boundsOf h = u.boundsOf h₀ :=
  boundsOf_congr hskel fun _ _ => rfl

-- The root is in no scope, and the other scopes are bodies.
theorem WellFormed.exists_body (ht : WellFormed t) (hc : t.parentAt c = some s) :
    ∃ m, BodyOf t c m := by
  have hpos : 0 < c := by
    rcases Nat.eq_zero_or_pos c with rfl | hpos
    · rw [ht.root] at hc
      cases hc
    · exact hpos
  exact ht.bodies c hpos (ScopeTree.lt_size_of_parentAt hc)

/-- The operands of a loop lead to symbols, so they always have values. -/
theorem WellFormed.exists_bounds (ht : WellFormed t) (hc : t.parentAt c = some s)
    (hheader : t.headerAt c = some h₀) (hu : u.skeleton = t.skeleton) :
    ∃ b, u.boundsOf h₀ = .ok b := by
  rcases ht.exists_body hc with ⟨m, hbody⟩
  rcases hbody.header with ⟨h₁, hh₁, hops⟩
  rw [hheader] at hh₁
  cases hh₁
  have hvalue : ∀ a ∈ h₀.operands, ∃ v, u.valueOf a h₀.source.number = .ok v := by
    intro a ha
    rcases (hops a ha).symbol with ⟨x, hx⟩
    rcases ScopeTree.exists_item hu hx with ⟨i, hi, hskel⟩
    rcases Item.skeleton_eq_symbol hskel with ⟨y, rfl, -⟩
    exact ⟨y.value, ScopeTree.valueOf_eq hi _⟩
  simp only [LoopHeader.operands, List.forall_mem_cons] at hvalue
  rcases hvalue with ⟨⟨start, hstart⟩, ⟨stop, hstop⟩, ⟨step, hstep⟩, -⟩
  refine ⟨⟨start, stop, step⟩, ?_⟩
  unfold ScopeTree.boundsOf
  rw [hstart, hstop, hstep]
  rfl

theorem Steady.eq (hb : Steady t h₀ b) (h : BoundsIn t h₀ b') : b' = b := by
  rcases h with ⟨u, hu, hread⟩
  rw [hb u hu] at hread
  cases hread
  rfl

end Bounds

namespace Unrolling

open PassM

variable {t : ScopeTree} {target : Target} {s : Nat} {w : Work (Array EmittedWord)}

/-! ## Instructions -/

-- A command leaves the tree alone.
theorem emit_exec (target : Target) (command : Command) (s : Nat) (source : SourceLine)
    (w : Work (Array EmittedWord)) :
    (perform target ⟨s, source, .emit command⟩).exec w =
      match w.tree.encode target source.number command with
      | .error e => (.error e, w)
      | .ok word =>
        let emitted := ⟨word, command.instructionClass, command.machineId, source⟩
        (.ok (), ⟨w.tree, w.log.push (.wordEmitted emitted), w.own.push emitted⟩) := by
  unfold perform
  dsimp only
  rw [exec_bind, exec_ask]
  cases w.tree.encode target source.number command with
  | error e => rfl
  | ok word => rfl

theorem fold_exec (target : Target) (op : Arithmetic) (a b : Address) (s : Nat)
    (source : SourceLine) (w : Work (Array EmittedWord)) :
    (perform target ⟨s, source, .fold op a b⟩).exec w =
      match w.tree.fold op a b source.number with
      | .error e => (.error e, w)
      | .ok (x, u) => (.ok (), ⟨u, w.log.push (.folded source.number op a x), w.own⟩) := by
  unfold perform
  dsimp only
  rw [exec_bind, exec_change]
  rcases w.tree.fold op a b source.number with e | ⟨x, u⟩
  · rfl
  · rfl

theorem reset_exec_eq (target : Target) (a b : Address) (s : Nat) (source : SourceLine)
    (w : Work (Array EmittedWord)) :
    (perform target ⟨s, source, .reset a b⟩).exec w =
      match w.tree.reset a b source.number with
      | .error e => (.error e, w)
      | .ok (x, u) => (.ok (), ⟨u, w.log.push (.variableReset source.number b x), w.own⟩) := by
  unfold perform
  dsimp only
  rw [exec_bind, exec_change]
  rcases w.tree.reset a b source.number with e | ⟨x, u⟩
  · rfl
  · rfl

/-- What an instruction has done if it has not failed. -/
theorem perform_cases {i : Instruction} {v : Work (Array EmittedWord)}
    (h : (perform target i).exec w = (.ok (), v)) :
    (∃ command word, i.action = .emit command ∧
      v = ⟨w.tree, w.log.push (.wordEmitted ⟨word, command.instructionClass, command.machineId,
        i.source⟩), w.own.push ⟨word, command.instructionClass, command.machineId, i.source⟩⟩) ∨
    (∃ op a b c d, i.action = .fold op a b ∧ w.tree.item? a = some (.symbol c) ∧
      w.tree.item? b = some (.symbol d) ∧
      v = ⟨w.tree.setItem a (.symbol { c with value := op.apply c.value d.value }),
        w.log.push (.folded i.source.number op a (op.apply c.value d.value)), w.own⟩) ∨
    (∃ a b c d, i.action = .reset a b ∧ w.tree.item? a = some (.symbol d) ∧
      w.tree.item? b = some (.symbol c) ∧
      v = ⟨w.tree.setItem b (.symbol { c with value := d.value }),
        w.log.push (.variableReset i.source.number b d.value), w.own⟩) := by
  rcases i with ⟨s, source, action⟩
  cases action with
  | emit command =>
      rw [emit_exec] at h
      cases hencode : w.tree.encode target source.number command with
      | error e =>
          rw [hencode] at h
          cases h
      | ok word =>
          rw [hencode] at h
          cases h
          exact Or.inl ⟨command, word, rfl, rfl⟩
  | fold op a b =>
      rw [fold_exec] at h
      rcases hfold : w.tree.fold op a b source.number with e | ⟨x, u⟩
      · rw [hfold] at h
        cases h
      · rw [hfold] at h
        cases h
        rcases ScopeTree.fold_eq_ok.1 hfold with ⟨c, d, hc, hd, -, -, rfl, rfl⟩
        exact Or.inr (Or.inl ⟨op, a, b, c, d, rfl, hc, hd, rfl⟩)
  | reset a b =>
      rw [reset_exec_eq] at h
      rcases hreset : w.tree.reset a b source.number with e | ⟨x, u⟩
      · rw [hreset] at h
        cases h
      · rw [hreset] at h
        cases h
        rcases ScopeTree.reset_eq_ok.1 hreset with ⟨d, c, hd, hc, -, rfl, rfl⟩
        exact Or.inr (Or.inr ⟨a, b, c, d, rfl, hd, hc, rfl⟩)
  | cleared =>
      rw [show perform target ⟨s, source, .cleared⟩ = throw _ from rfl, exec_throw] at h
      cases h

/-- Whatever an instruction complains about, it is on its line, and is not about a
    loop. -/
theorem perform_errors {i : Instruction} {v : Work (Array EmittedWord)} {e : Failure}
    (h : (perform target i).exec w = (.error e, v)) : e.OfInstruction i.source.number := by
  rcases i with ⟨s, source, action⟩
  cases action with
  | emit command =>
      rw [emit_exec] at h
      cases hencode : w.tree.encode target source.number command with
      | error e' =>
          rw [hencode] at h
          cases h
          exact encode_errors _ _ _ _ e hencode
      | ok word =>
          rw [hencode] at h
          cases h
  | fold op a b =>
      rw [fold_exec] at h
      rcases hfold : w.tree.fold op a b source.number with e' | ⟨x, u⟩
      · rw [hfold] at h
        cases h
        exact fold_errors _ _ _ _ _ e hfold
      · rw [hfold] at h
        cases h
  | reset a b =>
      rw [reset_exec_eq] at h
      rcases hreset : w.tree.reset a b source.number with e' | ⟨x, u⟩
      · rw [hreset] at h
        cases h
        exact reset_errors _ _ _ _ e hreset
      · rw [hreset] at h
        cases h
  | cleared =>
      rw [show perform target ⟨s, source, .cleared⟩ = throw _ from rfl,
        exec_throw] at h
      cases h
      exact ⟨trivial, rfl⟩

theorem perform_yields {m : Address} {i : Instruction} (hi : t.item? m = some (.instruction i))
    (hw : w.tree.skeleton = t.skeleton) : Yields t target w (perform target i) (· = [m]) where
  skeleton := (perform_keeps (s := 0) i hw).kept.skeleton
  done _ _ hexec := ⟨[m], Trace.start.perform hw hi hexec, rfl⟩
  failed _ _ hexec := .instruction hi hw hexec

/-! ## Loops -/

theorem tripCount?_of_expectedTrips {b : Bounds} {n : Nat} (h : expectedTrips b = .ok n) :
    b.tripCount? = some n := by
  unfold expectedTrips at h
  split at h
  · cases h
    assumption
  · cases h

section Loop

variable (ht : WellFormed t) {c : Nat} (hc : t.parentAt c = some s) {h₀ : LoopHeader}
  (hheader : t.headerAt c = some h₀) {P : List Address → Prop}

include ht hc hheader

/-- The trips of a loop, from any header of it on: there is one trip, and then
    maybe more. If the bounds stay as they are, their number is that of the trips
    that are due from the index on. -/
theorem runTrips_yields {walkBody : UnrollM Unit}
    (hbody : ∀ v : Work (Array EmittedWord), v.tree.skeleton = t.skeleton →
      Yields t target v walkBody P)
    (h : LoopHeader) (hskel : h.skeleton = h₀.skeleton) {b₀ : Bounds} (hb₀ : BoundsIn t h₀ b₀)
    (hstep : h.bounds.step = b₀.step) (hzero : b₀.step ≠ 0) (trip : Nat)
    (hw : w.tree.skeleton = t.skeleton) :
    Yields t target w (runTrips walkBody c h trip) (Trips P fun n => 0 < n ∧
      ∀ b, Steady t h₀ b → b.Reaches h.current.toInt → b.tripsFrom h.current.toInt = n) := by
  induction hroom : h.room using Nat.strongRecOn generalizing h b₀ trip w with
  | ind room ih =>
      rw [runTrips_step]
      refine (Yields.note rfl hw).next fun _ v _ hv => ?_
      -- What follows the first trip: nothing, or the other trips.
      refine ((hbody v hv).bind (Q := Trips P fun n => ∀ b, Steady t h₀ b →
        b.Reaches h.current.toInt → b.tripsFrom h.current.toInt = 1 + n)
          fun _ v' _ hv' => ?_).mono ?_
      · rcases ht.exists_bounds hc hheader hv' with ⟨b, hb⟩
        have hread := (boundsOf_of_skeleton v'.tree hskel).trans hb
        have hbounds : BoundsIn t h₀ b := ⟨_, hv', hb⟩
        refine (Yields.of_exec ((exec_ask _ v').trans (by rw [hread])) hv'
          fun e he => by cases he).next fun b' x hask hx => ?_
        rw [exec_ask, hread, Prod.mk.injEq, Except.ok.injEq] at hask
        rcases hask with ⟨rfl, rfl⟩
        rcases h.advance_cases b with ⟨-, hadv⟩ | ⟨-, -, hadv⟩ |
          ⟨hne, -, next, hadv, hnext, hstep', hcurrent⟩
        · rw [hadv]
          exact .throw (.update hheader hb₀ hstep hzero hbounds hadv) hx
        · rw [hadv]
          exact .throw (.update hheader hb₀ hstep hzero hbounds hadv) hx
        · have hnext' := hnext.trans hskel
          have hset : Yields t target v' (setHeader c next) (· = []) :=
            Yields.setHeader hc hheader hnext' hx
          rw [hadv]
          cases hahead : b.isAhead (h.current.toInt + b.step.toInt) with
          | false =>
              refine hset.next fun _ y _ hy => (Yields.pure trip hy).mono ?_
              rintro l rfl
              refine ⟨[], rfl, List.forall_mem_nil _, fun b' hsteady hreach => ?_⟩
              obtain rfl := hsteady.eq hbounds
              rw [Bounds.tripsFrom_step hne hreach, hahead]
              rfl
          | true =>
              rw [hahead] at hadv
              have hless : next.room < room := hroom ▸ LoopHeader.room_of_advance hadv
              refine hset.next fun _ y _ hy => ?_
              refine (ih next.room hless next hnext' hbounds hstep' hne (trip + 1) hy rfl).mono ?_
              rintro l ⟨trips, rfl, htrips, -, hdue⟩
              refine ⟨trips, rfl, htrips, fun b' hsteady hreach => ?_⟩
              obtain rfl := hsteady.eq hbounds
              rw [hcurrent hahead] at hdue
              rw [Bounds.tripsFrom_step hne hreach, hahead, if_pos rfl,
                hdue b hsteady (Bounds.reaches_of_isAhead hahead)]
      · rintro l ⟨x, y, rfl, hx, trips, rfl, htrips, hdue⟩
        refine ⟨x :: trips, rfl, List.forall_mem_cons.2 ⟨hx, htrips⟩, ?_⟩
        rw [List.length_cons, Nat.add_comm]
        exact ⟨by omega, hdue⟩

/-- A loop runs its body a number of times, but at least once. -/
theorem runLoop_yields {walkScope : ScopeId → UnrollM Unit}
    (hbody : ∀ v : Work (Array EmittedWord), v.tree.skeleton = t.skeleton →
      Yields t target v (walkScope c) P)
    (hw : w.tree.skeleton = t.skeleton) :
    Yields t target w (runLoop walkScope c) (Trips P fun n => 0 < n ∧
      ∀ h b, t.headerAt c = some h → Steady t h b → b.tripCount? = some n) := by
  unfold runLoop
  refine (Yields.askFault _ hw).next fun scope v hscope hv => ?_
  rw [exec_ask, Prod.mk.injEq] at hscope
  rcases hscope with ⟨hscope, rfl⟩
  rcases ScopeTree.exists_header hv hheader with ⟨h, hh, hskel⟩
  have hown : scope.header = some h := by
    unfold ScopeTree.headerAt at hh
    rwa [ScopeTree.scopes_of_orFault hscope] at hh
  rw [hown]
  rcases ht.exists_bounds hc hheader hv with ⟨b, hb⟩
  have hread := (boundsOf_of_skeleton w.tree hskel).trans hb
  have hbounds : BoundsIn t h₀ b := ⟨_, hv, hb⟩
  refine (Yields.of_exec ((exec_ask _ w).trans (by rw [hread])) hv
    fun e he => by cases he).next fun b' x hask hx => ?_
  rw [exec_ask, hread, Prod.mk.injEq, Except.ok.injEq] at hask
  rcases hask with ⟨rfl, rfl⟩
  -- A loop that is refused at its start does not get further.
  have hrefused : ∀ e, orRefuse (h.begin b) = .error e → Origin t target e := by
    intro e he
    cases hbegin : h.begin b with
    | error d =>
        rw [hbegin] at he
        cases he
        exact .entry hheader hbounds hbegin
    | ok _ =>
        rw [hbegin] at he
        cases he
  refine (Yields.of_exec (exec_ofExcept _ w) hx hrefused).next fun h' y hbegin hy => ?_
  rw [exec_ofExcept, Prod.mk.injEq] at hbegin
  rcases hbegin with ⟨hbegin, rfl⟩
  have hskel' := (skeleton_begin hbegin).trans hskel
  have hstart : b.check = .ok () ∧ h' = { h with bounds := b, current := b.start } := by
    unfold LoopHeader.begin at hbegin
    cases hcheck : b.check with
    | error cause =>
        rw [hcheck] at hbegin
        cases hbegin
    | ok _ =>
        rw [hcheck] at hbegin
        cases hbegin
        exact ⟨rfl, rfl⟩
  rcases hstart with ⟨hcheck, rfl⟩
  rcases expectedTrips_of_check hcheck with ⟨expected, hexpected⟩
  rcases Bounds.reaches_start hcheck with ⟨hzero, hreach⟩
  refine (Yields.setHeader hc hheader hskel' hy).next fun _ z _ hz => ?_
  refine (Yields.of_exec ((exec_ofExcept _ z).trans (by rw [hexpected])) hz
    fun e he => by cases he).next fun _ z' _ hz' => ?_
  refine (Yields.note rfl hz').next fun _ u _ hu => ?_
  refine Yields.last ?_ fun n u' _ hu' => Yields.note rfl hu'
  refine (runTrips_yields ht hc hheader hbody _ hskel' hbounds rfl hzero 1 hu).mono ?_
  rintro l ⟨trips, rfl, htrips, hpos, hdue⟩
  refine ⟨trips, rfl, htrips, hpos, fun h₁ b₁ hh₁ hsteady => ?_⟩
  -- The number that was announced is that of the trips due from the start on.
  rw [hheader] at hh₁
  cases hh₁
  obtain rfl := hsteady.eq hbounds
  have hcount := tripCount?_of_expectedTrips hexpected
  rw [hcount, ← hdue b hsteady hreach, ← Bounds.tripsFrom_start hcount]

end Loop

/-! ## Scopes -/

-- Items in a row, each with its index.
theorem forM_yields {f : Item → UnrollM Unit} {P : Item × Nat → List Address → Prop}
    {items : List Item} {k : Nat}
    (hitem : ∀ entry ∈ items.zipIdx k, ∀ v : Work (Array EmittedWord),
      v.tree.skeleton = t.skeleton → Yields t target v (f entry.1) (P entry))
    (hw : w.tree.skeleton = t.skeleton) :
    Yields t target w (items.forM f) (fun l => ∃ parts : List (List Address),
      l = parts.flatten ∧ List.Forall₂ P (items.zipIdx k) parts) := by
  induction items generalizing k w with
  | nil =>
      rw [List.forM_eq_forM, List.forM_nil]
      refine (Yields.pure () hw).mono ?_
      rintro l rfl
      exact ⟨[], rfl, .nil⟩
  | cons i rest ih =>
      rw [List.forM_eq_forM, List.forM_cons]
      rw [List.zipIdx_cons] at hitem ⊢
      refine ((hitem (i, k) List.mem_cons_self w hw).bind fun _ v _ hv =>
        ih (fun entry hentry => hitem entry (List.mem_cons_of_mem _ hentry)) hv).mono ?_
      rintro l ⟨x, y, rfl, hx, parts, rfl, hparts⟩
      exact ⟨x :: parts, rfl, .cons hx hparts⟩

/-- A walk over a scope carries out one of the lists of the scope. If it fails
    instead, the failure has an origin. -/
theorem walk_yields (ht : WellFormed t) (hrooted : Rooted t) (depth s : Nat)
    (hw : w.tree.skeleton = t.skeleton) :
    Yields t target w (walk target depth s) (Unrolls t depth s) := by
  induction depth generalizing s w with
  | zero => exact .throw (.fault _) hw
  | succ depth ih =>
      unfold walk
      refine (Yields.askFault _ hw).next fun scope v hscope hv => ?_
      rw [exec_ask, Prod.mk.injEq] at hscope
      rcases hscope with ⟨hscope, rfl⟩
      have hitems : scope.items.toList = w.tree.itemsAt s := by
        unfold ScopeTree.itemsAt
        rw [ScopeTree.scopes_of_orFault hscope]
        rfl
      rw [hitems, forM_congr target _ (ScopeTree.items_of_skeleton hv s)]
      refine forM_yields (k := 0) (fun entry hentry v hv => ?_) hv
      rcases entry with ⟨item, k⟩
      have hitem : t.item? ⟨s, k⟩ = some item := by
        rw [ScopeTree.item?_eq]
        exact List.mem_zipIdx_iff_getElem?.1 hentry
      cases item with
      | symbol _ => exact Yields.pure () hv
      | instruction i => exact perform_yields hitem hv
      | loop c =>
          have hmem : Item.loop c ∈ t.itemsAt s := by
            rw [ScopeTree.item?_eq] at hitem
            exact List.mem_of_getElem? hitem
          have hc := hrooted.linked s c hmem
          rcases ht.exists_body hc with ⟨m, hbody⟩
          rcases hbody.header with ⟨h₀, hheader, -⟩
          exact runLoop_yields ht hc hheader (fun x hx => ih c hx) hv

end Unrolling

/-! ## Instructions of a scope -/

section Contains

variable {t : ScopeTree}

-- Only a body is nested in a scope, and its marker stands there.
theorem WellFormed.exists_marker (ht : WellFormed t) {s c : Nat} (hc : t.parentAt c = some s) :
    ∃ k, t.item? ⟨s, k⟩ = some (.loop c) := by
  rcases ht.exists_body hc with ⟨m, hbody⟩
  have hscope := hbody.parent
  rw [hc, Option.some.injEq] at hscope
  subst hscope
  exact ⟨m.index, (hbody.marker m).2 rfl⟩

theorem WellFormed.contains_root (ht : WellFormed t) {s : Nat} (hs : s < t.size) :
    Contains t 0 s := by
  induction s using Nat.strongRecOn with
  | ind s ih =>
      rcases Nat.eq_zero_or_pos s with rfl | hpos
      · exact .refl
      · rcases ht.bodies s hpos hs with ⟨m, hbody⟩
        exact (ih m.scope hbody.older (Nat.lt_trans hbody.older hs)).tail hbody.parent

theorem WellFormed.contains_item (ht : WellFormed t) {m : Address} {item : Item}
    (hm : t.item? m = some item) : Contains t 0 m.scope := by
  rw [ScopeTree.item?_eq] at hm
  exact ht.contains_root (ScopeTree.lt_size_of_mem (List.mem_of_getElem? hm))

/-- Every instruction of a scope is carried out, also those in loops, because
    loops make at least one trip. -/
theorem Unrolls.mem (ht : WellFormed t) {depth s : Nat} {l : List Address}
    (h : Unrolls t depth s l) {m : Address} {i : Instruction}
    (hm : t.item? m = some (.instruction i)) (hin : Contains t s m.scope) : m ∈ l := by
  induction depth generalizing s l with
  | zero => exact h.elim
  | succ depth ih =>
      rcases h with ⟨parts, rfl, hparts⟩
      -- The part of the item at an index.
      have hpart : ∀ {k : Nat} {item : Item}, t.item? ⟨s, k⟩ = some item →
          (item, k) ∈ (t.itemsAt s).zipIdx := by
        intro k item hitem
        rw [ScopeTree.item?_eq] at hitem
        exact List.mem_zipIdx_iff_getElem?.2 hitem
      rw [List.mem_flatten]
      rcases Relation.ReflTransGen.cases_head hin with hscope | ⟨c, hc, hin'⟩
      · rcases m with ⟨r, k⟩
        obtain rfl : s = r := hscope
        rcases exists_of_forall₂ hparts (hpart hm) with ⟨part, hmem, hpart⟩
        refine ⟨part, hmem, ?_⟩
        rw [show part = [⟨s, k⟩] from hpart]
        exact List.mem_singleton_self _
      · rcases ht.exists_marker hc with ⟨k, hk⟩
        rcases exists_of_forall₂ hparts (hpart hk) with ⟨part, hmem, trips, rfl, htrips, hpos, -⟩
        refine ⟨_, hmem, ?_⟩
        cases trips with
        | nil => exact absurd hpos (Nat.lt_irrefl 0)
        | cons trip rest =>
            rw [List.flatten_cons]
            exact List.mem_append_left _ (ih (htrips trip List.mem_cons_self) hin')

end Contains

end UnrollAsm
