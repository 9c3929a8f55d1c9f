import UnrollAsm.Proofs.Pieces
import UnrollAsm.Proofs.Reading.Blocks
import UnrollAsm.Proofs.Session.FailStop

/-!
# Tables in Reports

What happens in a pass is told in words alone. The tables that a session shows come
from outside the passes: the tree when a program has been read, and the words and
the symbols when it has been assembled. So a call that fails shows no table.

## Main definitions

* `PassM.Notes`: All events that an action notes are of one kind.

## Theorems

* `Reading.readProgram_notes`, `Unrolling.walk_notes`: The passes note no tables.
* `Assembler.tables_parse`, `Assembler.tables_assemble`: The tables of a call.
-/

namespace UnrollAsm

/-- The event is told without tables. -/
def Event.Bare (e : Event) : Prop :=
  e.tables = []

namespace PassM

variable {σ α β : Type}

/-- Whatever comes of the action, the events that it notes are of one kind. -/
def Notes (P : Event → Prop) (m : PassM σ α) : Prop :=
  ∀ w : Work σ, (∀ e ∈ w.log, P e) → ∀ e ∈ (m.exec w).2.log, P e

namespace Notes

variable {P : Event → Prop} {m : PassM σ α}

-- An action that notes nothing.
theorem of_log (h : ∀ w : Work σ, (m.exec w).2.log = w.log) : Notes P m := by
  intro w hw
  rw [h w]
  exact hw

theorem pure (a : α) : Notes P (Pure.pure a : PassM σ α) :=
  of_log fun _ => rfl

theorem throw (f : Failure) : Notes P (MonadExcept.throw f : PassM σ α) :=
  of_log fun _ => rfl

theorem ofExcept (r : Except Failure α) : Notes P (MonadExcept.ofExcept r : PassM σ α) :=
  of_log fun w => by rw [exec_ofExcept]

theorem ask (query : ScopeTree → Except Failure α) : Notes P (PassM.ask query : PassM σ α) :=
  of_log fun w => by rw [exec_ask]

theorem change (step : ScopeTree → Except Failure (α × ScopeTree)) :
    Notes P (PassM.change step : PassM σ α) := by
  refine of_log fun w => ?_
  rw [exec_change]
  cases step w.tree with
  | error e => rfl
  | ok r => rfl

theorem own : Notes P (PassM.own : PassM σ σ) :=
  of_log fun _ => rfl

theorem setOwn (f : σ → σ) : Notes P (PassM.setOwn f : PassM σ Unit) :=
  of_log fun _ => rfl

theorem note {e : Event} (he : P e) : Notes P (PassM.note e : PassM σ Unit) := by
  intro w hw e' he'
  rcases Array.mem_push.1 he' with he' | rfl
  · exact hw e' he'
  · exact he

theorem bind {f : α → PassM σ β} (hm : Notes P m) (hf : ∀ a, Notes P (f a)) :
    Notes P (m >>= f) := by
  intro w hw
  have hfirst := hm w hw
  rw [exec_bind]
  rcases hexec : m.exec w with ⟨e | a, v⟩
  · rw [hexec] at hfirst
    exact hfirst
  · rw [hexec] at hfirst
    exact hf a v hfirst

theorem forM {γ : Type} {f : γ → PassM σ Unit} (hf : ∀ c, Notes P (f c)) (l : List γ) :
    Notes P (l.forM f) := by
  induction l with
  | nil => exact pure _
  | cons c rest ih =>
      rw [List.forM_eq_forM, List.forM_cons]
      exact (hf c).bind fun _ => ih

theorem bare {e : Event} (he : e.tables = []) :
    Notes Event.Bare (PassM.note e : PassM σ Unit) :=
  note he

-- A pass starts with nothing noted.
theorem start (h : Notes P m) (t : ScopeTree) (s : σ) : ∀ e ∈ (m.start t s).2.log, P e :=
  h ⟨t, #[], s⟩ fun e he => absurd he (Array.not_mem_empty e)

-- An event with a table is not from a pass that is told without.
theorem not_mem (h : Notes Event.Bare m) (t : ScopeTree) (s : σ) {e : Event} {g : Grid}
    (hg : g ∈ e.tables) : e ∉ (m.start t s).2.log := by
  intro hmem
  rw [h.start t s e hmem] at hg
  cases hg

end Notes

end PassM

open PassM

/-! ## Reading -/

theorem Stepwise.notes {line : Nat} {α : Type} {m : ReadM α} (h : Stepwise line m) :
    Notes Event.Bare m := by
  induction h with
  | pure a => exact .pure a
  | refuse cause => exact .throw _
  | ofExcept _ => exact .ofExcept _
  | ask _ => exact .ask _
  | change _ => exact .change _
  | note he => exact .bare he
  | own => exact .own
  | setOwn f => exact .setOwn f
  | bind _ _ ihm ihf => exact ihm.bind ihf

namespace Reading

variable {target : Target}

theorem countOn_notes (lines : List (Nat × String)) (count : Nat) :
    Notes Event.Bare (countOn target lines count) := by
  induction lines generalizing count with
  | nil => exact .pure count
  | cons line rest ih =>
      rw [countOn_cons]
      exact (stepwise_readLine line.1 line.2).notes.bind fun n => ih (count + n)

/-- Reading lines is told without tables. -/
theorem readProgram_notes (lines : List (Nat × String)) :
    Notes Event.Bare (readProgram target lines) := by
  refine (countOn_notes lines 0).bind fun count => ?_
  -- At the end there is at most a complaint.
  have hfinish : Notes Event.Bare finish := by
    refine Notes.own.bind fun s => (Notes.ask _).bind fun scope => ?_
    cases scope.header with
    | none => exact .pure ()
    | some header => exact .throw _
  exact hfinish.bind fun _ => .pure count

end Reading

/-! ## Unrolling -/

namespace Unrolling

variable {target : Target}

theorem perform_notes (i : Instruction) : Notes Event.Bare (perform target i) := by
  unfold perform
  cases i.action with
  | emit command =>
      exact (Notes.ask _).bind fun word => (Notes.setOwn _).bind fun _ => .bare rfl
  | fold op first second => exact (Notes.change _).bind fun value => .bare rfl
  | reset source written => exact (Notes.change _).bind fun value => .bare rfl
  | cleared => exact .throw _

theorem runTrips_notes {walkBody : UnrollM Unit} (hbody : Notes Event.Bare walkBody)
    (c : ScopeId) (h : LoopHeader) (trip : Nat) :
    Notes Event.Bare (runTrips walkBody c h trip) := by
  induction hroom : h.room using Nat.strongRecOn generalizing h trip with
  | ind room ih =>
      rw [runTrips_step]
      refine (Notes.bare rfl).bind fun _ => hbody.bind fun _ => (Notes.ask _).bind fun b => ?_
      cases hadv : h.advance b.stop b.step with
      | error d => exact .throw _
      | ok result =>
          rcases result with ⟨again, next⟩
          cases again with
          | false => exact (Notes.change _).bind fun _ => .pure trip
          | true =>
              have hless := LoopHeader.room_of_advance hadv
              exact (Notes.change _).bind fun _ => ih next.room (hroom ▸ hless) next (trip + 1) rfl

theorem runLoop_notes {walkScope : ScopeId → UnrollM Unit} {c : ScopeId}
    (hbody : Notes Event.Bare (walkScope c)) : Notes Event.Bare (runLoop walkScope c) := by
  refine (Notes.ask _).bind fun scope => ?_
  cases scope.header with
  | none => exact .throw _
  | some header =>
      refine (Notes.ask _).bind fun bounds => (Notes.ofExcept _).bind fun header =>
        (Notes.change _).bind fun _ => (Notes.ofExcept _).bind fun expected => ?_
      exact (Notes.bare rfl).bind fun _ => (runTrips_notes hbody c header 1).bind fun _ =>
        .bare rfl

/-- Walking over a scope is told without tables. -/
theorem walk_notes (depth : Nat) (s : ScopeId) : Notes Event.Bare (walk target depth s) := by
  induction depth generalizing s with
  | zero => exact .throw _
  | succ depth ih =>
      refine (Notes.ask _).bind fun scope => .forM (fun item => ?_) _
      cases item with
      | symbol _ => exact .pure ()
      | instruction i => exact perform_notes i
      | loop c => exact runLoop_notes (ih c)

end Unrolling

/-! ## Calls -/

namespace Assembler

variable {a : Assembler} {e : Event} {g : Grid}

/-- The tables of a call that reads are those of the tree that it leaves. -/
theorem tables_parse {lines : List (Nat × String)} (he : e ∈ (a.parse lines).log)
    (hg : g ∈ e.tables) : g ∈ (a.parse lines).after.tree.scopeTables := by
  have hquiet : e ∉ (Reading.run a.target a.tree lines).2.log :=
    (Reading.readProgram_notes lines).not_mem a.tree ScopeId.root hg
  unfold parse at he ⊢
  rcases hrun : Reading.run a.target a.tree lines with ⟨f | n, w⟩
  · rw [hrun] at he hquiet
    exact absurd (Array.mem_toList_iff.1 he) hquiet
  · rw [hrun] at he hquiet
    rcases List.mem_append.1 he with he | he
    · exact absurd (Array.mem_toList_iff.1 he) hquiet
    · simp only [List.mem_cons, List.not_mem_nil, or_false] at he
      rcases he with rfl | rfl
      · cases hg
      · exact hg

/-- The tables of a call that assembles show the words that it returns, and the
    symbols of the tree that has been unrolled. -/
theorem tables_assemble (he : e ∈ a.assemble.log) (hg : g ∈ e.tables) :
    ∃ words, a.assemble.answer = .ok words ∧ (g = disassembly a.target words ∨
      g = (Unrolling.run a.target a.tree).2.tree.symbolTable) := by
  have hquiet : e ∉ (Unrolling.run a.target a.tree).2.log :=
    (Unrolling.walk_notes a.tree.size ScopeId.root).not_mem a.tree #[] hg
  cases hfailure : a.failure with
  | some d =>
      rw [assemble_of_failure hfailure] at he
      cases List.mem_singleton.1 he
      cases hg
  | none =>
      cases hdone : a.assembled with
      | true =>
          rw [assemble_of_assembled hfailure hdone] at he
          cases List.mem_singleton.1 he
          cases hg
      | false =>
          rw [assemble_of_pending hfailure hdone] at he ⊢
          unfold unroll at he ⊢
          rcases hrun : Unrolling.run a.target a.tree with ⟨f | ⟨⟩, w⟩
          · rw [hrun] at he hquiet
            exact absurd (Array.mem_toList_iff.1 he) hquiet
          · rw [hrun] at he hquiet
            refine ⟨w.own.toList, rfl, ?_⟩
            rcases List.mem_append.1 he with he | he
            · exact absurd (Array.mem_toList_iff.1 he) hquiet
            · simp only [List.mem_cons, List.not_mem_nil, or_false] at he
              rcases he with rfl | rfl | rfl | rfl
              · cases hg
              · exact Or.inl (List.mem_singleton.1 hg)
              · exact Or.inr (List.mem_singleton.1 hg)
              · cases hg

end Assembler

end UnrollAsm
