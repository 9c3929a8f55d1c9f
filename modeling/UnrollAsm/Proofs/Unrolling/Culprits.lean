import UnrollAsm.Proofs.Session.Points

/-!
# Where Unrolling Fails

A walk that fails has been carrying something out: an instruction, or a loop that
it was about to enter or to go on with. The walk is followed down to this point.
Everything before it has been carried out without fail, and the state there is the
one that the walk has come to, so it can be said what exactly was carried out, and
in which state.

The complaint is on the line that the instruction was read from, or on the line
that the loop was opened by.

## Main definitions

* `Culprit`: What is being carried out when a walk fails.
* `Unrolling.ComesTo`: A walk has come to an item.
* `Unrolling.FailsAt`: A walk fails while something is being carried out.

## Theorems

* `PassM.exists_of_forM_error`: Actions in a row fail at one of them.
* `Unrolling.walk_fails`: A walk that fails was carrying something out.
* `Unrolling.FailsAt.line`: What it complains about is on the line of that.
-/

namespace UnrollAsm

/-- What is being carried out when a walk fails. -/
inductive Culprit where
  | instruction (i : Instruction)
  /-- A loop that is entered, or that is about to go on. -/
  | loop (header : LoopHeader)

/-- The line that it was read from. -/
def Culprit.source : Culprit → SourceLine
  | instruction i => i.source
  | loop header => header.source

/-- Actions in a row fail at one of them, those before it having been carried
    out. -/
theorem PassM.exists_of_forM_error {σ α : Type} {f : α → PassM σ Unit} {l : List α}
    {w v : Work σ} {e : Failure} (h : (l.forM f).exec w = (.error e, v)) :
    ∃ k a x, ((l.take k).forM f).exec w = (.ok (), x) ∧ l[k]? = some a ∧
      (f a).exec x = (.error e, v) := by
  induction l generalizing w with
  | nil => cases h
  | cons a rest ih =>
      have hcons : ∀ part : List α, (a :: part).forM f = (f a >>= fun _ => part.forM f) :=
        fun part => List.forM_cons
      rw [hcons] at h
      rcases bind_error h with hfirst | ⟨⟨⟩, x, hfirst, hrest⟩
      · exact ⟨0, a, w, rfl, rfl, hfirst⟩
      · rcases ih hrest with ⟨k, b, y, hpart, hb, hfail⟩
        refine ⟨k + 1, b, y, ?_, hb, hfail⟩
        rw [List.take_succ_cons, hcons, exec_bind, hfirst]
        exact hpart

theorem orFault_ne_refused {α : Type} (r : Except Fault α) (d : Diagnostic) :
    orFault r ≠ .error (.refused d) := by
  intro h
  cases r with
  | error f => cases h
  | ok a => cases h

theorem orRefuse_eq_ok {α : Type} {r : Except Diagnostic α} {a : α} (h : orRefuse r = .ok a) :
    r = .ok a := by
  cases r with
  | error d => cases h
  | ok b =>
      cases h
      rfl

namespace Unrolling

open PassM

/-- A walk over the scope `s` has come from the state `w` to the state `v` and to
    the given item, with the items in front of it carried out. -/
structure ComesTo (target : Target) (depth : Nat) (s : ScopeId) (w : Work (Array EmittedWord))
    (item : Item) (v : Work (Array EmittedWord)) : Prop where
  passed : ∃ scope k, w.tree.scope s = .ok scope ∧ scope.items.toList[k]? = some item ∧
    ((scope.items.toList.take k).forM (carryOut target (walk target depth))).exec w = (.ok (), v)

/-- A walk over the scope `s` from the state `w` on ends in the complaint `d` while
    something is being carried out. -/
inductive FailsAt (target : Target) (d : Diagnostic) :
    Nat → ScopeId → Work (Array EmittedWord) → Culprit → Prop
  /-- An instruction fails. -/
  | instruction {depth : Nat} {s : ScopeId} {w v x : Work (Array EmittedWord)}
      {i : Instruction} :
      ComesTo target depth s w (.instruction i) v →
      (perform target i).exec v = (.error (.refused d), x) →
      FailsAt target d (depth + 1) s w (.instruction i)
  /-- A loop is refused when it is entered. -/
  | entry {depth : Nat} {s body : ScopeId} {w v : Work (Array EmittedWord)}
      {header : LoopHeader} :
      ComesTo target depth s w (.loop body) v → v.tree.headerAt body = some header →
      (v.tree.boundsOf header >>= fun b => orRefuse (header.begin b)) = .error (.refused d) →
      FailsAt target d (depth + 1) s w (.loop header)
  /-- A loop is refused after a trip. -/
  | advance {depth : Nat} {s body : ScopeId} {w v x y : Work (Array EmittedWord)}
      {h : LoopHeader} :
      ComesTo target depth s w (.loop body) v → TripStart target depth body v x h →
      (walk target depth body).exec x = (.ok (), y) →
      (y.tree.boundsOf h >>= fun b => orRefuse (h.advance b.stop b.step)) =
        .error (.refused d) →
      FailsAt target d (depth + 1) s w (.loop h)
  /-- A trip of a loop fails. -/
  | inside {depth : Nat} {s body : ScopeId} {w v x : Work (Array EmittedWord)}
      {h : LoopHeader} {culprit : Culprit} :
      ComesTo target depth s w (.loop body) v → TripStart target depth body v x h →
      FailsAt target d depth body x culprit → FailsAt target d (depth + 1) s w culprit

namespace ComesTo

variable {target : Target} {depth : Nat} {s : ScopeId} {w v : Work (Array EmittedWord)}
  {item : Item} {t : ScopeTree}

theorem item? (h : ComesTo target depth s w item v) : ∃ k, w.tree.item? ⟨s, k⟩ = some item := by
  rcases h.passed with ⟨scope, k, hscope, hitem, -⟩
  refine ⟨k, ?_⟩
  rw [ScopeTree.item?_eq]
  unfold ScopeTree.itemsAt
  rw [ScopeTree.scopes_of_orFault (show orFault (w.tree.scope s) = .ok scope by rw [hscope]; rfl)]
  exact hitem

theorem skeleton (h : ComesTo target depth s w item v) (ht : Rooted t)
    (hw : w.tree.skeleton = t.skeleton) : v.tree.skeleton = t.skeleton := by
  rcases h.passed with ⟨scope, k, hscope, -, hpart⟩
  have hkeeps : Keeps t s w ((scope.items.toList.take k).forM
      (carryOut target (walk target depth))) _ := items_keeps ht depth hscope k hw
  have hkept := hkeeps.kept.skeleton
  rwa [hpart] at hkept

end ComesTo

/-- What a walk complains about is on the line of what is being carried out. -/
theorem FailsAt.line {target : Target} {d : Diagnostic} {depth : Nat} {s : ScopeId}
    {w : Work (Array EmittedWord)} {culprit : Culprit}
    (h : FailsAt target d depth s w culprit) : d.line = some culprit.source.number := by
  induction h with
  | instruction _ hfail => exact (perform_errors hfail).isOn
  | @entry _ _ _ _ v header _ _ hfail =>
      exact ((boundsOf_errors v.tree header).bind fun b => begin_errors header b) _ hfail
  | @advance _ _ _ _ _ _ y h _ _ _ hfail =>
      exact ((boundsOf_errors y.tree h).bind fun b => advance_errors h b.stop b.step) _ hfail
  | inside _ _ _ ih => exact ih

/-! ## Loops -/

section Loop

variable {target : Target} {d : Diagnostic} {depth : Nat} {body : ScopeId}
  {v x z : Work (Array EmittedWord)} {h : LoopHeader}

/-- A trip of a loop that is entered in the state `v` fails, or the loop is refused
    after the trip. -/
def FailsInTrip (target : Target) (d : Diagnostic) (depth : Nat) (body : ScopeId)
    (v : Work (Array EmittedWord)) : Prop :=
  ∃ x h y, TripStart target depth body v x h ∧
    ((walk target depth body).exec x = (.error (.refused d), y) ∨
      ((walk target depth body).exec x = (.ok (), y) ∧
        (y.tree.boundsOf h >>= fun b => orRefuse (h.advance b.stop b.step)) =
          .error (.refused d)))

/-- The trips of a loop fail in one of them. -/
theorem runTrips_fails {trip : Nat}
    (hstart : ∀ log, TripStart target depth body v ⟨x.tree, log, x.own⟩ h)
    (hexec : (runTrips (walk target depth body) body h trip).exec x =
      (.error (.refused d), z)) : FailsInTrip target d depth body v := by
  induction hroom : h.room using Nat.strongRecOn generalizing h trip x with
  | ind room ih =>
      rw [runTrips_step, exec_bind, exec_note] at hexec
      have hfirst := hstart (x.log.push (.tripStarted body trip h.current))
      rcases bind_error hexec with hwalk | ⟨⟨⟩, y, hwalk, hafter⟩
      · exact ⟨_, h, z, hfirst, Or.inl hwalk⟩
      rcases ask_bind_error hafter with hbounds | ⟨b, hbounds, hadvance⟩
      · refine ⟨_, h, y, hfirst, Or.inr ⟨hwalk, ?_⟩⟩
        rw [hbounds]
        rfl
      rcases hadv : h.advance b.stop b.step with d' | ⟨_ | _, next⟩
      · rw [hadv] at hadvance
        cases hadvance
        refine ⟨_, h, _, hfirst, Or.inr ⟨hwalk, ?_⟩⟩
        rw [hbounds]
        exact congrArg orRefuse hadv
      · -- The loop has ended, and nothing has failed.
        rw [hadv] at hadvance
        cases hadvance
      · rw [hadv] at hadvance
        have hless : next.room < room := hroom ▸ LoopHeader.room_of_advance hadv
        exact ih next.room hless (fun log => .next hfirst hwalk hbounds hadv) hadvance rfl

/-- A loop that fails is refused when it is entered, or fails in a trip. -/
theorem runLoop_fails
    (hexec : (runLoop (walk target depth) body).exec v = (.error (.refused d), z)) :
    (∃ header, v.tree.headerAt body = some header ∧
      (v.tree.boundsOf header >>= fun b => orRefuse (header.begin b)) =
        .error (.refused d)) ∨
    FailsInTrip target d depth body v := by
  unfold runLoop at hexec
  rcases ask_bind_error hexec with hscope | ⟨scope, hscope, hexec⟩
  · exact absurd hscope (orFault_ne_refused _ _)
  cases hown : scope.header with
  | none =>
      rw [hown] at hexec
      cases hexec
  | some header =>
      rw [hown] at hexec
      have hheader : v.tree.headerAt body = some header := by
        unfold ScopeTree.headerAt
        rw [ScopeTree.scopes_of_orFault hscope]
        exact hown
      rcases ask_bind_error hexec with hbounds | ⟨b, hbounds, hexec⟩
      · refine Or.inl ⟨header, hheader, ?_⟩
        rw [hbounds]
        rfl
      rcases ofExcept_bind_error hexec with hbegin | ⟨h, hbegin, hexec⟩
      · refine Or.inl ⟨header, hheader, ?_⟩
        rw [hbounds]
        exact hbegin
      rw [exec_bind, setHeader_exec] at hexec
      rcases ofExcept_bind_error hexec with hexpected | ⟨n, -, hexec⟩
      · -- A number of trips that cannot be told is a fault.
        unfold expectedTrips at hexpected
        split at hexpected
        · cases hexpected
        · cases hexpected
      rw [exec_bind, exec_note] at hexec
      rcases bind_error hexec with htrips | ⟨n, y, -, hleft⟩
      · have hbegun := orRefuse_eq_ok hbegin
        exact Or.inr (runTrips_fails (fun log => .first hheader hbounds hbegun) htrips)
      · cases hleft

end Loop

/-! ## Walks -/

/-- A walk that fails was carrying something out. -/
theorem walk_fails {target : Target} {d : Diagnostic} {depth : Nat} {s : ScopeId}
    {w z : Work (Array EmittedWord)}
    (hexec : (walk target depth s).exec w = (.error (.refused d), z)) :
    ∃ culprit, FailsAt target d depth s w culprit := by
  induction depth generalizing s w z with
  | zero => cases hexec
  | succ depth ih =>
      rw [walk] at hexec
      rcases ask_bind_error hexec with hscope | ⟨scope, hscope, hitems⟩
      · exact absurd hscope (orFault_ne_refused _ _)
      rcases exists_of_forM_error hitems with ⟨k, item, v, hpart, hitem, hfail⟩
      have hcomes : ComesTo target depth s w item v :=
        ⟨scope, k, ScopeTree.scope_eq_ok (ScopeTree.scopes_of_orFault hscope), hitem, hpart⟩
      cases item with
      | symbol c => cases hfail
      | instruction i => exact ⟨.instruction i, .instruction hcomes hfail⟩
      | loop body =>
          rcases runLoop_fails hfail with ⟨header, hheader, hentry⟩ |
            ⟨x, h, y, hstart, hwalk | ⟨hwalk, hadvance⟩⟩
          · exact ⟨.loop header, .entry hcomes hheader hentry⟩
          · rcases ih hwalk with ⟨culprit, hculprit⟩
            exact ⟨culprit, .inside hcomes hstart hculprit⟩
          · exact ⟨.loop h, .advance hcomes hstart hwalk hadvance⟩

end Unrolling

end UnrollAsm
