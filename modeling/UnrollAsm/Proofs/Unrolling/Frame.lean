import Mathlib.Algebra.Group.Nat.Defs
import Mathlib.Logic.Relation
import UnrollAsm.Proofs.Pass
import UnrollAsm.Proofs.Tree.Rooted
import UnrollAsm.Proofs.Unrolling.Simulation

/-!
# What Unrolling Leaves Alone

A walk over a scope keeps the skeleton of the tree, and of all the headers it
writes to those of loops inside the scope only. In particular the header of a
loop is not touched while its body is walked over, so the header in the tree is
the one that the run of the loop holds, and no loop is entered again from its
own body. A run that asks the tree for the header before every trip and after it
comes to the same.

Every trip of a loop is noted. The index of a loop moves in one direction and
never leaves its range, so an entry of a loop starts no more trips than the index
has room for, and one. The body adds none to them, because all the trips that it
starts are those of loops further inside.

All of this holds however the walk ends, and for any values in the tree.

## Main definitions

* `Inside`: A scope lies strictly inside another.
* `tripsOf`: The number of trips of a loop that have been noted.
* `Kept`: What unrolling a scope keeps.
* `Keeps`: Two actions do the same, and keep what unrolling a scope keeps.
* `Starts`: An action starts so many trips of a loop at most.
* `Unrolling.rereadTrips`: Trips that take the header from the tree.

## Theorems

* `Unrolling.walk_keeps`: A walk keeps everything outside its scope, and more
  depth than there are scopes makes no difference to it.
* `Unrolling.runLoop_starts`: One entry of a loop starts a bounded number of
  trips of it.
* `Unrolling.runTrips_eq_rereadTrips`: The header in the tree is the one in hand.
-/

namespace UnrollAsm

/-- The scope `r` lies strictly inside the scope `s`. -/
def Inside (t : ScopeTree) (s r : Nat) : Prop :=
  Relation.TransGen (fun p c : Nat => t.parentAt c = some p) s r

/-- The event is the start of a trip of a loop. -/
def Event.isTripOf (c : Nat) : Event → Bool
  | .tripStarted body _ _ => body = c
  | _ => false

/-- The number of trips of a loop that have been noted. -/
def tripsOf (c : Nat) (log : Array Event) : Nat :=
  log.toList.countP (Event.isTripOf c)

/-- The number of trips that no entry of a loop exceeds. -/
def maxTrips : Nat := 2 ^ 32

/-- What unrolling the scope `s` of a program `t` keeps, from one state to a
    later one. -/
structure Kept (t : ScopeTree) (s : Nat) (w v : Work (Array EmittedWord)) : Prop where
  skeleton : v.tree.skeleton = t.skeleton
  headers : ∀ r, ¬ Inside t s r → v.tree.headerAt r = w.tree.headerAt r
  trips : ∀ r, ¬ Inside t s r → tripsOf r v.log = tripsOf r w.log

/-- Two actions do the same in a state, and keep what unrolling the scope `s`
    keeps. Most often they are one and the same action; where they differ, it is
    in the depth that is left to a walk. -/
structure Keeps {α : Type} (t : ScopeTree) (s : Nat) (w : Work (Array EmittedWord))
    (m m' : UnrollM α) : Prop where
  same : m.exec w = m'.exec w
  kept : Kept t s w (m.exec w).2

theorem Rooted.lt_of_inside {t : ScopeTree} (ht : Rooted t) {s r : Nat} (h : Inside t s r) :
    s < r := by
  induction h with
  | single hparent => exact ht.older _ _ hparent
  | tail _ hparent ih => exact Nat.lt_trans ih (ht.older _ _ hparent)

-- Markers form a tree: no scope is reached from its own inside.
theorem Rooted.not_inside_self {t : ScopeTree} (ht : Rooted t) (s : Nat) : ¬ Inside t s s :=
  fun h => Nat.lt_irrefl s (ht.lt_of_inside h)

theorem tripsOf_push (c : Nat) (log : Array Event) (e : Event) :
    tripsOf c (log.push e) = tripsOf c log + if e.isTripOf c then 1 else 0 := by
  unfold tripsOf
  rw [Array.toList_push, List.countP_append, List.countP_singleton]

/-- Two actions do the same in a state, keep what unrolling the scope `s` keeps,
    and start at most `n` trips of the loop `c`. -/
structure Starts {α : Type} (t : ScopeTree) (s c n : Nat) (w : Work (Array EmittedWord))
    (m m' : UnrollM α) : Prop where
  keeps : Keeps t s w m m'
  trips : tripsOf c (m.exec w).2.log ≤ tripsOf c w.log + n

namespace Kept

variable {t : ScopeTree} {s : Nat} {u v w : Work (Array EmittedWord)}

theorem refl (h : w.tree.skeleton = t.skeleton) : Kept t s w w :=
  ⟨h, fun _ _ => rfl, fun _ _ => rfl⟩

theorem trans (h : Kept t s u v) (h' : Kept t s v w) : Kept t s u w where
  skeleton := h'.skeleton
  headers r hr := (h'.headers r hr).trans (h.headers r hr)
  trips r hr := (h'.trips r hr).trans (h.trips r hr)

-- What is outside a scope is outside the scopes inside it.
theorem widen {c : Nat} (hc : t.parentAt c = some s) (h : Kept t c u v) : Kept t s u v where
  skeleton := h.skeleton
  headers r hr := h.headers r fun hin => hr (Relation.TransGen.head hc hin)
  trips r hr := h.trips r fun hin => hr (Relation.TransGen.head hc hin)

-- Writing to a variable.
theorem setItem (h : w.tree.skeleton = t.skeleton) {a : Address} {c : Symbol}
    (hc : w.tree.item? a = some (.symbol c)) (hvar : c.isVar) (x : Int32) :
    Kept t s w { w with tree := w.tree.setItem a (.symbol { c with value := x }) } where
  skeleton := by
    rw [← h]
    exact ScopeTree.skeleton_setItem hc (congrArg Item.symbol (Symbol.skeleton_set hvar x))
  headers _ _ := ScopeTree.headerAt_setItem _ _ _ _
  trips _ _ := rfl

-- Writing to the header of a loop inside the scope.
theorem setHeader (h : w.tree.skeleton = t.skeleton) {c : Nat} (hc : t.parentAt c = some s)
    {header h₀ : LoopHeader} (hheader : t.headerAt c = some h₀)
    (hskel : header.skeleton = h₀.skeleton) :
    Kept t s w { w with tree := w.tree.setHeader c header } where
  skeleton := by
    rcases ScopeTree.exists_header h hheader with ⟨h₁, hh₁, hskel₁⟩
    rw [ScopeTree.skeleton_setHeader hh₁ (hskel.trans hskel₁.symm), h]
  headers := by
    intro r hr
    refine ScopeTree.headerAt_setHeader_of_ne header ?_
    rintro rfl
    exact hr (Relation.TransGen.single hc)
  trips _ _ := rfl

end Kept

namespace Keeps

variable {α β : Type} {t : ScopeTree} {s : Nat} {w : Work (Array EmittedWord)}
  {m m' : UnrollM α}

theorem bind {f f' : α → UnrollM β} (hm : Keeps t s w m m')
    (hf : ∀ a v, m.exec w = (.ok a, v) → v.tree.skeleton = t.skeleton →
      Keeps t s v (f a) (f' a)) :
    Keeps t s w (m >>= f) (m' >>= f') := by
  rcases hm with ⟨hsame, hkept⟩
  rcases hexec : m.exec w with ⟨result, v⟩
  rw [hexec] at hkept
  cases result with
  | error e =>
      refine ⟨?_, ?_⟩
      · rw [PassM.exec_bind, PassM.exec_bind, ← hsame, hexec]
      · rw [PassM.exec_bind, hexec]
        exact hkept
  | ok a =>
      have hnext := hf a v hexec hkept.skeleton
      refine ⟨?_, ?_⟩
      · rw [PassM.exec_bind, PassM.exec_bind, ← hsame, hexec]
        exact hnext.same
      · rw [PassM.exec_bind, hexec]
        exact hkept.trans hnext.kept

theorem of_exec {r : Except Failure α} (hm : m.exec w = (r, w))
    (h : w.tree.skeleton = t.skeleton) : Keeps t s w m m := by
  refine ⟨rfl, ?_⟩
  rw [hm]
  exact .refl h

theorem ask (query : ScopeTree → Except Failure α) (h : w.tree.skeleton = t.skeleton) :
    Keeps t s w (PassM.ask query) (PassM.ask query) :=
  of_exec (PassM.exec_ask query w) h

theorem note {e : Event} (he : ∀ r, e.isTripOf r → Inside t s r)
    (h : w.tree.skeleton = t.skeleton) : Keeps t s w (PassM.note e) (PassM.note e) := by
  refine ⟨rfl, h, fun _ _ => rfl, fun r hr => ?_⟩
  have hquiet : ¬ e.isTripOf r := fun htrip => hr (he r htrip)
  rw [PassM.exec_note, tripsOf_push, if_neg hquiet, Nat.add_zero]

-- Most events are no trips.
theorem tell {e : Event} (he : ∀ r, e.isTripOf r = false) (h : w.tree.skeleton = t.skeleton) :
    Keeps t s w (PassM.note e) (PassM.note e) := by
  refine note (fun r htrip => ?_) h
  rw [he r] at htrip
  cases htrip

end Keeps

namespace Starts

variable {α β : Type} {t : ScopeTree} {s c n : Nat} {w : Work (Array EmittedWord)}
  {m m' : UnrollM α} {f f' : α → UnrollM β}

theorem quiet (hm : Keeps t s w m m') (htrips : tripsOf c (m.exec w).2.log = tripsOf c w.log) :
    Starts t s c n w m m' :=
  ⟨hm, htrips ▸ Nat.le_add_right _ _⟩

theorem of_exec {r : Except Failure α} (hm : m.exec w = (r, w))
    (h : w.tree.skeleton = t.skeleton) : Starts t s c n w m m :=
  quiet (.of_exec hm h) (by rw [hm])

theorem tell {e : Event} (he : ∀ r, e.isTripOf r = false) (h : w.tree.skeleton = t.skeleton) :
    Starts t s c n w (PassM.note e) (PassM.note e) := by
  refine quiet (.tell he h) ?_
  rw [PassM.exec_note, tripsOf_push, he c]
  rfl

theorem bind {k : Nat} (hm : Starts t s c k w m m')
    (hf : ∀ a v, m.exec w = (.ok a, v) → v.tree.skeleton = t.skeleton →
      Starts t s c n v (f a) (f' a)) :
    Starts t s c (k + n) w (m >>= f) (m' >>= f') := by
  refine ⟨hm.keeps.bind fun a v hexec hv => (hf a v hexec hv).keeps, ?_⟩
  have hfirst := hm.trips
  have hskel := hm.keeps.kept.skeleton
  rw [PassM.exec_bind]
  rcases hexec : m.exec w with ⟨result, v⟩
  rw [hexec] at hfirst hskel
  -- After a failure there are only the trips of the first action.
  cases result with
  | error e =>
      dsimp only at hfirst ⊢
      omega
  | ok a =>
      have hsecond := (hf a v hexec hskel).trips
      dsimp only at hfirst ⊢
      omega

-- An action that starts no trips in front of others.
theorem next (hm : Starts t s c 0 w m m')
    (hf : ∀ a v, m.exec w = (.ok a, v) → v.tree.skeleton = t.skeleton →
      Starts t s c n v (f a) (f' a)) :
    Starts t s c n w (m >>= f) (m' >>= f') := by
  simpa only [Nat.zero_add] using hm.bind hf

end Starts

namespace Unrolling

open PassM

variable {t : ScopeTree} {target : Target} {s : Nat} {w : Work (Array EmittedWord)}

/-! ## Instructions -/

theorem change_keeps {step : ScopeTree → Except Failure (Int32 × ScopeTree)} {a : Address}
    (h : w.tree.skeleton = t.skeleton)
    (hstep : ∀ x u, step w.tree = .ok (x, u) → ∃ c, w.tree.item? a = some (.symbol c) ∧ c.isVar ∧
      u = w.tree.setItem a (.symbol { c with value := x })) :
    Keeps t s w (change step) (change step) := by
  refine ⟨rfl, ?_⟩
  rw [exec_change]
  rcases hout : step w.tree with e | ⟨x, u⟩
  · exact .refl h
  · rcases hstep x u hout with ⟨c, hc, hvar, rfl⟩
    exact .setItem h hc hvar x

theorem perform_keeps (i : Instruction) (h : w.tree.skeleton = t.skeleton) :
    Keeps t s w (perform target i) (perform target i) := by
  unfold perform
  cases i.action with
  | emit command =>
      refine (Keeps.ask _ h).bind fun word v _ hv => ?_
      refine Keeps.bind ⟨rfl, hv, fun _ _ => rfl, fun _ _ => rfl⟩ fun _ _ _ hv' => ?_
      exact Keeps.tell (fun _ => rfl) hv'
  | fold op first second =>
      refine (change_keeps h fun x u hout => ScopeTree.fold_writes hout).bind fun x v _ hv => ?_
      exact Keeps.tell (fun _ => rfl) hv
  | reset source written =>
      refine (change_keeps h fun x u hout => ScopeTree.reset_writes hout).bind fun x v _ hv => ?_
      exact Keeps.tell (fun _ => rfl) hv
  | cleared => exact Keeps.of_exec (exec_throw _ w) h

/-! ## Loops -/

-- Moving on does not change what a header is about.
theorem skeleton_advance {h next : LoopHeader} {stop step : Int32} {again : Bool}
    (hadv : h.advance stop step = .ok (again, next)) : next.skeleton = h.skeleton := by
  rcases h.advance_cases ⟨0, stop, step⟩ with ⟨-, hcase⟩ | ⟨-, -, hcase⟩ |
    ⟨-, -, next', hcase, hnext, -, -⟩
  · rw [hadv] at hcase
    cases hcase
  · rw [hadv] at hcase
    cases hcase
  · rw [hadv] at hcase
    cases hcase
    exact hnext

theorem skeleton_begin {h next : LoopHeader} {b : Bounds}
    (hbegin : orRefuse (h.begin b) = .ok next) : next.skeleton = h.skeleton := by
  unfold LoopHeader.begin at hbegin
  cases hcheck : b.check with
  | error cause =>
      rw [hcheck] at hbegin
      cases hbegin
  | ok _ =>
      rw [hcheck] at hbegin
      cases hbegin
      rfl

section Loop

variable {c : Nat} (hc : t.parentAt c = some s)

include hc

-- A trip of the loop is noted as one inside the scope around it.
theorem note_trip_starts (trip : Nat) (index : Int32) (hw : w.tree.skeleton = t.skeleton) :
    Starts t s c 1 w (note (.tripStarted c trip index)) (note (.tripStarted c trip index)) := by
  refine ⟨Keeps.note (fun r htrip => ?_) hw, ?_⟩
  · obtain rfl : c = r := of_decide_eq_true htrip
    exact Relation.TransGen.single hc
  · rw [exec_note, tripsOf_push]
    split <;> omega

theorem setHeader_starts {header h₀ : LoopHeader} (hheader : t.headerAt c = some h₀)
    (hskel : header.skeleton = h₀.skeleton) (hw : w.tree.skeleton = t.skeleton) :
    Starts t s c 0 w (setHeader c header) (setHeader c header) :=
  .quiet ⟨rfl, .setHeader hw hc hheader hskel⟩ rfl

variable (hself : ¬ Inside t c c)

include hself

/-- A loop keeps what its body keeps, its own header and trips apart. It starts
    one trip, and then as many as its index has room for at most. -/
theorem runTrips_starts {h₀ : LoopHeader} (hheader : t.headerAt c = some h₀)
    {walkBody walkBody' : UnrollM Unit}
    (hbody : ∀ v : Work (Array EmittedWord), v.tree.skeleton = t.skeleton →
      Keeps t c v walkBody walkBody')
    (h : LoopHeader) (hskel : h.skeleton = h₀.skeleton) (trip : Nat)
    (hw : w.tree.skeleton = t.skeleton) :
    Starts t s c (1 + h.room) w (runTrips walkBody c h trip) (runTrips walkBody' c h trip) := by
  induction hroom : h.room using Nat.strongRecOn generalizing h trip w with
  | ind room ih =>
      rw [runTrips_step, runTrips_step walkBody']
      refine (note_trip_starts hc trip h.current hw).bind fun _ v _ hv => ?_
      -- The body starts trips of loops inside it, and the loop is none of them.
      have hwalk := hbody v hv
      refine (Starts.quiet ⟨hwalk.same, hwalk.kept.widen hc⟩ (hwalk.kept.trips c hself)).next
        fun _ v' _ hv' => ?_
      refine (Starts.of_exec (exec_ask _ v') hv').next fun b x _ hx => ?_
      cases hadv : h.advance b.stop b.step with
      | error d => exact Starts.of_exec (exec_throw _ x) hx
      | ok result =>
          rcases result with ⟨again, next⟩
          have hnext := (skeleton_advance hadv).trans hskel
          have hset := setHeader_starts hc hheader hnext hx
          cases again with
          | false => exact hset.next fun _ y _ hy => Starts.of_exec (exec_pure _ y) hy
          | true =>
              -- The index has less room than before, which leaves one for this trip.
              have hless := LoopHeader.room_of_advance hadv
              refine hset.next fun _ y _ hy => ?_
              have hrest := ih next.room (hroom ▸ hless) next hnext (trip + 1) hy rfl
              exact ⟨hrest.keeps, Nat.le_trans hrest.trips (by omega)⟩

/-- An entry of a loop starts at most as many trips of it as there are values of
    an index. -/
theorem runLoop_starts {walkScope walkScope' : ScopeId → UnrollM Unit}
    (hbody : ∀ v : Work (Array EmittedWord), v.tree.skeleton = t.skeleton →
      Keeps t c v (walkScope c) (walkScope' c))
    (hw : w.tree.skeleton = t.skeleton) :
    Starts t s c maxTrips w (runLoop walkScope c) (runLoop walkScope' c) := by
  unfold runLoop
  refine (Starts.of_exec (exec_ask _ w) hw).next fun scope v hscope hv => ?_
  cases hheader : scope.header with
  | none => exact Starts.of_exec (exec_throw _ v) hv
  | some h =>
      rw [exec_ask, Prod.mk.injEq] at hscope
      rcases hscope with ⟨hscope, rfl⟩
      -- The loop is one of the program, with another state of its header.
      have hh : w.tree.headerAt c = some h := by
        unfold ScopeTree.headerAt
        rw [ScopeTree.scopes_of_orFault hscope]
        exact hheader
      rcases ScopeTree.exists_header hw.symm hh with ⟨h₀, hh₀, hskel₀⟩
      refine (Starts.of_exec (exec_ask _ w) hv).next fun b x _ hx => ?_
      refine (Starts.of_exec (exec_ofExcept _ x) hx).next fun h' y hbegin hy => ?_
      rw [exec_ofExcept, Prod.mk.injEq] at hbegin
      have hskel : h'.skeleton = h₀.skeleton := (skeleton_begin hbegin.1).trans hskel₀.symm
      refine (setHeader_starts hc hh₀ hskel hy).next fun _ z _ hz => ?_
      refine (Starts.of_exec (exec_ofExcept _ z) hz).next fun expected z' _ hz' => ?_
      refine (Starts.tell (fun _ => rfl) hz').next fun _ u _ hu => ?_
      -- One trip, and as many more as the index has room for at the start.
      have hall := runTrips_starts hc hself hh₀ hbody h' hskel 1 hu
      have hroom : 1 + h'.room ≤ maxTrips := by
        have hless : h'.room < maxTrips := h'.room_lt
        omega
      have hmost : Starts t s c maxTrips u _ _ :=
        ⟨hall.keeps, Nat.le_trans hall.trips (Nat.add_le_add_left hroom _)⟩
      refine hmost.bind (n := 0) fun n u' _ hu' => ?_
      exact Starts.tell (fun _ => rfl) hu'

end Loop

/-! ## Scopes -/

-- Items in a row, the markers among them leading to scopes inside.
theorem forM_keeps {walkScope walkScope' : ScopeId → UnrollM Unit} {items : List Item}
    (hwalk : ∀ c : Nat, Item.loop c ∈ items → t.parentAt c = some s ∧ ¬ Inside t c c ∧
      ∀ v : Work (Array EmittedWord), v.tree.skeleton = t.skeleton →
        Keeps t c v (walkScope c) (walkScope' c))
    (hw : w.tree.skeleton = t.skeleton) :
    Keeps t s w (items.forM (carryOut target walkScope))
      (items.forM (carryOut target walkScope')) := by
  induction items generalizing w with
  | nil =>
      rw [List.forM_eq_forM, List.forM_nil, List.forM_nil]
      exact Keeps.of_exec (exec_pure _ w) hw
  | cons i rest ih =>
      rw [List.forM_eq_forM, List.forM_cons, List.forM_cons]
      refine Keeps.bind ?_ fun _ v _ hv =>
        ih (fun c hc => hwalk c (List.mem_cons_of_mem _ hc)) hv
      cases i with
      | symbol _ => exact Keeps.of_exec (exec_pure _ w) hw
      | instruction i => exact perform_keeps i hw
      | loop c =>
          rcases hwalk c List.mem_cons_self with ⟨hc, hself, hbody⟩
          exact (runLoop_starts hc hself hbody hw).keeps

/-- A walk over a scope keeps the skeleton, and the headers and trips of all loops
    that are not inside the scope. Two depths are as good as each other
    if they are equal, or if there are no more scopes than either. -/
theorem walk_keeps (ht : Rooted t) {depth depth' s : Nat}
    (hdepth : depth = depth' ∨ s < t.size ∧ t.size ≤ s + depth ∧ t.size ≤ s + depth')
    (hw : w.tree.skeleton = t.skeleton) :
    Keeps t s w (walk target depth s) (walk target depth' s) := by
  induction depth generalizing depth' s w with
  | zero =>
      rcases hdepth with rfl | ⟨hs, hsize, -⟩
      · exact Keeps.of_exec (exec_throw _ w) hw
      · omega
  | succ depth ih =>
      rcases depth' with _ | depth'
      · omega
      unfold walk
      refine (Keeps.ask _ hw).bind fun scope v hscope hv => ?_
      rw [exec_ask, Prod.mk.injEq] at hscope
      rcases hscope with ⟨hscope, rfl⟩
      refine forM_keeps (fun c hc => ?_) hv
      have hparent : t.parentAt c = some s := by
        refine ht.linked s c (ScopeTree.marker_of_skeleton hw ?_)
        unfold ScopeTree.itemsAt
        rw [ScopeTree.scopes_of_orFault hscope]
        exact hc
      -- The body has a higher number, so one level less is enough for it.
      have hlt := ht.older c s hparent
      have hsize := ScopeTree.lt_size_of_parentAt hparent
      exact ⟨hparent, ht.not_inside_self c, fun v' hv' => ih (by omega) hv'⟩

/-! ## The header in the tree -/

/-- Runs the body of a loop until the loop ends, like `runTrips`, but with no header
    in hand: it is looked up before a trip and again after it. The fuel bounds the
    number of trips. -/
def rereadTrips (walkBody : UnrollM Unit) (c : ScopeId) : (fuel trip : Nat) → UnrollM Nat
  | 0, _ => throw (.fault (.endlessNesting c))
  | fuel + 1, trip => do
    if let some header ← ask fun t => .ok (t.headerAt c) then
      note (.tripStarted c trip header.current)
    walkBody
    match ← ask fun t => t.boundsAt c, ← ask fun t => .ok (t.headerAt c) with
    | some bounds, some header =>
      match header.advance bounds.stop bounds.step with
      | .error diagnostic => throw (.refused diagnostic)
      | .ok (false, next) =>
        setHeader c next
        return trip
      | .ok (true, next) =>
        setHeader c next
        rereadTrips walkBody c fuel (trip + 1)
    | _, _ => return trip

/-- If the tree holds the header that a run of the loop starts with, the run may as
    well take it from the tree whenever it is needed: walking over the body does not
    touch it, and what is set after a trip is what the next trip finds. -/
theorem runTrips_eq_rereadTrips (ht : Rooted t) (depth : Nat) {c : Nat} {h : LoopHeader}
    (hheader : w.tree.headerAt c = some h) (hw : w.tree.skeleton = t.skeleton) {fuel : Nat}
    (hfuel : h.room < fuel) (trip : Nat) :
    (runTrips (walk target depth c) c h trip).exec w =
      (rereadTrips (walk target depth c) c fuel trip).exec w := by
  induction fuel generalizing h trip w with
  | zero => exact absurd hfuel (Nat.not_lt_zero _)
  | succ fuel ih =>
      rw [runTrips_step]
      unfold rereadTrips
      simp only [exec_bind, exec_ask, hheader, exec_note]
      -- The trip is noted, which the tree does not show.
      generalize hnoted : ({ w with log := w.log.push (.tripStarted c trip h.current) } :
        Work (Array EmittedWord)) = x
      have htree : w.tree = x.tree := by rw [← hnoted]
      rw [htree] at hheader hw
      have hwalk : Keeps t c x (walk target depth c) (walk target depth c) :=
        walk_keeps ht (Or.inl rfl) hw
      have hkept := hwalk.kept
      rcases hexec : (walk target depth c).exec x with ⟨e | ⟨⟩, v⟩
      · rfl
      · rw [hexec] at hkept
        -- So the header is still there after the trip.
        have hsame : v.tree.headerAt c = some h :=
          (hkept.headers c (ht.not_inside_self c)).trans hheader
        dsimp only
        rw [ScopeTree.boundsAt_of_headerAt hsame]
        cases v.tree.boundsOf h with
        | error e => rfl
        | ok b =>
            simp only [Except.map, hsame]
            cases hadv : h.advance b.stop b.step with
            | error d => rfl
            | ok result =>
                rcases result with ⟨again, next⟩
                cases again with
                | false => rfl
                | true =>
                    -- The next trip starts with the header that is set here.
                    have hless := LoopHeader.room_of_advance hadv
                    have hskel := ScopeTree.skeleton_setHeader hsame (skeleton_advance hadv)
                    dsimp only
                    rw [exec_bind, exec_bind, setHeader_exec]
                    refine ih ?_ ?_ (by omega) (trip + 1)
                    · exact ScopeTree.headerAt_setHeader_self hsame
                    · exact hskel.trans hkept.skeleton

end Unrolling

end UnrollAsm
