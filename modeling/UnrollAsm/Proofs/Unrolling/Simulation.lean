import UnrollAsm.Proofs.Header.Calls
import UnrollAsm.Proofs.Layout.Reading
import UnrollAsm.Proofs.Unrolling.Lines

/-!
# Unrolling Simulates Interpreting

Walking over the items of a scope has the effect of executing the block that is
laid out there. The proof follows the layout: items that belong to one clause are
carried out together, and a loop marker stands for the whole execution of its
loop.

A loop runs on its header. Header and interpreter count with different numbers,
one with a 32-bit index that stops at the end of its range, the other with an
integer that may pass it; but an index that would leave its range has reached
every stop there is, so both leave the loop on the same trip. The body of a loop
is laid out once and walked over on every trip. A fresh frame on one side answers
to the empty stretch at the start of the body on the other: what earlier trips
left behind in the scope of the body is out of sight until its line is reached
again.

The walk is given a depth. Scopes are numbered in the order in which they open,
so a scope has room for as many levels below it as there are numbers left, and
the depth never runs out.

## Theorems

* `advance_cases`: What a header does at the end of a trip.
* `runTrips_agrees`, `runLoop_agrees`: Loops have the same effect.
* `forM_agrees`: Laid-out items have the effect of their block.
* `Laid.run_agrees`: Unrolling a program is interpreting its block.
-/

namespace UnrollAsm

/-! ## Headers -/

namespace LoopHeader

/-- What a header does at the end of a trip, with fresh bounds: it is refused
    because of the step, or moves on, or has come to the end. -/
theorem advance_cases (h : LoopHeader) (b : Bounds) :
    (b.step = 0 ∧
      h.advance b.stop b.step = .error (.onLine h.source.number (.range .zeroStep))) ∨
    (b.step ≠ 0 ∧ decide (b.step < 0) ≠ decide (h.bounds.step < 0) ∧
      h.advance b.stop b.step =
        .error (.onLine h.source.number (.range (.stepReversed h.bounds.step b.step)))) ∨
    (b.step ≠ 0 ∧ decide (b.step < 0) = decide (h.bounds.step < 0) ∧ ∃ next,
      h.advance b.stop b.step = .ok (b.isAhead (h.current.toInt + b.step.toInt), next) ∧
      next.skeleton = h.skeleton ∧ next.bounds.step = b.step ∧
      (b.isAhead (h.current.toInt + b.step.toInt) = true →
        next.current.toInt = h.current.toInt + b.step.toInt)) := by
  by_cases hzero : b.step = 0
  · exact Or.inl ⟨hzero, if_pos hzero⟩
  · by_cases hsign : decide (b.step < 0) = decide (h.bounds.step < 0)
    · refine Or.inr (Or.inr ⟨hzero, hsign, _, h.advance_eq b.stop hzero hsign, rfl, rfl, ?_⟩)
      exact fun hahead => h.toInt_moved (Bounds.fits_of_isAhead hahead)
    · refine Or.inr (Or.inl ⟨hzero, hsign, ?_⟩)
      unfold advance
      rw [if_neg hzero, if_pos hsign]

end LoopHeader

/-! ## Loops -/

theorem Announces.of_skeleton {pos : Position} {line : LoopLine} {h h₀ : LoopHeader}
    (hline : Announces pos line h₀) (hskel : h.skeleton = h₀.skeleton) :
    Announces pos line h := by
  unfold LoopHeader.skeleton at hskel
  simp only [LoopHeader.mk.injEq, and_true] at hskel
  rcases hskel with ⟨hstart, hstop, hstep, hsource⟩
  exact ⟨hstart ▸ hline.start, hstop ▸ hline.stop, hstep ▸ hline.step, hsource ▸ hline.source⟩

namespace Sim

variable {t : ScopeTree} {pos : Position} {w : Work (Array EmittedWord)} {r : Run}

-- The bounds of a loop are the same on both sides whenever they are read.
theorem bounds (h : Sim t pos w r) (hpos : Within t pos) (hdesc : pos.Descends)
    {line : LoopLine} {header : LoopHeader} (hline : Announces pos line header) :
    ∃ b, r.bounds line = .ok b ∧ w.tree.boundsOf header = .ok b := by
  rcases h.denote hpos hdesc hline.start line.source.number with ⟨start, hstart, hstartItem⟩
  rcases h.denote hpos hdesc hline.stop line.source.number with ⟨stop, hstop, hstopItem⟩
  rcases h.denote hpos hdesc hline.step line.source.number with ⟨step, hstep, hstepItem⟩
  refine ⟨⟨start.value, stop.value, step.value⟩, ?_, ?_⟩
  · unfold Run.bounds
    rw [hstart, hstop, hstep]
    rfl
  · unfold ScopeTree.boundsOf
    rw [ScopeTree.valueOf_eq hstartItem, ScopeTree.valueOf_eq hstopItem,
      ScopeTree.valueOf_eq hstepItem]
    rfl

-- What a header remembers of its run is not seen by any name.
theorem setHeader (h : Sim t pos w r) {c : Nat} {header h₀ : LoopHeader}
    (hheader : t.headerAt c = some h₀) (hskel : header.skeleton = h₀.skeleton)
    (log : Array Event) : Sim t pos ⟨w.tree.setHeader c header, log, w.own⟩ r where
  skeleton := by
    rcases ScopeTree.exists_header h.skeleton hheader with ⟨h₁, hh₁, hskel₁⟩
    rw [ScopeTree.skeleton_setHeader hh₁ (hskel.trans hskel₁.symm), h.skeleton]
  env := by rw [h.env, visible_setHeader]
  words := h.words

end Sim

namespace Unrolling

open PassM

variable {t : ScopeTree} {target : Target} {pos : Position} {w : Work (Array EmittedWord)}
  {r : Run}

theorem setHeader_exec (c : ScopeId) (header : LoopHeader) (w : Work (Array EmittedWord)) :
    (setHeader c header).exec w = (.ok (), { w with tree := w.tree.setHeader c header }) := rfl

-- One trip of a loop, and what follows it.
theorem runTrips_step (walkBody : UnrollM Unit) (c : ScopeId) (h : LoopHeader) (trip : Nat) :
    runTrips walkBody c h trip = (do
      note (.tripStarted c trip h.current)
      walkBody
      let bounds ← ask fun t => t.boundsOf h
      match h.advance bounds.stop bounds.step with
      | .error diagnostic => throw (.refused diagnostic)
      | .ok (false, next) =>
        setHeader c next
        return trip
      | .ok (true, next) =>
        setHeader c next
        runTrips walkBody c next (trip + 1)) := by
  rw [runTrips]
  refine bind_congr fun _ => bind_congr fun _ => bind_congr fun b => ?_
  split
  · rename_i hadv
    rw [hadv]
  · rename_i hadv
    rw [hadv]
  · rename_i hadv
    rw [hadv]

/-- The trips of a loop have the same effect, from any header of the loop on, if
    a single trip has. -/
theorem runTrips_agrees (hpos : Within t pos) (hdesc : pos.Descends) {c : Nat}
    {h₀ : LoopHeader} (hheader : t.headerAt c = some h₀) {line : LoopLine}
    (hline : Announces pos line h₀) {walkBody : UnrollM Unit} {body : Run → Except Diagnostic Run}
    (hbody : ∀ w r, Sim t pos w r →
      walkBody.Agrees w (Run.trip body r) fun _ v r' => Sim t pos v r')
    (h : LoopHeader) (hskel : h.skeleton = h₀.skeleton) (trip : Nat)
    (hsim : Sim t pos w r) :
    (runTrips walkBody c h trip).Agrees w (Run.trips line body h.current.toInt h.bounds.step r)
      (fun _ v r' => Sim t pos v r') := by
  induction hroom : h.room using Nat.strongRecOn generalizing h trip w r with
  | ind room ih =>
      have hline' := hline.of_skeleton hskel
      rw [runTrips_step, Run.trips]
      refine Agrees.next (exec_note _ w) ?_
      refine Agrees.bind (hbody _ r (hsim.note _)) fun _ v r' hv => ?_
      rcases hv.bounds hpos hdesc hline' with ⟨b, hb, hbounds⟩
      rw [hb]
      refine Agrees.next ((exec_ask _ v).trans (by rw [hbounds])) ?_
      simp only [bind, Except.bind]
      rcases h.advance_cases b with ⟨hzero, hadv⟩ | ⟨hzero, hsign, hadv⟩ |
        ⟨hzero, hsign, next, hadv, hnext, hstep, hcurrent⟩
      · rw [if_pos hzero, hadv, hline'.source]
        exact Agrees.throw
      · rw [if_neg hzero, if_pos hsign, hadv, hline'.source]
        exact Agrees.throw
      · rw [if_neg hzero, if_neg (not_not_intro hsign)]
        have hnext' := hnext.trans hskel
        cases hahead : b.isAhead (h.current.toInt + b.step.toInt) with
        | false =>
            rw [hahead] at hadv
            rw [hadv, if_neg Bool.false_ne_true]
            exact Agrees.next (setHeader_exec c next v)
              (Agrees.pure (hv.setHeader hheader hnext' _))
        | true =>
            -- The loop goes on, with less room for the index.
            rw [hahead] at hadv
            have hless : next.room < room := hroom ▸ LoopHeader.room_of_advance hadv
            rw [hadv, if_pos rfl, ← hcurrent hahead, ← hstep]
            exact Agrees.next (setHeader_exec c next v)
              (ih next.room hless next hnext' (trip + 1) (hv.setHeader hheader hnext' _) rfl)

theorem expectedTrips_of_check {b : Bounds} (hcheck : b.check = .ok ()) :
    ∃ trips, expectedTrips b = .ok trips := by
  have hvalid := Bounds.check_eq_ok_iff.1 hcheck
  unfold Bounds.Valid at hvalid
  have hwidth : b.step.toInt.natAbs ≠ 0 := by omega
  unfold expectedTrips Bounds.tripCount?
  by_cases hdist : b.distance = 0
  · exact ⟨_, by rw [if_pos hdist]⟩
  · exact ⟨_, by rw [if_neg hdist, if_neg hwidth]⟩

/-- A loop has the same effect if a trip has. -/
theorem runLoop_agrees (hpos : Within t pos) (hdesc : pos.Descends) {c : Nat}
    {h₀ : LoopHeader} (hheader : t.headerAt c = some h₀) {line : LoopLine}
    (hline : Announces pos line h₀) {walkScope : ScopeId → UnrollM Unit} {body : Block}
    (hbody : ∀ w r, Sim t pos w r →
      (walkScope c).Agrees w (Run.trip (Block.exec target body) r) fun _ v r' => Sim t pos v r')
    (hsim : Sim t pos w r) :
    (runLoop walkScope c).Agrees w ((Clause.loop line body).exec target r)
      (fun _ v r' => Sim t pos v r') := by
  rcases ScopeTree.exists_header hsim.skeleton hheader with ⟨h, hh, hskel⟩
  unfold ScopeTree.headerAt at hh
  rcases Option.bind_eq_some_iff.1 hh with ⟨scope, hscope, hscopeHeader⟩
  have hline' := hline.of_skeleton hskel
  rcases hsim.bounds hpos hdesc hline' with ⟨b, hb, hbounds⟩
  unfold runLoop
  rw [Clause.exec, hb]
  refine Agrees.next ((exec_ask _ w).trans (by rw [ScopeTree.scope_eq_ok hscope]; rfl)) ?_
  rw [hscopeHeader]
  refine Agrees.next ((exec_ask _ w).trans (by rw [hbounds])) ?_
  simp only [bind, Except.bind]
  cases hcheck : b.check with
  | error cause =>
      have hbegin : h.begin b = .error (.onLine h.source.number (.range cause)) := by
        unfold LoopHeader.begin
        rw [hcheck]
      rw [hbegin, hline'.source]
      exact Agrees.refused (exec_ofExcept _ w)
  | ok _ =>
      have hbegin : h.begin b = .ok { h with bounds := b, current := b.start } := by
        unfold LoopHeader.begin
        rw [hcheck]
      rcases expectedTrips_of_check hcheck with ⟨trips, htrips⟩
      have hskel' : ({ h with bounds := b, current := b.start } : LoopHeader).skeleton =
          h₀.skeleton := hskel
      rw [hbegin]
      refine Agrees.next (exec_ofExcept _ w) ?_
      refine Agrees.next (setHeader_exec c _ w) ?_
      refine Agrees.next ((exec_ofExcept _ _).trans (by rw [htrips])) ?_
      refine Agrees.next (exec_note _ _) ?_
      have hstart := hsim.setHeader hheader hskel' (w.log.push (.loopEntered c b trips))
      refine (runTrips_agrees hpos hdesc hheader hline hbody _ hskel' 1 hstart).andThen ?_
      intro _ v r' hv
      exact Agrees.of_exec (exec_note _ v) (hv.note _)

/-! ## Blocks -/

-- Only the skeleton of an item decides what is carried out.
theorem carryOut_congr (walkScope : ScopeId → UnrollM Unit) {i j : Item}
    (h : i.skeleton = j.skeleton) : carryOut target walkScope i = carryOut target walkScope j := by
  cases j with
  | symbol s =>
      rcases Item.skeleton_eq_symbol h with ⟨s', rfl, -⟩
      rfl
  | instruction _ => rw [Item.eq_of_skeleton_eq rfl h]
  | loop _ => rw [Item.eq_of_skeleton_eq rfl h]

theorem forM_congr (target : Target) (walkScope : ScopeId → UnrollM Unit) {items items' : List Item}
    (h : items.map Item.skeleton = items'.map Item.skeleton) :
    items.forM (carryOut target walkScope) = items'.forM (carryOut target walkScope) := by
  induction items generalizing items' with
  | nil =>
      cases items' with
      | nil => rfl
      | cons _ _ => cases h
  | cons i rest ih =>
      cases items' with
      | nil => cases h
      | cons j rest' =>
          simp only [List.map_cons, List.cons.injEq] at h
          rw [List.forM_eq_forM, List.forM_cons, List.forM_cons, carryOut_congr walkScope h.1,
            ← List.forM_eq_forM, ih h.2]

theorem walk_exec {s : Nat} {depth : Nat} (hs : s < w.tree.size) :
    (walk target (depth + 1) s).exec w =
      ((w.tree.itemsAt s).forM (carryOut target (walk target depth))).exec w := by
  rcases ScopeTree.exists_scope hs with ⟨scope, hscope⟩
  unfold walk ScopeTree.itemsAt
  rw [exec_bind, exec_ask, ScopeTree.scope_eq_ok hscope, hscope]
  rfl

end Unrolling

theorem Block.exec_append (target : Target) (block rest : Block) (r : Run) :
    Block.exec target (block ++ rest) r =
      (do
        let r' ← Block.exec target block r
        Block.exec target rest r') := by
  induction block generalizing r with
  | nil => rfl
  | cons c tail ih =>
      rw [List.cons_append, Block.exec, Block.exec]
      cases c.exec target r with
      | error d => rfl
      | ok r' => exact ih r'

theorem Block.exec_singleton (target : Target) (c : Clause) (r : Run) :
    Block.exec target [c] r = c.exec target r := by
  rw [Block.exec]
  cases c.exec target r with
  | error d => rfl
  | ok r' => rfl

namespace Unrolling

open PassM

variable {t : ScopeTree} {target : Target} {w : Work (Array EmittedWord)} {r : Run}

-- One more item, with the clause that it completes.
theorem forM_snoc {pos pos' : Position} {f : Item → UnrollM Unit} {items : List Item} {i : Item}
    {block : Block} {c : Clause}
    (hitems : (items.forM f).Agrees w (Block.exec target block r) fun _ v r' => Sim t pos v r')
    (hi : ∀ v r', Sim t pos v r' →
      (f i).Agrees v (c.exec target r') fun _ v' r'' => Sim t pos' v' r'') :
    ((items ++ [i]).forM f).Agrees w (Block.exec target (block ++ [c]) r)
      fun _ v r' => Sim t pos' v r' := by
  rw [List.forM_eq_forM, List.forM_append, Block.exec_append]
  refine hitems.bind fun _ v r' hv => ?_
  rw [Block.exec_singleton, List.forM_cons]
  refine (hi v r' hv).andThen fun _ v' r'' hv' => ?_
  exact Agrees.pure hv'

-- One more item that belongs to no clause.
theorem forM_skip {pos pos' : Position} {f : Item → UnrollM Unit} {items : List Item} {i : Item}
    {block : Block}
    (hitems : (items.forM f).Agrees w (Block.exec target block r) fun _ v r' => Sim t pos v r')
    (hi : f i = pure ()) (hskip : ∀ v r', Sim t pos v r' → Sim t pos' v r') :
    ((items ++ [i]).forM f).Agrees w (Block.exec target block r)
      fun _ v r' => Sim t pos' v r' := by
  rw [List.forM_eq_forM, List.forM_append]
  refine hitems.andThen fun _ v r' hv => ?_
  rw [List.forM_cons, hi]
  exact Agrees.pure (hskip v r' hv)

-- A trip walks over the body in a frame of its own.
theorem walk_trip {pos : Position} {c depth : Nat} {body : Block}
    (hbody : ∀ w r, Sim t (⟨c, []⟩ :: pos) w r →
      ((t.itemsAt c).forM (carryOut target (walk target depth))).Agrees w
        (Block.exec target body r) fun _ v r' => Sim t (⟨c, t.itemsAt c⟩ :: pos) v r')
    (hc : c < t.size) (hsim : Sim t pos w r) :
    (walk target (depth + 1) c).Agrees w (Run.trip (Block.exec target body) r)
      fun _ v r' => Sim t pos v r' := by
  have hsize : c < w.tree.size := ScopeTree.size_of_skeleton hsim.skeleton ▸ hc
  have hitems := forM_congr target (walk target depth)
    (ScopeTree.items_of_skeleton hsim.skeleton c)
  refine Agrees.congr ((walk_exec hsize).trans (by rw [hitems])) ?_
  have hframe : Sim t (⟨c, []⟩ :: pos) w { r with env := [] :: r.env } :=
    ⟨hsim.skeleton, by rw [hsim.env]; rfl, hsim.words⟩
  refine (hbody w _ hframe).map_right fun _ v r' hv => ⟨hv.skeleton, ?_, hv.words⟩
  rw [hv.env]
  rfl

/-- The items of a layout have the effect of the block that is laid out. -/
theorem forM_agrees {up : Position} {s hi : Nat} {block : Block} {items : List Item}
    (hlays : Lays target t up s block items hi) (hsize : hi ≤ t.size) {depth : Nat}
    (hdepth : hi ≤ s + 1 + depth) (hpos : Within t (⟨s, items⟩ :: up))
    (hdesc : ∀ items, Position.Descends (⟨s, items⟩ :: up))
    (hsim : Sim t (⟨s, []⟩ :: up) w r) :
    (items.forM (carryOut target (walk target depth))).Agrees w (Block.exec target block r)
      fun _ v r' => Sim t (⟨s, items⟩ :: up) v r' := by
  induction hlays generalizing depth w r with
  | nil => exact Agrees.pure hsim
  | literal v _ ih =>
      have hnone : (Item.symbol (.literal v)).declared? = none := if_neg (isIdentifier_decimal v)
      exact forM_skip (ih hsize hdepth hpos.shorten hdesc hsim) rfl
        fun _ _ hv => hv.skip hpos hnone
  | const value _ hname ih =>
      refine forM_snoc (ih hsize hdepth hpos.shorten hdesc hsim) fun v r' hv => ?_
      rcases visible_declare hv.skeleton hpos hname with ⟨c, -, hc, hvisible⟩
      rw [Clause.exec]
      refine Agrees.pure ⟨hv.skeleton, ?_, hv.words⟩
      rw [hvisible, hv.env, Symbol.eq_of_skeleton_eq rfl hc]
  | reset source _ ha hb hc hvar ih =>
      refine forM_snoc (ih hsize hdepth hpos.shorten hdesc hsim) fun v r' hv => ?_
      rw [Clause.exec]
      refine (perform_reset target hv hpos.shorten (hdesc _) ha hb hc hvar _ source).mono ?_
      exact fun _ _ _ h => h.skip hpos rfl
  | declare source v _ ha hname hlacks ih =>
      -- The symbol is passed over, and counts as declared after the reset.
      refine forM_snoc (forM_skip (ih hsize hdepth hpos.shorten.shorten hdesc hsim) rfl
        fun _ _ hv => hv) fun v' r' hv => ?_
      rw [Clause.exec]
      exact perform_declare target hv hpos (hdesc _) ha hname hlacks
  | command source _ hresolve ha haction ih =>
      refine forM_snoc (ih hsize hdepth hpos.shorten hdesc hsim) fun v r' hv => ?_
      rw [Clause.exec]
      refine (perform_command hv hpos.shorten (hdesc _) hresolve ha haction _ source).mono ?_
      exact fun _ _ _ h => h.skip hpos rfl
  | @loop up s c hi block body items line h hlays hheader hline hbody ih ihbody =>
      have hsc := hlays.lt
      have hchi := hbody.lt
      -- There is at least one more level to go down.
      rcases depth with _ | depth
      · omega
      refine forM_snoc (ih (by omega) (by omega) hpos.shorten hdesc hsim) fun v r' hv => ?_
      refine (runLoop_agrees hpos.shorten (hdesc _) hheader hline (fun w' r'' hw' => ?_) hv).mono
        fun _ _ _ h => h.skip hpos rfl
      refine walk_trip (fun w₁ r₁ h₁ => ?_) (by omega) hw'
      refine ihbody hsize (by omega) ?_ ?_ h₁
      · intro p hp
        rcases List.mem_cons.1 hp with rfl | hp
        · exact List.prefix_rfl
        · exact hpos.shorten p hp
      · intro inner
        refine List.pairwise_cons.2 ⟨fun q hq => ?_, hdesc _⟩
        rcases List.mem_cons.1 hq with rfl | hq
        · exact hsc
        · exact Nat.lt_trans ((List.pairwise_cons.1 (hdesc [])).1 q hq) hsc

end Unrolling

open Unrolling PassM in
/-- Unrolling the program in a tree is interpreting the block that is laid out
    there. -/
theorem Laid.run_agrees {target : Target} {t : ScopeTree} {block : Block}
    (h : Laid target t block) :
    (walk target t.size .root).Agrees ⟨t, #[], #[]⟩ (Block.exec target block ⟨[[]], []⟩)
      fun _ v r => Sim t [⟨0, t.itemsAt 0⟩] v r := by
  have hlt : 0 < t.size := h.lt_size
  rcases hsize : t.size with _ | depth
  · omega
  have hstart : Sim t [⟨0, []⟩] ⟨t, #[], #[]⟩ ⟨[[]], []⟩ := ⟨rfl, rfl, rfl⟩
  refine Agrees.congr (walk_exec hlt) ?_
  exact forM_agrees h.lays (Nat.le_refl _) (by omega) h.within h.opened.descends hstart

end UnrollAsm
