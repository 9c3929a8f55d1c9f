import UnrollAsm.Proofs.Session.Trees

/-!
# In the Middle of a Pass

A pass is not one step. Reading goes from line to line, and inside a line from
operand to operand; unrolling goes from item to item, and for a loop into its
body, trip by trip. The states in between can be reached by running a beginning of
the pass, and that is how they are told here. A beginning that fails counts too:
its last state is the one in which the pass breaks off.

An invariant of reading holds at all points of reading. At all points of
unrolling the program has the skeleton that it had at the start.

## Main definitions

* `Statement.operands`: The operands of a line.
* `Reading.Point`: The states that reading lines goes through.
* `Unrolling.TripStart`: The states at the start of a trip of a loop.
* `Unrolling.Point`: The states that walking over a scope goes through.

## Theorems

* `Reading.InvariantOn.point`: Invariants hold at the points of reading.
* `Unrolling.Point.skeleton`: The points of unrolling have one skeleton.
* `Unrolling.point_walk`: The last state of a walk is a point of it.
-/

namespace UnrollAsm

open PassM

/-- The operands of a line, in order. -/
def Statement.operands : Statement → List Operand
  | .empty | .pool | .const .. => []
  | .var _ value => [value]
  | .loop start stop step => [start, stop, step]
  | .command _ operands => operands

/-! ## Reading -/

namespace Reading

/-- The states that reading lines goes through, from the state `w` on. -/
inductive Point (target : Target) (lines : List (Nat × String)) (w : Work ScopeId) :
    Work ScopeId → Prop
  /-- Some lines have been read, or reading them has broken off. -/
  | after (k : Nat) : Point target lines w ((readLines target (lines.take k)).exec w).2
  /-- Some operands of the next line have been resolved, or resolving has broken off. -/
  | operand {k n number : Nat} {text : String} {st : Statement} {v : Work ScopeId} (j : Nat) :
      (readLines target (lines.take k)).exec w = (.ok n, v) → lines[k]? = some (number, text) →
      Statement.parse number text = .ok st →
      Point target lines w (((st.operands.take j).mapM (resolve number)).exec v).2
  /-- The variable of the next line is there, but has not been reset yet. -/
  | written {k n number : Nat} {text name : String} {value : Operand} {v : Work ScopeId} :
      (readLines target (lines.take k)).exec w = (.ok n, v) → lines[k]? = some (number, text) →
      Statement.parse number text = .ok (.var name value) →
      Point target lines w ((do
        let source ← resolve number value
        targetVar number name source).exec v).2

variable {target : Target} {lines : List (Nat × String)} {P : ScopeTree → Nat → Prop}
  {w v x : Work ScopeId}

namespace InvariantOn

theorem supplied (hP : InvariantOn target lines P) (hw : Sound w.tree w.own)
    (h : P w.tree w.own) (hx : Supplied w x) : Sound x.tree x.own ∧ P x.tree x.own := by
  refine ⟨hx.sound hw, ?_⟩
  rw [hx.own]
  exact hP.stocks hw h hx.stocks

-- Operands in a row add literals at most, whether or not all of them are resolved.
theorem operands (hP : InvariantOn target lines P) (line : Nat) (ops : List Operand)
    (hw : Sound w.tree w.own) (h : P w.tree w.own) :
    (ops.mapM (resolve line)).Meets w (fun _ x => Sound x.tree x.own ∧ P x.tree x.own)
      (fun x => Sound x.tree x.own ∧ P x.tree x.own) :=
  (mapM_resolve_meets line ops hw).mono (fun _ _ hx => hP.supplied hw h hx.1)
    fun _ hx => hP.supplied hw h hx.1

-- The variable of a line is either there already or pushed.
theorem written (hP : InvariantOn target lines P) (line : Nat) (name : String) (value : Operand)
    (hdeclare : ∀ {t s} (x : Int32), Sound t s → P t s →
      (t.itemsAt s).findIdx? (Item.isNamed name) = none →
      P (t.push s (.symbol ⟨.var, name, x⟩)) s)
    (hw : Sound w.tree w.own) (h : P w.tree w.own) :
    (resolve line value >>= targetVar line name).Meets w
      (fun _ x => Sound x.tree x.own ∧ P x.tree x.own)
      (fun x => Sound x.tree x.own ∧ P x.tree x.own) := by
  refine (resolve_meets line value hw).andThen ?_ fun _ hx => hP.supplied hw h hx.1
  rintro a x ⟨hx, ha⟩
  rcases hP.supplied hw h hx with ⟨hsound, hPx⟩
  refine (targetVar_meets line name hsound (hx.own ▸ ha)).mono ?_ fun y hy => hy ▸ ⟨hsound, hPx⟩
  rintro b y (⟨rfl, -⟩ | ⟨-, ⟨z, rfl⟩, -, hfresh⟩)
  · exact ⟨hsound, hPx⟩
  · exact ⟨hsound.push (fun c hc => by cases hc), hdeclare z hsound hPx hfresh⟩

/-- An invariant that is kept by declaring a variable as well holds at all points
    of reading. -/
theorem point (hP : InvariantOn target lines P)
    (hdeclare : ∀ {number text name value t s} (x : Int32), (number, text) ∈ lines →
      Statement.parse number text = .ok (.var name value) → Sound t s → P t s →
      (t.itemsAt s).findIdx? (Item.isNamed name) = none →
      P (t.push s (.symbol ⟨.var, name, x⟩)) s)
    (hw : Sound w.tree w.own) (h : P w.tree w.own) (hv : Point target lines w v) :
    Sound v.tree v.own ∧ P v.tree v.own := by
  have hlines : ∀ k, (Reading.readLines target (lines.take k)).Meets w _ _ := fun k =>
    hP.readLines (fun _ hline => List.mem_of_mem_take hline) 0 hw h
  -- Between two lines the invariant holds.
  have hbetween : ∀ {k n u}, (Reading.readLines target (lines.take k)).exec w = (.ok n, u) →
      Sound u.tree u.own ∧ P u.tree u.own := by
    intro k n u hexec
    have hmeets := hlines k
    unfold Meets at hmeets
    rwa [hexec] at hmeets
  cases hv with
  | after k => exact (hlines k).state
  | operand j hexec _ _ =>
      rcases hbetween hexec with ⟨hsound, hPu⟩
      exact (hP.operands _ _ hsound hPu).state
  | written hexec hline hparse =>
      rcases hbetween hexec with ⟨hsound, hPu⟩
      exact (hP.written _ _ _ (fun x => hdeclare x (List.mem_of_getElem? hline) hparse)
        hsound hPu).state

end InvariantOn

end Reading

/-! ## Unrolling -/

namespace Unrolling

/-- The states at the start of a trip of the loop with the given body, which is
    entered in the state `v`, and the header of the loop at that time. Nothing is
    said about the log. -/
inductive TripStart (target : Target) (depth : Nat) (body : ScopeId)
    (v : Work (Array EmittedWord)) : Work (Array EmittedWord) → LoopHeader → Prop
  | first {header h : LoopHeader} {b : Bounds} {log : Array Event} :
      v.tree.headerAt body = some header → v.tree.boundsOf header = .ok b →
      header.begin b = .ok h →
      TripStart target depth body v ⟨v.tree.setHeader body h, log, v.own⟩ h
  | next {x y : Work (Array EmittedWord)} {h h' : LoopHeader} {b : Bounds} {log : Array Event} :
      TripStart target depth body v x h → (walk target depth body).exec x = (.ok (), y) →
      y.tree.boundsOf h = .ok b → h.advance b.stop b.step = .ok (true, h') →
      TripStart target depth body v ⟨y.tree.setHeader body h', log, y.own⟩ h'

/-- The states that walking over a scope goes through. -/
inductive Point (target : Target) :
    Nat → ScopeId → Work (Array EmittedWord) → Work (Array EmittedWord) → Prop
  /-- Some items have been carried out, or one of them has failed. -/
  | items {depth : Nat} {s : ScopeId} {w : Work (Array EmittedWord)} {scope : Scope} (k : Nat) :
      w.tree.scope s = .ok scope →
      Point target (depth + 1) s w
        (((scope.items.toList.take k).forM (carryOut target (walk target depth))).exec w).2
  /-- The next item is a loop, which has come to a point in one of its trips. -/
  | inside {depth k : Nat} {s body : ScopeId} {w v x y : Work (Array EmittedWord)}
      {scope : Scope} {h : LoopHeader} :
      w.tree.scope s = .ok scope →
      ((scope.items.toList.take k).forM (carryOut target (walk target depth))).exec w =
        (.ok (), v) →
      scope.items.toList[k]? = some (.loop body) → TripStart target depth body v x h →
      Point target depth body x y → Point target (depth + 1) s w y

variable {target : Target} {t : ScopeTree} {depth s : Nat} {w v : Work (Array EmittedWord)}

/-- The last state of a walk is a point of it. -/
theorem point_walk {scope : Scope} (hscope : w.tree.scope s = .ok scope) :
    Point target (depth + 1) s w ((walk target (depth + 1) s).exec w).2 := by
  have hpoint : Point target (depth + 1) s w _ := .items scope.items.toList.length hscope
  rw [List.take_length] at hpoint
  have hexec : (walk target (depth + 1) s).exec w =
      (scope.items.toList.forM (carryOut target (walk target depth))).exec w := by
    rw [walk, exec_bind, exec_ask, hscope]
    rfl
  rwa [hexec]

-- The first items of a scope keep what walking over all of it keeps.
theorem items_keeps (ht : Rooted t) (depth : Nat) {scope : Scope}
    (hscope : w.tree.scope s = .ok scope) (k : Nat) (hw : w.tree.skeleton = t.skeleton) :
    Keeps t s w ((scope.items.toList.take k).forM (carryOut target (walk target depth)))
      ((scope.items.toList.take k).forM (carryOut target (walk target depth))) := by
  refine forM_keeps (fun c hc => ?_) hw
  have hmem : Item.loop c ∈ w.tree.itemsAt s := by
    unfold ScopeTree.itemsAt
    rw [ScopeTree.scopes_of_orFault (show orFault (w.tree.scope s) = .ok scope by rw [hscope]; rfl)]
    exact List.mem_of_mem_take hc
  refine ⟨ht.linked s c (ScopeTree.marker_of_skeleton hw hmem), ht.not_inside_self c,
    fun v hv => walk_keeps ht (Or.inl rfl) hv⟩

/-- A trip starts with the skeleton of the program, and with a header of its loop. -/
theorem TripStart.skeleton (ht : Rooted t) {body : Nat} {x : Work (Array EmittedWord)}
    {h : LoopHeader} (hv : v.tree.skeleton = t.skeleton)
    (hx : TripStart target depth body v x h) :
    x.tree.skeleton = t.skeleton ∧
      ∃ h₀, t.headerAt body = some h₀ ∧ h.skeleton = h₀.skeleton := by
  -- Whatever header of the loop is put in, the skeleton stays.
  have hset : ∀ {u : ScopeTree} {h h₀ : LoopHeader}, u.skeleton = t.skeleton →
      t.headerAt body = some h₀ → h.skeleton = h₀.skeleton →
      (u.setHeader body h).skeleton = t.skeleton := by
    intro u h h₀ hu hh₀ hskel
    rcases ScopeTree.exists_header hu hh₀ with ⟨h₁, hh₁, hskel₁⟩
    rw [ScopeTree.skeleton_setHeader hh₁ (hskel.trans hskel₁.symm), hu]
  induction hx with
  | first hheader _ hbegin =>
      rcases ScopeTree.exists_header hv.symm hheader with ⟨h₀, hh₀, hskel₀⟩
      have hskel := (skeleton_begin (congrArg orRefuse hbegin)).trans hskel₀.symm
      exact ⟨hset hv hh₀ hskel, h₀, hh₀, hskel⟩
  | @next x y h h' b log _ hwalk _ hadv ih =>
      rcases ih with ⟨hx, h₀, hh₀, hskel₀⟩
      have hkeeps : Keeps t body x (walk target depth body) (walk target depth body) :=
        walk_keeps ht (Or.inl rfl) hx
      have hy : y.tree.skeleton = t.skeleton := by
        have hkept := hkeeps.kept.skeleton
        rwa [hwalk] at hkept
      have hskel := (skeleton_advance hadv).trans hskel₀
      exact ⟨hset hy hh₀ hskel, h₀, hh₀, hskel⟩

/-- At all points of unrolling, the program has the skeleton that it had at the
    start. -/
theorem Point.skeleton (ht : Rooted t) (hw : w.tree.skeleton = t.skeleton)
    (hv : Point target depth s w v) : v.tree.skeleton = t.skeleton := by
  induction hv with
  | items k hscope => exact (items_keeps ht _ hscope k hw).kept.skeleton
  | @inside depth k s body w v x y scope h hscope hexec _ hstart _ ih =>
      have hv : v.tree.skeleton = t.skeleton := by
        have hkeeps : Keeps t s w ((scope.items.toList.take k).forM
            (carryOut target (walk target depth))) _ := items_keeps ht depth hscope k hw
        have hkept := hkeeps.kept.skeleton
        rwa [hexec] at hkept
      exact ih (hstart.skeleton ht hv).1

end Unrolling

end UnrollAsm
