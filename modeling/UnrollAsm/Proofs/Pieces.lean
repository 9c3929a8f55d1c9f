import UnrollAsm.Proofs.Mirror
import UnrollAsm.Proofs.Reading.Blocks
import UnrollAsm.Proofs.Reading.Instructions
import UnrollAsm.Proofs.Session.Trees

/-!
# Reading in Pieces

Lines may be handed to a session in one call or in two. If the first call
succeeds, this makes no difference: the session is the same afterwards, and the
number of statements, or the error, is that of the second call.

Each call starts at the root and checks at its end that no loop is open. So the
first call has to end at the root, for only then does the second one start where
a single call would have gone on. The end of a call asks for the header of the
current scope, and what it has found tells where it is, because every scope has a
header but the root. This holds of the tree of any session, after failed calls
and after assembly as well.

A single call has noted the first lines already when it comes to the others, and
counts on from their number. Neither makes a difference: no action of the reader
looks at what was noted, and the count is only added to.

## Main definitions

* `Headed`: All scopes but the root are loop bodies.
* `Blind`: An action does not look at the log.
* `Reading.countOn`, `Reading.readOn`: A pass that counts on from a number.

## Theorems

* `headed_history`: The tree of a session is headed.
* `Reading.blind_readLine`: Reading does not look at the log.
* `Reading.exec_countOn`: Counting on adds to the number, and does nothing else.
* `Reading.readProgram_append`: A pass in two pieces.
* `parse_append`: A call in two pieces.
-/

namespace UnrollAsm

open PassM

/-- All scopes but the root are bodies of loops. -/
def Headed (t : ScopeTree) : Prop :=
  ∀ s, 0 < s → s < t.size → (t.headerAt s).isSome

/-- The action does not look at what has been noted: whatever the log, it comes
    to the same outcome, tree and state of its own. -/
def Blind {σ α : Type} (m : PassM σ α) : Prop :=
  (⟨Eq, Eq, Eq⟩ : Mirror σ σ).Reflects Eq m m

/-! ## Headers of loop bodies -/

namespace Headed

variable {t u : ScopeTree} {s : Nat}

theorem of_views (h : Headed t) (hsize : u.size = t.size)
    (hheader : ∀ s, (u.headerAt s).isSome = (t.headerAt s).isSome) : Headed u := by
  intro s hpos hs
  rw [hheader]
  exact h s hpos (hsize ▸ hs)

theorem push (h : Headed t) (i : Item) : Headed (t.push s i) :=
  h.of_views (ScopeTree.size_push t s i) fun r => by rw [ScopeTree.headerAt_push]

theorem stocks (h : Headed t) (hstock : Stocks s t u) : Headed u :=
  h.of_views hstock.size_eq fun r => by rw [hstock.headerAt_eq]

-- The new scope has the header that it is opened with.
theorem nest (h : Headed t) (header : LoopHeader) (hs : s < t.size) :
    Headed (t.nest s header) := by
  intro r hpos hr
  rw [ScopeTree.size_nest] at hr
  by_cases hnew : r = t.size
  · rw [hnew, ScopeTree.headerAt_nest_body header hs]
    rfl
  · have hold : r < t.size := by omega
    rw [ScopeTree.headerAt_nest header hold]
    exact h r hpos hold

end Headed

theorem headed_invariant (target : Target) : Reading.Invariant target fun t _ => Headed t where
  stocks _ h hstock := h.stocks hstock
  grows hsound h hgrows := by
    cases hgrows with
    | empty => exact h
    | const _ => exact h.push _
    | reset hstock => exact (h.stocks hstock).push _
    | declare hstock => exact ((h.stocks hstock).push _).push _
    | loop hstock => exact (h.stocks hstock).nest _ (hstock.sound hsound).current
    | pool _ => exact h
    | command _ hstock => exact (h.stocks hstock).push _

theorem headed_lasting (target : Target) : Lasting target fun _ t => Headed t where
  empty s hpos hs := by
    have hsize : ScopeTree.empty.size = 1 := rfl
    omega
  read lines hrooted h := by
    rcases (headed_invariant target).run hrooted h lines with ⟨-, hafter⟩
    exact hafter
  unroll h hskel := by
    refine h.of_views (ScopeTree.size_of_skeleton hskel) fun s => ?_
    rw [← Option.isSome_map, ScopeTree.headerAt_of_skeleton hskel, Option.isSome_map]
  clear h := h.of_views (ScopeTree.size_clear _) fun s => by rw [ScopeTree.headerAt_clear]

/-- In the tree of a session, all scopes but the root are bodies of loops. -/
theorem headed_history (target : Target) (calls : List Call) :
    Headed (history target calls).tree :=
  (headed_lasting target).history calls

/-! ## Actions that do not look at the log -/

namespace Blind

variable {σ α β : Type}

theorem matches_self (r : Except Failure α) : (⟨Eq, Eq, Eq⟩ : Mirror σ σ).Matches Eq r r :=
  Mirror.Matches.refl (fun _ => rfl) (fun _ => rfl) r

theorem pure (a : α) : Blind (Pure.pure a : PassM σ α) :=
  Mirror.Reflects.pure rfl

theorem refuse (line : Nat) (cause : Cause) : Blind (PassM.refuse line cause : PassM σ α) :=
  Mirror.Reflects.throw rfl

theorem ofExcept (r : Except Failure α) : Blind (MonadExcept.ofExcept r : PassM σ α) :=
  Mirror.Reflects.ofExcept (matches_self r)

theorem ask (query : ScopeTree → Except Failure α) : Blind (PassM.ask query : PassM σ α) := by
  refine Mirror.Reflects.ask ?_
  rintro t _ rfl
  exact matches_self (query t)

theorem change (step : ScopeTree → Except Failure (α × ScopeTree)) :
    Blind (PassM.change step : PassM σ α) := by
  refine Mirror.Reflects.change ?_
  rintro t _ rfl
  refine (matches_self (step t)).mono ?_
  rintro x _ rfl
  exact ⟨rfl, rfl⟩

theorem note (e : Event) : Blind (PassM.note e : PassM σ Unit) :=
  Mirror.Reflects.note e e

theorem own : Blind (PassM.own : PassM σ σ) :=
  Mirror.Reflects.own

theorem setOwn (f : σ → σ) : Blind (PassM.setOwn f : PassM σ Unit) :=
  Mirror.Reflects.setOwn fun _ _ h => congrArg f h

theorem bind {m : PassM σ α} {f : α → PassM σ β} (h : Blind m) (hf : ∀ a, Blind (f a)) :
    Blind (m >>= f) :=
  Mirror.Reflects.next h hf

/-- What is put together from small steps does not look at the log: none of these
    does. -/
theorem of_stepwise {line : Nat} {m : ReadM α} (h : Stepwise line m) : Blind m := by
  induction h with
  | pure a => exact pure a
  | refuse cause => exact refuse line cause
  | ofExcept _ => exact ofExcept _
  | ask _ => exact ask _
  | change _ => exact change _
  | note _ => exact note _
  | own => exact own
  | setOwn f => exact setOwn f
  | bind _ _ ih ihf => exact ih.bind ihf

/-- What an action comes to after other events. -/
theorem exec_eq {m : PassM σ α} (h : Blind m) (t : ScopeTree) (log log' : Array Event) (s : σ) :
    (m.exec ⟨t, log, s⟩).1 = (m.exec ⟨t, log', s⟩).1 ∧
      (m.exec ⟨t, log, s⟩).2.tree = (m.exec ⟨t, log', s⟩).2.tree := by
  rcases h ⟨t, log, s⟩ ⟨t, log', s⟩ ⟨rfl, rfl⟩ with ⟨hmatch, hshows⟩
  refine ⟨?_, hshows.tree⟩
  generalize (m.exec ⟨t, log, s⟩).1 = r at hmatch ⊢
  generalize (m.exec ⟨t, log', s⟩).1 = q at hmatch ⊢
  cases r with
  | error e => cases q with
      | error e' => exact congrArg Except.error hmatch
      | ok b => exact hmatch.elim
  | ok a => cases q with
      | error e' => exact hmatch.elim
      | ok b => exact congrArg Except.ok hmatch

end Blind

namespace Reading

variable {target : Target}

/-- Reading a line does not look at the log. -/
theorem blind_readLine (number : Nat) (text : String) : Blind (readLine target number text) :=
  .of_stepwise (stepwise_readLine number text)

theorem blind_finish : Blind finish := by
  refine Blind.own.bind fun s => (Blind.ask _).bind fun scope => ?_
  cases scope.header with
  | some header => exact .refuse _ _
  | none => exact .pure _

/-! ## Lines in a row -/

/-- The effect of lines in a row, counting on from a number. -/
def countOn (target : Target) (lines : List (Nat × String)) (count : Nat) : ReadM Nat :=
  lines.foldlM (fun count (number, text) => do return count + (← readLine target number text)) count

theorem countOn_cons (number : Nat) (text : String) (rest : List (Nat × String)) (count : Nat) :
    countOn target ((number, text) :: rest) count =
      readLine target number text >>= fun n => countOn target rest (count + n) := by
  unfold countOn
  rw [List.foldlM_cons, bind_assoc]
  simp only [pure_bind]

theorem blind_countOn (lines : List (Nat × String)) (count : Nat) :
    Blind (countOn target lines count) := by
  induction lines generalizing count with
  | nil => exact .pure count
  | cons line rest ih =>
      rw [countOn_cons]
      exact (blind_readLine _ _).bind fun n => ih (count + n)

/-- Counting on from a number adds to it what counting from zero comes to. -/
theorem exec_countOn (lines : List (Nat × String)) (count n : Nat) (w : Work ScopeId) :
    (countOn target lines (count + n)).exec w =
      (((countOn target lines n).exec w).1.map (count + ·),
        ((countOn target lines n).exec w).2) := by
  induction lines generalizing n w with
  | nil => rfl
  | cons line rest ih =>
      rw [countOn_cons, countOn_cons, exec_bind, exec_bind]
      rcases (readLine target line.1 line.2).exec w with ⟨e | k, v⟩
      · rfl
      · dsimp only
        rw [Nat.add_assoc, ih]

-- The end of a pass asks for the current scope, and changes nothing.
theorem finish_state (w : Work ScopeId) : (finish.exec w).2 = w := by
  unfold finish current
  rw [exec_bind, exec_own]
  dsimp only
  rw [exec_bind, exec_ask]
  cases orFault (w.tree.scope w.own) with
  | error e => rfl
  | ok scope =>
      dsimp only
      cases scope.header with
      | some header => rfl
      | none => rfl

/-- The pass over the lines after others. -/
def readOn (target : Target) (lines : List (Nat × String)) (count : Nat) : ReadM Nat := do
  let count ← countOn target lines count
  finish
  return count

theorem readProgram_eq (lines : List (Nat × String)) :
    readProgram target lines = readOn target lines 0 := rfl

theorem readOn_append (lines more : List (Nat × String)) :
    readOn target (lines ++ more) 0 = countOn target lines 0 >>= readOn target more := by
  unfold readOn countOn
  rw [List.foldlM_append, bind_assoc]

theorem exec_readOn (lines : List (Nat × String)) (count : Nat) (w : Work ScopeId) :
    (readOn target lines count).exec w =
      (((readOn target lines 0).exec w).1.map (count + ·), ((readOn target lines 0).exec w).2) := by
  unfold readOn
  rw [exec_bind, exec_bind, show count = count + 0 from rfl, exec_countOn]
  rcases (countOn target lines 0).exec w with ⟨e | n, v⟩
  · rfl
  · change (finish >>= fun _ => Pure.pure (count + n)).exec v = _
    rw [exec_bind]
    dsimp only
    rw [exec_bind]
    rcases finish.exec v with ⟨e | ⟨⟩, v'⟩
    · rfl
    · rfl

-- A pass that has come to its end was at the root when the lines were over.
theorem exec_countOn_of_ok {t : ScopeTree} {lines : List (Nat × String)} {n : Nat}
    {w : Work ScopeId} (hrooted : Rooted t) (hheaded : Headed t)
    (h : (readProgram target lines).exec ⟨t, #[], 0⟩ = (.ok n, w)) :
    (countOn target lines 0).exec ⟨t, #[], 0⟩ = (.ok n, w) ∧ w.own = 0 := by
  have hmeets : (readProgram target lines).Meets ⟨t, #[], 0⟩ _ _ :=
    readProgram_meets lines ⟨hrooted, hrooted.nonempty⟩
  have hafter : Headed w.tree := by
    rcases (headed_invariant target).run hrooted hheaded lines with ⟨-, hafter⟩
    unfold run at hafter
    rw [start_eq_exec] at hafter
    unfold ScopeId.root at hafter
    rwa [h] at hafter
  unfold Meets at hmeets
  rw [h] at hmeets
  rcases hmeets with ⟨hgrows, hheader⟩
  have hcurrent := (hgrows.sound ⟨hrooted, hrooted.nonempty⟩).current
  refine ⟨?_, ?_⟩
  · rw [readProgram_eq] at h
    unfold readOn at h
    rw [exec_bind] at h
    rcases hcount : (countOn target lines 0).exec ⟨t, #[], 0⟩ with ⟨e | k, v⟩
    · rw [hcount] at h
      cases h
    · rw [hcount] at h
      have hstate := finish_state v
      dsimp only at h
      rw [exec_bind] at h
      rcases hfinish : finish.exec v with ⟨e | ⟨⟩, v'⟩
      · rw [hfinish] at h
        cases h
      · rw [hfinish] at h hstate
        cases h
        exact congrArg _ hstate.symm
  · by_contra hne
    have hsome := hafter w.own (Nat.pos_of_ne_zero hne) hcurrent
    rw [hheader] at hsome
    cases hsome

/-- A pass over lines and then more: if it succeeds on the lines alone, then it
    comes to what a second pass comes to, from the tree that the first has left. -/
theorem readProgram_append {t : ScopeTree} {lines : List (Nat × String)} {n : Nat}
    {w : Work ScopeId} (hrooted : Rooted t) (hheaded : Headed t)
    (h : run target t lines = (.ok n, w)) (more : List (Nat × String)) :
    (run target t (lines ++ more)).1 = (run target w.tree more).1.map (n + ·) ∧
      (run target t (lines ++ more)).2.tree = (run target w.tree more).2.tree := by
  rcases exec_countOn_of_ok hrooted hheaded h with ⟨hcount, hroot⟩
  have hblind : Blind (readOn target more 0) :=
    (blind_countOn more 0).bind fun _ => blind_finish.bind fun _ => .pure _
  have hexec : run target t (lines ++ more) = (readOn target more n).exec w := by
    unfold run
    rw [start_eq_exec, readProgram_eq, readOn_append, exec_bind]
    unfold ScopeId.root
    rw [hcount]
  rcases w with ⟨u, log, own⟩
  obtain rfl : own = 0 := hroot
  rcases hblind.exec_eq u log #[] 0 with ⟨hresult, htree⟩
  rw [hexec, exec_readOn, hresult, htree]
  exact ⟨rfl, rfl⟩

end Reading

/-! ## Sessions -/

-- The outcome and the tree of a pass are all that a session keeps of it.
theorem parse_eq_of_run {a : Assembler} {t : ScopeTree} {lines more : List (Nat × String)}
    {f : Nat → Nat}
    (hanswer : (Reading.run a.target a.tree lines).1 = (Reading.run a.target t more).1.map f)
    (htree : (Reading.run a.target a.tree lines).2.tree = (Reading.run a.target t more).2.tree) :
    (a.parse lines).answer = (Assembler.parse { a with tree := t } more).answer.map f ∧
      (a.parse lines).after = (Assembler.parse { a with tree := t } more).after := by
  unfold Assembler.parse
  dsimp only
  generalize Reading.run a.target a.tree lines = x at hanswer htree ⊢
  generalize Reading.run a.target t more = y at hanswer htree ⊢
  rcases x with ⟨r, w⟩
  rcases y with ⟨q, v⟩
  obtain rfl : r = q.map f := hanswer
  have htree : w.tree = v.tree := htree
  cases q with
  | error e =>
      dsimp only [Except.map]
      rw [htree]
      exact ⟨rfl, rfl⟩
  | ok m =>
      dsimp only [Except.map]
      rw [htree]
      exact ⟨rfl, rfl⟩

/-- For every session, after any calls, and all lines: if reading the first of
    them succeeds with `n` statements, then reading the others in a second call
    leaves the same session as reading all in one call, and the one call answers
    with `n` more statements than the second, or with the same error. -/
theorem parse_append (target : Target) (calls : List Call) (lines more : List (Nat × String))
    (n : Nat) (h : ((history target calls).parse lines).answer = .ok n) :
    (((history target calls).parse lines).after.parse more).after =
        ((history target calls).parse (lines ++ more)).after ∧
      ((history target calls).parse (lines ++ more)).answer =
        (((history target calls).parse lines).after.parse more).answer.map (n + ·) := by
  have hrooted := (healthy_history target calls).rooted
  have hheaded := headed_history target calls
  generalize history target calls = a at h hrooted hheaded ⊢
  rcases hrun : Reading.run a.target a.tree lines with ⟨r, w⟩
  have hparse : (a.parse lines).answer = r ∧
      (r = .ok n → (a.parse lines).after = { a with tree := w.tree }) := by
    unfold Assembler.parse
    rw [hrun]
    cases r with
    | error e => exact ⟨rfl, fun hr => by cases hr⟩
    | ok k => exact ⟨rfl, fun _ => rfl⟩
  obtain rfl := hparse.1.symm.trans h
  rw [hparse.2 rfl]
  rcases Reading.readProgram_append hrooted hheaded hrun more with ⟨hanswer, htree⟩
  rcases parse_eq_of_run hanswer htree with ⟨hsame, hafter⟩
  exact ⟨hafter.symm, hsame⟩

/-- A loop that is closed again, to be read in a session that has seen an error. -/
def firstPiece : List (Nat × String) :=
  [(3, "LOOP 0 2 1"), (4, "ADD x 1"), (5, "POOL")]

/-- Lines of which the second closes a loop that is not open. -/
def secondPiece : List (Nat × String) :=
  [(6, "VAR x 7"), (7, "POOL")]

-- Three statements, and then an error that is the same in one call and in two.
theorem parse_append_secondPiece :
    let a := history sampleTarget [.parse [(1, "VAR x 1"), (2, "ADD y 1")]]
    (a.parse firstPiece).answer = .ok 3 ∧
    ((a.parse firstPiece).after.parse secondPiece).after =
      (a.parse (firstPiece ++ secondPiece)).after ∧
    (a.parse (firstPiece ++ secondPiece)).answer =
      .error (.refused (.onLine 7 (.syntactic .poolWithoutLoop))) := by
  have hfirst : ((history sampleTarget [.parse [(1, "VAR x 1"), (2, "ADD y 1")]]).parse
      firstPiece).answer = .ok 3 := by decide +kernel
  have hsecond : (((history sampleTarget [.parse [(1, "VAR x 1"), (2, "ADD y 1")]]).parse
      firstPiece).after.parse secondPiece).answer =
        .error (.refused (.onLine 7 (.syntactic .poolWithoutLoop))) := by decide +kernel
  rcases parse_append sampleTarget _ firstPiece secondPiece 3 hfirst with ⟨hafter, hanswer⟩
  refine ⟨hfirst, hafter, ?_⟩
  rw [hanswer, hsecond]
  rfl

end UnrollAsm
