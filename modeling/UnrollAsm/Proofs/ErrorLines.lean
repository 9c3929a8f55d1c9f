import UnrollAsm.Proofs.Pieces
import UnrollAsm.Proofs.Reading.Instructions
import UnrollAsm.Proofs.Transcript
import UnrollAsm.Proofs.Unrolling.Culprits

/-!
# Errors Name Lines

Every error of a session names a line of the program. Where the error is found
decides which: the line that is being read, the line of the innermost loop that is
still open when the lines are over, or the line that an instruction or a loop was
read from which is being carried out. A session that remembers an error names the
same line again.

The tree keeps a line with every instruction and every loop, and it is one of those
that have been read. While lines are read, the loops that are open can be told from
the lines alone; the scopes around the current one have their headers from these
lines.

## Main definitions

* `Sourced`: Instructions and loops carry lines that have been read.
* `openLoops`: The loops that lines leave open.
* `OpenedBy`: The scopes around a scope were opened by some lines.
* `Reading.FailsAt`: A pass over lines fails at one of them.
* `FoundAt`: The line at which the error of a call is found.

## Theorems

* `sourced_lasting`: Instructions and loops carry lines of the session.
* `OpenedBy.growsAll`: Reading lines keeps track of the open loops.
* `Reading.readProgram_fails`: A pass that fails does so at a line.
* `exists_of_firstError`: The call that the first error comes from.
* `error_names_line`: Every error names a line.
-/

namespace UnrollAsm

open PassM

/-- Every instruction carries a line that has been read, and so does every loop, and
    the line of a loop opens it. The root is no loop. -/
structure Sourced (given : List (Nat × String)) (t : ScopeTree) : Prop where
  root : t.headerAt 0 = none
  instructions : ∀ m i, t.item? m = some (.instruction i) →
    ∃ line ∈ given, i.source = .of line.1 line.2
  headers : ∀ (c : Nat) header, t.headerAt c = some header →
    ∃ line ∈ given, header.source = .of line.1 line.2 ∧ opensLoop line = true

/-- The loops that are open after one more line, the innermost first. -/
def openLoopsAfter (around : List (Nat × String)) (line : Nat × String) :
    List (Nat × String) :=
  if opensLoop line then line :: around
  else if closesLoop line then around.tail
  else around

/-- The lines of the loops that are still open when the lines are over, the
    innermost first. -/
def openLoops (lines : List (Nat × String)) : List (Nat × String) :=
  lines.foldl openLoopsAfter []

/-- The scopes around the scope `s`, and `s` itself, are the bodies of loops that
    were opened by the given lines, the innermost first. -/
inductive OpenedBy (t : ScopeTree) : Nat → List (Nat × String) → Prop
  | root : t.headerAt 0 = none → OpenedBy t 0 []
  | loop {p s : Nat} {line : Nat × String} {around : List (Nat × String)}
      {header : LoopHeader} :
      OpenedBy t p around → t.parentAt s = some p → t.headerAt s = some header →
      header.source = .of line.1 line.2 → OpenedBy t s (line :: around)

/-! ## Lines in the tree -/

-- The line of a loop is part of its skeleton.
theorem LoopHeader.source_of_skeleton {h h' : LoopHeader} (hskel : h.skeleton = h'.skeleton) :
    h.source = h'.source := by
  have hsource := congrArg LoopHeader.source hskel
  exact hsource

namespace Sourced

variable {given more : List (Nat × String)} {t u : ScopeTree}

theorem mono (h : Sourced given t) (hsub : given ⊆ more) : Sourced more t where
  root := h.root
  instructions m i hm := by
    rcases h.instructions m i hm with ⟨line, hline, hsource⟩
    exact ⟨line, hsub hline, hsource⟩
  headers c header hh := by
    rcases h.headers c header hh with ⟨line, hline, hsource⟩
    exact ⟨line, hsub hline, hsource⟩

theorem empty : Sourced [] .empty where
  root := rfl
  instructions m i hm := by
    rw [item?_empty] at hm
    cases hm
  headers c header hh := by
    have hnone : ScopeTree.empty.headerAt c = none := by
      cases c <;> simp [ScopeTree.empty, ScopeTree.headerAt, Scope.fresh]
    rw [hnone] at hh
    cases hh

theorem of_skeleton (h : Sourced given t) (hskel : u.skeleton = t.skeleton) :
    Sourced given u where
  root := by
    have hmap := ScopeTree.headerAt_of_skeleton hskel 0
    rw [h.root] at hmap
    exact Option.map_eq_none_iff.1 hmap
  instructions m i hm := by
    rcases ScopeTree.exists_item hskel.symm hm with ⟨j, hj, hjskel⟩
    obtain rfl := Item.eq_of_skeleton_eq rfl hjskel
    exact h.instructions m i hj
  headers c header hh := by
    rcases ScopeTree.exists_header hskel.symm hh with ⟨header', hh', hskel'⟩
    have hsource := h.headers c header' hh'
    rwa [LoopHeader.source_of_skeleton hskel'] at hsource

theorem clear (h : Sourced given t) : Sourced given t.clear where
  root := (ScopeTree.headerAt_clear t 0).trans h.root
  instructions m i hm := by
    rw [ScopeTree.item?_clear, Option.map_eq_some_iff] at hm
    rcases hm with ⟨j, hj, hclear⟩
    cases j with
    | symbol _ => cases hclear
    | instruction j =>
        cases hclear
        exact h.instructions m j hj
    | loop _ => cases hclear
  headers c header hh := by
    rw [ScopeTree.headerAt_clear] at hh
    exact h.headers c header hh

end Sourced

theorem sourced_invariant (target : Target) (given lines : List (Nat × String)) :
    Reading.InvariantOn target lines fun t _ => Sourced (given ++ lines) t where
  stocks hsound h hstock := by
    refine ⟨(hstock.headerAt_eq 0).trans h.root, fun m i hm => ?_, fun c header hh => ?_⟩
    · rcases hstock.item_cases hsound.current hm with hm | ⟨v, hv⟩
      · exact h.instructions m i hm
      · cases hv
    · rw [hstock.headerAt_eq] at hh
      exact h.headers c header hh
  grows := by
    intro number text st t t' s s' hline hparse hsound h hgrows
    have hgiven : (number, text) ∈ given ++ lines := List.mem_append_right given hline
    refine ⟨?_, fun m i hm => ?_, fun c header hh => ?_⟩
    · exact (hgrows.views hsound.rooted.nonempty).2.trans h.root
    · rcases hgrows.instructions hsound.current with ⟨new, hnew⟩
      rcases hnew m i hm with hm | ⟨-, hsource, -⟩
      · exact h.instructions m i hm
      · exact ⟨_, hgiven, hsource⟩
    · rcases hgrows.headers hsound.current hh with hh | ⟨hsource, start, stop, step, rfl⟩
      · exact h.headers c header hh
      · refine ⟨_, hgiven, hsource, ?_⟩
        unfold opensLoop
        rw [hparse]

/-- Instructions and loops carry lines of the session. -/
theorem sourced_lasting (target : Target) : Lasting target Sourced where
  empty := Sourced.empty
  read := by
    intro given t lines hrooted h
    have hstart : Sourced (given ++ lines) t := h.mono (List.subset_append_left given lines)
    rcases (sourced_invariant target given lines).run hrooted hstart with ⟨-, hafter⟩
    exact hafter
  unroll h hskel := h.of_skeleton hskel
  clear h := h.clear

/-! ## Open loops -/

theorem mem_foldl_openLoopsAfter {line : Nat × String} {lines around : List (Nat × String)}
    (h : line ∈ lines.foldl openLoopsAfter around) : line ∈ around ∨ line ∈ lines := by
  induction lines generalizing around with
  | nil => exact Or.inl h
  | cons first rest ih =>
      rcases ih h with hline | hline
      · unfold openLoopsAfter at hline
        split at hline
        · rcases List.mem_cons.1 hline with rfl | hline
          · exact Or.inr List.mem_cons_self
          · exact Or.inl hline
        · split at hline
          · exact Or.inl (List.mem_of_mem_tail hline)
          · exact Or.inl hline
      · exact Or.inr (List.mem_cons_of_mem _ hline)

namespace OpenedBy

variable {target : Target} {t t' u : ScopeTree} {s s' : Nat}
  {around lines : List (Nat × String)}

-- Scopes that were there keep what is around them.
theorem keep (h : OpenedBy t s around) (ht : 0 < t.size)
    (hviews : ∀ c : Nat, c < t.size →
      u.parentAt c = t.parentAt c ∧ u.headerAt c = t.headerAt c) :
    OpenedBy u s around := by
  induction h with
  | root hroot => exact .root ((hviews 0 ht).2.trans hroot)
  | loop _ hparent hheader hsource ih =>
      rcases hviews _ (ScopeTree.lt_size_of_parentAt hparent) with ⟨hp, hh⟩
      exact .loop ih (hp.trans hparent) (hh.trans hheader) hsource

/-- A statement opens a loop, or closes the innermost one, or does neither. -/
theorem grows (line : Nat × String) {st : Statement} (h : OpenedBy t s around)
    (hsound : Sound t s) (hparse : Statement.parse line.1 line.2 = .ok st)
    (hgrows : Grows target (.of line.1 line.2) st t s t' s') :
    OpenedBy t' s' (openLoopsAfter around line) := by
  have hkept : OpenedBy t' s around :=
    h.keep hsound.rooted.nonempty fun c hc => hgrows.views hc
  unfold openLoopsAfter opensLoop closesLoop
  rw [hparse]
  cases hgrows with
  | empty => exact hkept
  | const => exact hkept
  | reset => exact hkept
  | declare => exact hkept
  | command => exact hkept
  | @loop _ u _ _ _ _ header hstock _ _ _ hsource _ _ =>
      have hs := (hstock.sound hsound).current
      exact .loop hkept (ScopeTree.parentAt_nest_body header hs)
        (ScopeTree.headerAt_nest_body header hs) hsource
  | pool hparent =>
      cases h with
      | root _ =>
          -- Nothing is around the root.
          exact absurd (hsound.rooted.older _ _ hparent) (Nat.not_lt_zero _)
      | loop houter hp _ _ =>
          rw [hparent] at hp
          cases hp
          exact houter

/-- Reading lines keeps track of the open loops. -/
theorem growsAll (h : OpenedBy t s around) (hsound : Sound t s)
    (hgrows : GrowsAll target lines t s t' s') :
    OpenedBy t' s' (lines.foldl openLoopsAfter around) := by
  induction hgrows generalizing around with
  | nil => exact h
  | @cons _ _ _ _ _ _ number text _ _ hparse hfirst _ ih =>
      exact ih (h.grows (number, text) hsound hparse hfirst) (hfirst.sound hsound)

end OpenedBy

/-! ## Reading -/

namespace Reading

/-- A pass over lines, from the state `w` on, ends in the complaint `d` at one of
    them. -/
inductive FailsAt (target : Target) (d : Diagnostic) (w : Work ScopeId)
    (lines : List (Nat × String)) : Nat × String → Prop
  /-- The line is refused, and all lines before it have been accepted. -/
  | line {k n : Nat} {line : Nat × String} {v x : Work ScopeId} :
      (readLines target (lines.take k)).exec w = (.ok n, v) → lines[k]? = some line →
      (readLine target line.1 line.2).exec v = (.error (.refused d), x) →
      FailsAt target d w lines line
  /-- All lines have been accepted, and the line has opened the innermost of the
      loops that are still open. -/
  | finish {n : Nat} {line : Nat × String} {v x : Work ScopeId} :
      (readLines target lines).exec w = (.ok n, v) → (openLoops lines).head? = some line →
      finish.exec v = (.error (.refused d), x) → FailsAt target d w lines line

variable {target : Target} {d : Diagnostic} {w v : Work ScopeId}
  {lines around : List (Nat × String)}

theorem exists_of_countOn_error {count : Nat} {e : Failure}
    (h : (countOn target lines count).exec w = (.error e, v)) :
    ∃ k n line x, (countOn target (lines.take k) count).exec w = (.ok n, x) ∧
      lines[k]? = some line ∧ (readLine target line.1 line.2).exec x = (.error e, v) := by
  induction lines generalizing w count with
  | nil => cases h
  | cons line rest ih =>
      rw [countOn_cons] at h
      rcases bind_error h with hfirst | ⟨n, x, hfirst, hrest⟩
      · exact ⟨0, count, line, w, rfl, rfl, hfirst⟩
      · rcases ih hrest with ⟨k, m, next, y, hpart, hnext, hfail⟩
        refine ⟨k + 1, m, next, y, ?_, hnext, hfail⟩
        rw [List.take_succ_cons, countOn_cons, exec_bind, hfirst]
        exact hpart

-- At the end of a pass the innermost open loop is reported.
theorem finish_fails (hopen : OpenedBy w.tree w.own around)
    (h : finish.exec w = (.error (.refused d), v)) :
    ∃ line, around.head? = some line ∧ d.line = some line.1 := by
  change (ask (fun t => orFault (t.scope w.own)) >>= _).exec w = _ at h
  rcases ask_bind_error h with hscope | ⟨scope, hscope, h⟩
  · exact absurd hscope (orFault_ne_refused _ _)
  have hheader : w.tree.headerAt w.own = scope.header := by
    unfold ScopeTree.headerAt
    rw [ScopeTree.scopes_of_orFault hscope]
    rfl
  cases hown : scope.header with
  | none =>
      rw [hown] at h
      cases h
  | some header =>
      rw [hown] at h hheader
      cases h
      generalize w.own = s at hopen hheader
      cases hopen with
      | root hroot =>
          rw [hroot] at hheader
          cases hheader
      | @loop _ _ line _ _ _ _ hh hsource =>
          rw [hheader] at hh
          cases hh
          exact ⟨line, rfl, congrArg (fun source : SourceLine => some source.number) hsource⟩

/-- A pass that fails does so at a line, and complains about this line. -/
theorem readProgram_fails (hw : Sound w.tree w.own) (hopen : OpenedBy w.tree w.own [])
    (h : (readProgram target lines).exec w = (.error (.refused d), v)) :
    ∃ line ∈ lines, d.line = some line.1 ∧ FailsAt target d w lines line := by
  rcases bind_error h with hlines | ⟨n, x, hlines, hrest⟩
  · rcases exists_of_countOn_error hlines with ⟨k, n, line, x, hpart, hline, hfail⟩
    exact ⟨line, List.mem_of_getElem? hline, (stepwise_readLine line.1 line.2).isOn hfail,
      .line hpart hline hfail⟩
  · rcases bind_error hrest with hfinish | ⟨⟨⟩, y, -, hpure⟩
    · have hmeets : (readLines target lines).Meets w _ _ := foldlM_readLine_meets lines 0 hw
      unfold Meets at hmeets
      rw [hlines] at hmeets
      rcases finish_fails (hopen.growsAll hw hmeets) hfinish with ⟨line, hhead, hnumber⟩
      rcases mem_foldl_openLoopsAfter (List.mem_of_head? hhead) with hnone | hline
      · cases hnone
      · exact ⟨line, hline, hnumber, .finish hlines hhead hfinish⟩
    · cases hpure

end Reading

/-! ## Unrolling -/

/-- What a walk fails at carries a line of the session. -/
theorem Unrolling.FailsAt.sourced {target : Target} {d : Diagnostic} {t : ScopeTree}
    {depth : Nat} {s : ScopeId} {w : Work (Array EmittedWord)} {culprit : Culprit}
    {given : List (Nat × String)} (h : FailsAt target d depth s w culprit) (ht : Rooted t)
    (hsourced : Sourced given t) (hw : w.tree.skeleton = t.skeleton) :
    ∃ line ∈ given, culprit.source = .of line.1 line.2 ∧
      ∀ header, culprit = .loop header → opensLoop line = true := by
  induction h with
  | instruction hcomes _ =>
      rcases hcomes.item? with ⟨k, hitem⟩
      rcases (hsourced.of_skeleton hw).instructions _ _ hitem with ⟨line, hline, hsource⟩
      exact ⟨line, hline, hsource, fun header hloop => (by cases hloop)⟩
  | entry hcomes hheader _ =>
      have hv := hsourced.of_skeleton (hcomes.skeleton ht hw)
      rcases hv.headers _ _ hheader with ⟨line, hline, hsource, hopens⟩
      exact ⟨line, hline, hsource, fun _ _ => hopens⟩
  | advance hcomes hstart _ _ =>
      rcases hstart.skeleton ht (hcomes.skeleton ht hw) with ⟨-, header, hheader, hskel⟩
      rcases hsourced.headers _ _ hheader with ⟨line, hline, hsource, hopens⟩
      exact ⟨line, hline, (LoopHeader.source_of_skeleton hskel).trans hsource, fun _ _ => hopens⟩
  | inside hcomes hstart _ ih => exact ih (hstart.skeleton ht (hcomes.skeleton ht hw)).1

/-! ## Sessions -/

/-- The line at which the error of a call is found. The call comes after the given
    ones. -/
inductive FoundAt (target : Target) (d : Diagnostic) : List Call → Call → Nat × String → Prop
  /-- While lines are read. -/
  | reading {calls : List Call} {c : Call} {line : Nat × String} :
      Reading.FailsAt target d ⟨(history target calls).tree, #[], .root⟩ c.lines line →
      FoundAt target d calls c line
  /-- While an instruction is carried out. -/
  | instruction {calls : List Call} {i : Instruction} {line : Nat × String} :
      Unrolling.FailsAt target d (history target calls).tree.size .root
        ⟨(history target calls).tree, #[], #[]⟩ (.instruction i) →
      i.source = .of line.1 line.2 → FoundAt target d calls .assemble line
  /-- While a loop is entered, or about to go on. -/
  | loop {calls : List Call} {header : LoopHeader} {line : Nat × String} :
      Unrolling.FailsAt target d (history target calls).tree.size .root
        ⟨(history target calls).tree, #[], #[]⟩ (.loop header) →
      header.source = .of line.1 line.2 → opensLoop line = true →
      FoundAt target d calls .assemble line
  /-- In an earlier call, the first that has failed. -/
  | earlier {calls more : List Call} {c : Call} {line : Nat × String} :
      firstError (.new target) calls = none → FoundAt target d calls c line →
      FoundAt target d (calls ++ c :: more) .assemble line

/-- The first error is that of some call, and the calls before it have not
    failed. -/
theorem exists_of_firstError {a : Assembler} {calls : List Call} {f : Failure}
    (h : firstError a calls = some f) :
    ∃ front c more, calls = front ++ c :: more ∧ firstError a front = none ∧
      (c.reply (front.foldl (fun a c => (c.reply a).after) a)).answer = .error f := by
  induction calls generalizing a with
  | nil => cases h
  | cons c rest ih =>
      unfold firstError at h
      cases hanswer : (c.reply a).answer with
      | error f' =>
          rw [error?_of_error hanswer] at h
          cases h
          exact ⟨[], c, rest, rfl, rfl, hanswer⟩
      | ok r =>
          rw [error?_of_ok hanswer] at h
          rcases ih h with ⟨front, c', more, rfl, hnone, hlast⟩
          refine ⟨c :: front, c', more, rfl, ?_, hlast⟩
          unfold firstError
          rw [error?_of_ok hanswer]
          exact hnone

section Sessions

variable {target : Target} {calls : List Call} {f : Failure}

theorem parse_fails {lines : List (Nat × String)}
    (h : ((history target calls).parse lines).answer = .error f) :
    ∃ d line, f = .refused d ∧ line ∈ lines ∧ d.line = some line.1 ∧
      Reading.FailsAt target d ⟨(history target calls).tree, #[], .root⟩ lines line := by
  have hrooted := (healthy_history target calls).rooted
  have hroot := ((sourced_lasting target).history calls).root
  cases f with
  | fault f => exact absurd h (((healthy_history target calls).parse lines).2 f)
  | refused d =>
      unfold Assembler.parse at h
      rw [target_history] at h
      rcases hrun : Reading.run target (history target calls).tree lines with ⟨e | n, v⟩
      · rw [hrun] at h
        cases h
        have hw : Sound (history target calls).tree 0 := ⟨hrooted, hrooted.nonempty⟩
        rcases Reading.readProgram_fails hw (.root hroot) hrun with ⟨line, hline, hnumber, hfails⟩
        exact ⟨d, line, rfl, hline, hnumber, hfails⟩
      · rw [hrun] at h
        cases h

/-- The error of a call that reads lines. -/
theorem reading_found {c : Call} (hc : c ≠ .assemble)
    (h : (c.reply (history target calls)).answer = .error f) :
    ∃ d line, f = .refused d ∧ line ∈ linesOf (calls ++ [c]) ∧ d.line = some line.1 ∧
      FoundAt target d calls c line := by
  have hfails : ∃ d line, f = .refused d ∧ line ∈ c.lines ∧ d.line = some line.1 ∧
      Reading.FailsAt target d ⟨(history target calls).tree, #[], .root⟩ c.lines line := by
    cases c with
    | parse lines => exact parse_fails h
    | parseSource text => exact parse_fails h
    | assemble => exact absurd rfl hc
  rcases hfails with ⟨d, line, hf, hline, hnumber, hfails⟩
  refine ⟨d, line, hf, ?_, hnumber, .reading hfails⟩
  rw [linesOf_snoc]
  exact List.mem_append_right _ hline

/-- The error of the first request to assemble. -/
theorem unroll_found (hnone : firstError (.new target) calls = none)
    (h : (history target calls).assemble.answer = .error f) :
    ∃ d line, f = .refused d ∧ line ∈ linesOf (calls ++ [.assemble]) ∧
      d.line = some line.1 ∧ FoundAt target d calls .assemble line := by
  have hrooted := (healthy_history target calls).rooted
  have hsourced := (sourced_lasting target).history calls
  have hreads : .assemble ∉ calls := by
    intro hmem
    rw [assemble_of_asked hnone hmem] at h
    cases h
  cases f with
  | fault f => exact absurd h ((healthy_history target calls).assemble.2 f)
  | refused d =>
      rw [assemble_of_unasked hnone hreads] at h
      unfold Assembler.unroll at h
      rw [target_history] at h
      rcases hrun : Unrolling.run target (history target calls).tree with ⟨e | ⟨⟩, v⟩
      · rw [hrun] at h
        cases h
        rcases Unrolling.walk_fails hrun with ⟨culprit, hfails⟩
        rcases hfails.sourced hrooted hsourced rfl with ⟨line, hline, hsource, hloop⟩
        have hnumber : d.line = some line.1 := by
          rw [hfails.line, hsource]
          rfl
        have hgiven : line ∈ linesOf (calls ++ [.assemble]) := by
          rw [linesOf_append]
          exact List.mem_append_left _ hline
        refine ⟨d, line, rfl, hgiven, hnumber, ?_⟩
        cases culprit with
        | instruction i => exact .instruction hfails hsource
        | loop header => exact .loop hfails hsource (hloop header rfl)
      · rw [hrun] at h
        cases h

end Sessions

/-- **Every error names a line.** For every target and after any calls: the error of
    a call has the number of a line that the session has been given, and this is the
    line at which the error is found. -/
theorem error_names_line (target : Target) (calls : List Call) (c : Call) {f : Failure}
    (h : (c.reply (history target calls)).answer = .error f) :
    ∃ d line, f = .refused d ∧ line ∈ linesOf (calls ++ [c]) ∧ d.line = some line.1 ∧
      FoundAt target d calls c line := by
  by_cases hc : c = .assemble
  · subst hc
    cases hfirst : firstError (.new target) calls with
    | none => exact unroll_found hfirst h
    | some f' =>
        -- The session answers with the error that it remembers.
        have hanswer : (history target calls).assemble.answer = .error f := h
        rw [assemble_of_firstError hfirst] at hanswer
        cases hanswer
        rcases exists_of_firstError hfirst with ⟨front, c, more, rfl, hnone, hlast⟩
        have hfound : ∃ d line, f = .refused d ∧ line ∈ linesOf (front ++ [c]) ∧
            d.line = some line.1 ∧ FoundAt target d front c line := by
          by_cases hc : c = .assemble
          · subst hc
            exact unroll_found hnone hlast
          · exact reading_found hc hlast
        rcases hfound with ⟨d, line, hf, hline, hnumber, hfound⟩
        refine ⟨d, line, hf, ?_, hnumber, .earlier hnone hfound⟩
        rw [List.append_assoc, List.cons_append, List.append_cons, linesOf_append]
        exact List.mem_append_left _ hline
  · exact reading_found hc h

/-- A loop whose second trip does not have a cache line any more. -/
def overflowingLines : List (Nat × String) :=
  [(1, "VAR x 6"), (2, "LOOP 0 3 1"), (3, "ADD x 1"), (4, "SETDIC x"), (5, "POOL")]

-- Both requests to assemble name the line of the command in the loop.
theorem error_names_line_overflowingLines :
    ∃ d, (history sampleTarget [.parse overflowingLines, .assemble]).assemble.answer =
        .error (.refused d) ∧
      FoundAt sampleTarget d [.parse overflowingLines, .assemble] .assemble (4, "SETDIC x") := by
  have hanswer : (history sampleTarget [.parse overflowingLines, .assemble]).assemble.answer =
      .error (.onLine 4 (.range (.beyondCache .line 8 8))) := by
    decide +kernel
  rcases error_names_line sampleTarget _ .assemble hanswer with
    ⟨d, line, hd, hline, hnumber, hfound⟩
  obtain rfl : d = .onLine 4 (.range (.beyondCache .line 8 8)) := (Failure.refused.inj hd).symm
  -- There is one line with this number.
  obtain rfl : line = (4, "SETDIC x") := by
    have honly : ∀ l ∈ linesOf [.parse overflowingLines, .assemble, .assemble],
        some 4 = some l.1 → l = (4, "SETDIC x") := by decide
    exact honly line hline hnumber
  exact ⟨_, hanswer, hfound⟩

end UnrollAsm
