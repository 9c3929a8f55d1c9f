import UnrollAsm.Proofs.Session.Calls

/-!
# Sessions Stop at the First Error

A session may be called in any order: lines may be read after an error, after
assembly, or between two requests to assemble. Two facts about its past decide
what a request to assemble comes to, and nothing else does. If some call has
failed, the request is answered by the error of the first that did. If none has,
the tree is unrolled at the first request, and every later request returns no
words, however many lines have been read since.

Both facts are kept in the state, as `failure` and `assembled`. What has to be
shown is that the state keeps them faithfully. An error of a later call must not
replace the first one, and an unsuccessful request must not count as assembly.

## Main definitions

* `Reply.error?`, `Call.words`: The error of a call, and the words it returns.
* `firstError`: The error of the first call that fails.
* `wordLists`: The words that each call returns.
* `FailStop`: What calls in a row lead to.

## Theorems

* `failure_reply`: A call leaves the first error in place.
* `failure_foldl`: The error that a session remembers is the first one.
* `assembled_foldl`: A session without errors knows whether it was assembled.
* `countP_wordLists`: At most one call returns words.
* `failStop_history`: All of this for a session from its beginning.
-/

namespace UnrollAsm

/-- The error that a call ends in. -/
def Reply.error? {α : Type} (r : Reply α) : Option Failure :=
  match r.answer with
  | .ok _ => none
  | .error f => some f

/-- The words that a call returns. -/
def Call.words (a : Assembler) : Call → List EmittedWord
  | .assemble =>
    match a.assemble.answer with
    | .ok words => words
    | .error _ => []
  | .parse _ | .parseSource _ => []

/-- The error of the first call that fails, in calls from a session on. -/
def firstError (a : Assembler) : List Call → Option Failure
  | [] => none
  | c :: rest => (c.reply a).error?.or (firstError (c.reply a).after rest)

/-- The words that each call returns, in calls from a session on. -/
def wordLists (a : Assembler) : List Call → List (List EmittedWord)
  | [] => []
  | c :: rest => c.words a :: wordLists (c.reply a).after rest

/-- What calls in a row, from nothing on, lead to. -/
structure FailStop (target : Target) (calls : List Call) : Prop where
  /-- The session remembers the error of the first call that failed, if any. -/
  remembers : (history target calls).failure.map Failure.refused = firstError (.new target) calls
  /-- Later calls, failing or not, do not replace it. -/
  lasting : ∀ more f, firstError (.new target) calls = some f →
    (history target (calls ++ more)).failure.map Failure.refused = some f
  /-- After an error, a request to assemble is answered by it and changes nothing. -/
  refuses : ∀ f, firstError (.new target) calls = some f →
    (history target calls).assemble = ⟨.error f, history target calls, [.assemblyRefused]⟩
  /-- Without an error, the first request unrolls the tree. -/
  unrolls : firstError (.new target) calls = none → .assemble ∉ calls →
    (history target calls).assemble = (history target calls).unroll
  /-- Every later request returns no words and changes nothing. -/
  rests : firstError (.new target) calls = none → .assemble ∈ calls →
    (history target calls).assemble = ⟨.ok [], history target calls, [.assembledBefore]⟩
  /-- At most one call returns words. -/
  once : (wordLists (.new target) calls).countP (fun words => words ≠ []) ≤ 1

/-! ## One call -/

section Reply

variable {a : Assembler}

-- The three outcomes of a request to assemble.
theorem assemble_of_failure {d : Diagnostic} (h : a.failure = some d) :
    a.assemble = ⟨.error (.refused d), a, [.assemblyRefused]⟩ := by
  unfold Assembler.assemble
  rw [h]

theorem assemble_of_assembled (h : a.failure = none) (hdone : a.assembled = true) :
    a.assemble = ⟨.ok [], a, [.assembledBefore]⟩ := by
  unfold Assembler.assemble
  rw [h, hdone]
  rfl

theorem assemble_of_pending (h : a.failure = none) (hdone : a.assembled = false) :
    a.assemble = a.unroll := by
  unfold Assembler.assemble
  rw [h, hdone]
  rfl

-- Reading and unrolling end well, or in a failure that the session remembers.
theorem parse_outcome (a : Assembler) (lines : List (Nat × String)) :
    (∃ n t, (a.parse lines).answer = .ok n ∧ (a.parse lines).after = { a with tree := t }) ∨
    (∃ f t, (a.parse lines).answer = .error f ∧
      (a.parse lines).after = { a with tree := t }.remember f) := by
  unfold Assembler.parse
  rcases Reading.run a.target a.tree lines with ⟨f | n, work⟩
  · exact Or.inr ⟨f, work.tree, rfl, rfl⟩
  · exact Or.inl ⟨n, work.tree, rfl, rfl⟩

theorem unroll_outcome (a : Assembler) :
    (∃ words t, a.unroll.answer = .ok words ∧
      a.unroll.after = { a with tree := t, assembled := true }) ∨
    (∃ f t, a.unroll.answer = .error f ∧ a.unroll.after = { a with tree := t }.remember f) := by
  unfold Assembler.unroll
  rcases Unrolling.run a.target a.tree with ⟨f | ⟨⟩, work⟩
  · exact Or.inr ⟨f, work.tree, rfl, rfl⟩
  · exact Or.inl ⟨work.own.toList, work.tree.clear, rfl, rfl⟩

theorem error?_of_ok {α : Type} {r : Reply α} {result : α} (h : r.answer = .ok result) :
    r.error? = none := by
  unfold Reply.error?
  rw [h]

theorem error?_of_error {α : Type} {r : Reply α} {f : Failure} (h : r.answer = .error f) :
    r.error? = some f := by
  unfold Reply.error?
  rw [h]

-- What was remembered before stays, and so does the mark of an assembled session.
theorem failure_remember (a : Assembler) (t : ScopeTree) (d : Diagnostic) :
    ({ a with tree := t }.remember (.refused d)).failure.map Failure.refused =
      (a.failure.map Failure.refused).or (some (.refused d)) := by
  unfold Assembler.remember
  cases a.failure <;> rfl

theorem assembled_remember (a : Assembler) (t : ScopeTree) (f : Failure) :
    ({ a with tree := t }.remember f).assembled = a.assembled := by
  unfold Assembler.remember
  cases f <;> rfl

theorem failure_parse (h : Healthy a) (lines : List (Nat × String)) :
    (a.parse lines).after.failure.map Failure.refused =
      (a.failure.map Failure.refused).or (a.parse lines).error? := by
  rcases parse_outcome a lines with ⟨n, t, hanswer, hafter⟩ | ⟨f, t, hanswer, hafter⟩
  · rw [hafter, error?_of_ok hanswer, Option.or_none]
  · cases f with
    | refused d => rw [hafter, error?_of_error hanswer, failure_remember]
    | fault f => exact absurd hanswer ((h.parse lines).2 f)

theorem failure_assemble (h : Healthy a) :
    a.assemble.after.failure.map Failure.refused =
      (a.failure.map Failure.refused).or a.assemble.error? := by
  have hfault := h.assemble.2
  cases hfailure : a.failure with
  | some d =>
      rw [assemble_of_failure hfailure, hfailure]
      rfl
  | none =>
      cases hdone : a.assembled with
      | true =>
          rw [assemble_of_assembled hfailure hdone, hfailure]
          rfl
      | false =>
          rw [assemble_of_pending hfailure hdone] at hfault ⊢
          rcases unroll_outcome a with ⟨words, t, hanswer, hafter⟩ | ⟨f, t, hanswer, hafter⟩
          · rw [hafter, error?_of_ok hanswer, hfailure]
            rfl
          · cases f with
            | refused d =>
                rw [hafter, error?_of_error hanswer, failure_remember, hfailure]
            | fault f => exact absurd hanswer (hfault f)

/-- A call leaves the first error in place, and adds its own if there was none. -/
theorem failure_reply (h : Healthy a) (c : Call) :
    (c.reply a).after.failure.map Failure.refused =
      (a.failure.map Failure.refused).or (c.reply a).error? := by
  cases c with
  | parse lines => exact failure_parse h lines
  | parseSource text =>
      rw [Call.reply_parseSource]
      generalize Text.numbered text = lines
      exact failure_parse h lines
  | assemble => exact failure_assemble h

theorem assembled_parse (a : Assembler) (lines : List (Nat × String)) :
    (a.parse lines).after.assembled = a.assembled := by
  rcases parse_outcome a lines with ⟨n, t, -, hafter⟩ | ⟨f, t, -, hafter⟩
  · rw [hafter]
  · rw [hafter, assembled_remember]

-- A request that does not end in an error leaves an assembled session.
theorem assembled_assemble {words : List EmittedWord} (h : a.assemble.answer = .ok words) :
    a.assemble.after.assembled = true := by
  cases hfailure : a.failure with
  | some d =>
      rw [assemble_of_failure hfailure] at h
      cases h
  | none =>
      cases hdone : a.assembled with
      | true =>
          rw [assemble_of_assembled hfailure hdone]
          exact hdone
      | false =>
          rw [assemble_of_pending hfailure hdone] at h ⊢
          rcases unroll_outcome a with ⟨_, t, -, hafter⟩ | ⟨f, t, hanswer, -⟩
          · rw [hafter]
          · rw [hanswer] at h
            cases h

theorem assembled_reply (c : Call) (h : (c.reply a).error? = none) :
    (c.reply a).after.assembled = (a.assembled || decide (c = .assemble)) := by
  cases c with
  | parse lines =>
      rw [decide_eq_false (by simp), Bool.or_false]
      exact assembled_parse a lines
  | parseSource text =>
      rw [decide_eq_false (by simp), Bool.or_false, Call.reply_parseSource]
      generalize Text.numbered text = lines
      exact assembled_parse a lines
  | assemble =>
      rw [decide_eq_true rfl, Bool.or_true]
      cases hanswer : a.assemble.answer with
      | ok words => exact assembled_assemble hanswer
      | error f =>
          have herror : (Call.assemble.reply a).error? = some f := error?_of_error hanswer
          rw [herror] at h
          cases h

end Reply

/-! ## Calls in a row -/

section Foldl

variable {a : Assembler} (h : Healthy a) (calls : List Call)

include h

/-- The error that a session remembers is the first one. -/
theorem failure_foldl :
    (calls.foldl (fun a c => (c.reply a).after) a).failure.map Failure.refused =
      (a.failure.map Failure.refused).or (firstError a calls) := by
  induction calls generalizing a with
  | nil => exact Option.or_none.symm
  | cons c rest ih =>
      have hnext := ih (h.reply c).1
      rw [failure_reply h c, Option.or_assoc] at hnext
      exact hnext

/-- A session without errors knows whether it was asked to assemble. -/
theorem assembled_foldl (hnone : firstError a calls = none) :
    (calls.foldl (fun a c => (c.reply a).after) a).assembled =
      (a.assembled || decide (.assemble ∈ calls)) := by
  induction calls generalizing a with
  | nil => simp
  | cons c rest ih =>
      rcases Option.or_eq_none_iff.1 hnone with ⟨hfirst, hrest⟩
      have hnext := ih (h.reply c).1 hrest
      rw [assembled_reply c hfirst] at hnext
      rw [List.foldl_cons, hnext, Bool.or_assoc]
      congr 1
      rw [← Bool.decide_or]
      simp only [List.mem_cons, eq_comm]

end Foldl

/-! ## Words -/

/-- The session will not return words any more. -/
def Assembler.IsSpent (a : Assembler) : Prop :=
  a.failure ≠ none ∨ a.assembled = true

section Words

variable {a : Assembler}

theorem words_of_isSpent (h : a.IsSpent) (c : Call) : c.words a = [] := by
  cases c with
  | parse _ => rfl
  | parseSource _ => rfl
  | assemble =>
      unfold Call.words
      cases hfailure : a.failure with
      | some d => rw [assemble_of_failure hfailure]
      | none =>
          have hdone : a.assembled = true := h.resolve_left (not_not_intro hfailure)
          rw [assemble_of_assembled hfailure hdone]

theorem isSpent_parse (h : a.IsSpent) (lines : List (Nat × String)) :
    (a.parse lines).after.IsSpent := by
  rcases h with hfailure | hdone
  · left
    rcases Option.ne_none_iff_exists'.1 hfailure with ⟨d, hd⟩
    rcases parse_outcome a lines with ⟨n, t, -, hafter⟩ | ⟨f, t, -, hafter⟩
    · rw [hafter]
      exact hfailure
    · rw [hafter]
      cases f <;> simp [Assembler.remember, hd]
  · right
    rw [assembled_parse]
    exact hdone

theorem isSpent_reply (h : a.IsSpent) (c : Call) : (c.reply a).after.IsSpent := by
  cases c with
  | parse lines => exact isSpent_parse h lines
  | parseSource text =>
      rw [Call.reply_parseSource]
      generalize Text.numbered text = lines
      exact isSpent_parse h lines
  | assemble =>
      have hsame : a.assemble.after = a := by
        cases hfailure : a.failure with
        | some d => rw [assemble_of_failure hfailure]
        | none => rw [assemble_of_assembled hfailure (h.resolve_left (not_not_intro hfailure))]
      have hspent : a.assemble.after.IsSpent := by
        rw [hsame]
        exact h
      exact hspent

-- The call that returns words is the last to do so.
theorem isSpent_of_words {c : Call} (h : c.words a ≠ []) : (c.reply a).after.IsSpent := by
  cases c with
  | parse _ => exact absurd rfl h
  | parseSource _ => exact absurd rfl h
  | assemble =>
      right
      unfold Call.words at h
      cases hanswer : a.assemble.answer with
      | ok words => exact assembled_assemble hanswer
      | error f =>
          rw [hanswer] at h
          exact absurd rfl h

theorem countP_of_isSpent (h : a.IsSpent) (calls : List Call) :
    (wordLists a calls).countP (fun words => words ≠ []) = 0 := by
  induction calls generalizing a with
  | nil => rfl
  | cons c rest ih =>
      have hrest := ih (isSpent_reply h c)
      have hempty := words_of_isSpent h c
      simp only [wordLists, List.countP_cons, hrest, hempty]
      simp

/-- At most one call returns words. -/
theorem countP_wordLists (a : Assembler) (calls : List Call) :
    (wordLists a calls).countP (fun words => words ≠ []) ≤ 1 := by
  induction calls generalizing a with
  | nil => exact Nat.zero_le 1
  | cons c rest ih =>
      simp only [wordLists, List.countP_cons]
      by_cases hwords : c.words a = []
      · have hrest := ih (c.reply a).after
        simp only [hwords, ne_eq, not_true_eq_false, decide_false, Bool.false_eq_true, if_false,
          Nat.add_zero]
        exact hrest
      · have hrest := countP_of_isSpent (isSpent_of_words hwords) rest
        rw [hrest]
        split <;> omega

end Words

/-! ## Calls from the beginning -/

section History

variable {target : Target} {calls : List Call}

theorem failure_history (target : Target) (calls : List Call) :
    (history target calls).failure.map Failure.refused = firstError (.new target) calls :=
  failure_foldl (Healthy.new target) calls

theorem failure_eq_none (hnone : firstError (.new target) calls = none) :
    (history target calls).failure = none :=
  Option.map_eq_none_iff.1 ((failure_history target calls).trans hnone)

theorem assembled_history (hnone : firstError (.new target) calls = none) :
    (history target calls).assembled = decide (.assemble ∈ calls) :=
  assembled_foldl (Healthy.new target) calls hnone

theorem history_append (target : Target) (calls more : List Call) :
    history target (calls ++ more) =
      more.foldl (fun a c => (c.reply a).after) (history target calls) :=
  List.foldl_append

-- What a request to assemble comes to, told by the calls before it.
theorem assemble_of_firstError {f : Failure} (h : firstError (.new target) calls = some f) :
    (history target calls).assemble = ⟨.error f, history target calls, [.assemblyRefused]⟩ := by
  have hmap := (failure_history target calls).trans h
  rcases Option.map_eq_some_iff.1 hmap with ⟨d, hd, rfl⟩
  exact assemble_of_failure hd

theorem assemble_of_unasked (hnone : firstError (.new target) calls = none)
    (hfirst : .assemble ∉ calls) :
    (history target calls).assemble = (history target calls).unroll := by
  have hdone : (history target calls).assembled = false := by
    rw [assembled_history hnone]
    exact decide_eq_false hfirst
  exact assemble_of_pending (failure_eq_none hnone) hdone

theorem assemble_of_asked (hnone : firstError (.new target) calls = none)
    (hlater : .assemble ∈ calls) :
    (history target calls).assemble = ⟨.ok [], history target calls, [.assembledBefore]⟩ := by
  have hdone : (history target calls).assembled = true := by
    rw [assembled_history hnone]
    exact decide_eq_true hlater
  exact assemble_of_assembled (failure_eq_none hnone) hdone

end History

/-- Calls in a row, from nothing on: the first error is remembered and answers
    every later request, and without an error the tree is unrolled once. -/
theorem failStop_history (target : Target) (calls : List Call) : FailStop target calls where
  remembers := failure_history target calls
  lasting more f hf := by
    rw [history_append, failure_foldl (healthy_history target calls) more, failure_history, hf]
    rfl
  refuses _ hf := assemble_of_firstError hf
  unrolls hnone hfirst := assemble_of_unasked hnone hfirst
  rests hnone hlater := assemble_of_asked hnone hlater
  once := countP_wordLists _ calls

end UnrollAsm
