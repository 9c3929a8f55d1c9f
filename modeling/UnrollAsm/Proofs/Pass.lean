import UnrollAsm.Session.Pass

/-!
# Running Passes

A pass is a function from a state to an outcome and a state, wrapped in two
monad transformers. Nothing below the surface of a proof should see the
wrapping: `PassM.exec` takes it off, and the equations here say what each
building block of a pass does once it is off.

Two shapes of reasoning are wanted. `Meets` says what holds after an action: of
the result, or of the state that a refusal leaves behind. It excludes faults, so
a `Meets` is also a promise that nothing breaks. `Agrees` compares an action with
a computation that has no state of this kind at all, and it excludes faults too.

## Main definitions

* `PassM.exec`: The outcome of an action and the state that it leaves.
* `PassM.Meets`: What holds after an action, whether it succeeds or refuses.
* `PassM.Agrees`: An action comes to the same as another computation.

## Theorems

* `PassM.exec_bind`: Actions in a row, the second skipped after a failure.
* `PassM.bind_error`: Actions in a row that fail.
* `PassM.Meets.bind`, `PassM.Meets.next`: Two promises in a row.
* `PassM.Meets.mono`: A promise may be weakened.
* `PassM.Agrees.bind`, `PassM.Agrees.same`: Agreement in a row.
-/

namespace UnrollAsm

namespace PassM

variable {σ α β : Type}

/-- The outcome of an action and the state that it leaves. -/
def exec (m : PassM σ α) (w : Work σ) : Except Failure α × Work σ :=
  m.run.run w

theorem start_eq_exec (m : PassM σ α) (t : ScopeTree) (s : σ) :
    m.start t s = m.exec ⟨t, #[], s⟩ := rfl

@[simp] theorem exec_pure (a : α) (w : Work σ) : (pure a : PassM σ α).exec w = (.ok a, w) := rfl

@[simp] theorem exec_throw (f : Failure) (w : Work σ) :
    (throw f : PassM σ α).exec w = (.error f, w) := rfl

@[simp] theorem exec_note (event : Event) (w : Work σ) :
    (note event : PassM σ Unit).exec w = (.ok (), { w with log := w.log.push event }) := rfl

@[simp] theorem exec_own (w : Work σ) : (own : PassM σ σ).exec w = (.ok w.own, w) := rfl

@[simp] theorem exec_setOwn (f : σ → σ) (w : Work σ) :
    (setOwn f : PassM σ Unit).exec w = (.ok (), { w with own := f w.own }) := rfl

@[simp] theorem exec_ofExcept (r : Except Failure α) (w : Work σ) :
    (ofExcept r : PassM σ α).exec w = (r, w) := by
  cases r <;> rfl

/-- Actions in a row: the second is skipped after a failure, and the state at
    the failure stays. -/
theorem exec_bind (m : PassM σ α) (f : α → PassM σ β) (w : Work σ) :
    (m >>= f).exec w = match m.exec w with
      | (.ok a, w') => (f a).exec w'
      | (.error e, w') => (.error e, w') := by
  unfold exec
  rw [ExceptT.run_bind, StateT.run_bind]
  rcases hm : m.run.run w with ⟨r, w'⟩
  cases r with
  | error e => rfl
  | ok a => rfl

@[simp] theorem exec_ask (query : ScopeTree → Except Failure α) (w : Work σ) :
    (ask query : PassM σ α).exec w = (query w.tree, w) := by
  unfold ask
  rw [exec_bind]
  exact exec_ofExcept _ _

/-- A change that fails leaves the tree as it is. -/
theorem exec_change (step : ScopeTree → Except Failure (α × ScopeTree)) (w : Work σ) :
    (change step : PassM σ α).exec w = match step w.tree with
      | .ok (a, t) => (.ok a, { w with tree := t })
      | .error e => (.error e, w) := by
  unfold change
  rw [exec_bind, exec_ask]
  cases step w.tree with
  | error e => rfl
  | ok r => rfl

/-- If actions in a row fail, the first has failed, or the second after the first. -/
theorem bind_error {m : PassM σ α} {f : α → PassM σ β} {w v : Work σ} {e : Failure}
    (h : (m >>= f).exec w = (.error e, v)) :
    m.exec w = (.error e, v) ∨ ∃ a x, m.exec w = (.ok a, x) ∧ (f a).exec x = (.error e, v) := by
  rw [exec_bind] at h
  rcases hm : m.exec w with ⟨e' | a, x⟩
  · rw [hm] at h
    cases h
    exact Or.inl rfl
  · rw [hm] at h
    exact Or.inr ⟨a, x, rfl, h⟩

-- The same where the first is a question to the tree, or a result.
theorem ask_bind_error {query : ScopeTree → Except Failure α} {f : α → PassM σ β}
    {w v : Work σ} {e : Failure} (h : (ask query >>= f).exec w = (.error e, v)) :
    query w.tree = .error e ∨ ∃ a, query w.tree = .ok a ∧ (f a).exec w = (.error e, v) := by
  rcases bind_error h with hask | ⟨a, x, hask, hrest⟩
  · rw [exec_ask] at hask
    exact Or.inl (congrArg Prod.fst hask)
  · rw [exec_ask] at hask
    rcases Prod.mk.inj hask with ⟨hquery, rfl⟩
    exact Or.inr ⟨a, hquery, hrest⟩

theorem ofExcept_bind_error {r : Except Failure α} {f : α → PassM σ β} {w v : Work σ}
    {e : Failure} (h : (ofExcept r >>= f).exec w = (.error e, v)) :
    r = .error e ∨ ∃ a, r = .ok a ∧ (f a).exec w = (.error e, v) := by
  rcases bind_error h with hr | ⟨a, x, hr, hrest⟩
  · rw [exec_ofExcept] at hr
    exact Or.inl (congrArg Prod.fst hr)
  · rw [exec_ofExcept] at hr
    rcases Prod.mk.inj hr with ⟨hresult, rfl⟩
    exact Or.inr ⟨a, hresult, hrest⟩

/-- What holds after an action: `post` of its result, or `left` of the state
    that a refusal leaves behind. A fault is neither. -/
def Meets (m : PassM σ α) (w : Work σ) (post : α → Work σ → Prop) (left : Work σ → Prop) :
    Prop :=
  match m.exec w with
  | (.ok a, w') => post a w'
  | (.error (.refused _), w') => left w'
  | (.error (.fault _), _) => False

namespace Meets

variable {m : PassM σ α} {w : Work σ} {post post' : α → Work σ → Prop}
  {left left' : Work σ → Prop}

/-- A promise may be weakened. -/
theorem mono (h : m.Meets w post left) (hpost : ∀ a v, post a v → post' a v)
    (hleft : ∀ v, left v → left' v) : m.Meets w post' left' := by
  unfold Meets at h ⊢
  generalize m.exec w = out at h ⊢
  rcases out with ⟨r, v⟩
  cases r with
  | ok a => exact hpost a v h
  | error e =>
      cases e with
      | refused d => exact hleft v h
      | fault f => exact h

/-- Two promises in a row. What a refusal leaves behind is the same for both. -/
theorem bind {f : α → PassM σ β} {post : β → Work σ → Prop}
    (h : m.Meets w (fun a v => (f a).Meets v post left) left) :
    (m >>= f).Meets w post left := by
  unfold Meets at h ⊢
  rw [exec_bind]
  generalize m.exec w = out at h ⊢
  rcases out with ⟨r, v⟩
  cases r with
  | ok a => exact h
  | error e =>
      cases e with
      | refused d => exact h
      | fault f => exact h

-- The same, for promises that differ in what a refusal leaves behind.
theorem andThen {f : α → PassM σ β} {post' : β → Work σ → Prop} (h : m.Meets w post left)
    (hf : ∀ a v, post a v → (f a).Meets v post' left') (hleft : ∀ v, left v → left' v) :
    (m >>= f).Meets w post' left' :=
  bind (h.mono hf hleft)

theorem pure {a : α} (h : post a w) : (pure a : PassM σ α).Meets w post left := h

theorem refuse {line : Nat} {cause : Cause} (h : left w) :
    (PassM.refuse line cause : PassM σ α).Meets w post left := h

/-- An action whose run is known. -/
theorem of_exec {a : α} {v : Work σ} (hm : m.exec w = (.ok a, v)) (h : post a v) :
    m.Meets w post left := by
  unfold Meets
  rw [hm]
  exact h

/-- An action whose run is known, and then another. -/
theorem next {f : α → PassM σ β} {post : β → Work σ → Prop} {a : α} {v : Work σ}
    (hm : m.exec w = (.ok a, v)) (h : (f a).Meets v post left) :
    (m >>= f).Meets w post left :=
  bind (of_exec hm h)

-- What may be refused, but has no other way to fail.
theorem orRefuse {r : Except Diagnostic α} {f : α → PassM σ β} {post : β → Work σ → Prop}
    (h : ∀ a, r = .ok a → (f a).Meets w post left) (hleft : left w) :
    ((ofExcept (orRefuse r) : PassM σ α) >>= f).Meets w post left := by
  unfold Meets
  rw [exec_bind, exec_ofExcept]
  cases r with
  | error d => exact hleft
  | ok a => exact h a rfl

-- What holds either way holds of the state that is left.
theorem state (h : m.Meets w (fun _ v => left v) left) : left (m.exec w).2 := by
  unfold Meets at h
  generalize m.exec w = out at h ⊢
  rcases out with ⟨(d | f) | a, v⟩
  · exact h
  · exact h.elim
  · exact h

end Meets

/-- An action agrees with a result that was computed in another way: both
    succeed, with related outcomes, or both are refused for the same reason. -/
def Agrees {γ : Type} (m : PassM σ α) (w : Work σ) (result : Except Diagnostic γ)
    (rel : α → Work σ → γ → Prop) : Prop :=
  match m.exec w, result with
  | (.ok a, v), .ok c => rel a v c
  | (.error (.refused d), _), .error d' => d = d'
  | _, _ => False

namespace Agrees

variable {γ δ : Type} {m : PassM σ α} {w : Work σ} {result : Except Diagnostic γ}
  {rel rel' : α → Work σ → γ → Prop}

theorem mono (h : m.Agrees w result rel) (hrel : ∀ a v c, rel a v c → rel' a v c) :
    m.Agrees w result rel' := by
  unfold Agrees at h ⊢
  split at h
  · exact hrel _ _ _ h
  · exact h
  · exact h

/-- Agreement in a row. -/
theorem bind {f : α → PassM σ β} {g : γ → Except Diagnostic δ} {rel' : β → Work σ → δ → Prop}
    (h : m.Agrees w result rel) (hf : ∀ a v c, rel a v c → (f a).Agrees v (g c) rel') :
    (m >>= f).Agrees w (result >>= g) rel' := by
  unfold Agrees at h
  split at h
  · rename_i a v c hm
    have hnext := hf a v c h
    unfold Agrees at hnext ⊢
    rw [exec_bind, hm]
    exact hnext
  · rename_i d v d' hm
    unfold Agrees
    rw [exec_bind, hm]
    exact h
  · exact h.elim

theorem pure {a : α} {c : γ} (h : rel a w c) :
    (Pure.pure a : PassM σ α).Agrees w (.ok c) rel := h

theorem throw {d : Diagnostic} :
    (MonadExcept.throw (Failure.refused d) : PassM σ α).Agrees w (.error d) rel := by
  unfold Agrees
  rfl

/-- An action whose run is known, on one side only. -/
theorem next {f : α → PassM σ β} {result : Except Diagnostic δ}
    {rel' : β → Work σ → δ → Prop} {a : α} {v : Work σ} (hm : m.exec w = (.ok a, v))
    (h : (f a).Agrees v result rel') : (m >>= f).Agrees w result rel' := by
  unfold Agrees at h ⊢
  rw [exec_bind, hm]
  exact h

-- The action goes on when the other computation has come to its end.
theorem andThen {f : α → PassM σ β} {rel' : β → Work σ → γ → Prop} (h : m.Agrees w result rel)
    (hf : ∀ a v c, rel a v c → (f a).Agrees v (.ok c) rel') :
    (m >>= f).Agrees w result rel' := by
  have hbind := h.bind (g := Except.ok) hf
  cases result with
  | error d => exact hbind
  | ok c => exact hbind

-- The other computation rearranges its result at the end.
theorem map_right {g : γ → δ} {rel' : α → Work σ → δ → Prop} (h : m.Agrees w result rel)
    (hg : ∀ a v c, rel a v c → rel' a v (g c)) :
    m.Agrees w (result >>= fun c => .ok (g c)) rel' := by
  unfold Agrees at h
  split at h
  · rename_i hm
    unfold Agrees
    rw [hm]
    exact hg _ _ _ h
  · rename_i hm
    unfold Agrees
    rw [hm]
    exact h
  · exact h.elim

theorem congr {m' : PassM σ α} (hm : m.exec w = m'.exec w) (h : m'.Agrees w result rel) :
    m.Agrees w result rel := by
  unfold Agrees
  rw [hm]
  exact h

theorem refused {f : α → PassM σ β} {d : Diagnostic} {rel' : β → Work σ → δ → Prop} {v : Work σ}
    (hm : m.exec w = (.error (.refused d), v)) : (m >>= f).Agrees w (.error d) rel' := by
  unfold Agrees
  rw [exec_bind, hm]

theorem of_exec {a : α} {v : Work σ} {c : γ} (hm : m.exec w = (.ok a, v)) (h : rel a v c) :
    m.Agrees w (.ok c) rel := by
  unfold Agrees
  rw [hm]
  exact h

-- The same question on both sides.
theorem same {f : α → PassM σ β} {g : α → Except Diagnostic δ} {rel' : β → Work σ → δ → Prop}
    {r : Except Diagnostic α} (hm : m.exec w = (orRefuse r, w))
    (h : ∀ a, r = .ok a → (f a).Agrees w (g a) rel') : (m >>= f).Agrees w (r >>= g) rel' := by
  unfold Agrees
  rw [exec_bind, hm]
  cases r with
  | error d => rfl
  | ok a => exact h a rfl

end Agrees

end PassM

end UnrollAsm
