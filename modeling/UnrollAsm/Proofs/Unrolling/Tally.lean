import UnrollAsm.Proofs.Reading.Instructions
import UnrollAsm.Proofs.Unrolling.Trace

/-!
# What a Trace Leaves Behind

A trace tells which instructions have been carried out, and each of them has left
something behind: a word in the output, an event in the log, a value in a
variable. If no two instructions come from one line, what one of them has left
behind can be told from the rest, so it is there as often as the address of the
instruction is in the trace. The books that loops keep do not get in the way.

A variable that nothing but one addition of a constant writes to has gained the
constant as often. Since values wrap, so does the sum.

## Main definitions

* `Action.written?`: The variable that an action writes to.
* `Instruction.isToldBy`: An event tells that an instruction was carried out.
* `resetsOf`: The values that a variable has been reset to.

## Theorems

* `Trace.tally`: What every instruction leaves behind once can be counted.
* `Trace.countP_words`, `Trace.countP_log`: The words and the events of an
  instruction.
* `Trace.exists_append`, `Trace.exists_cons`: A trace can be cut.
* `Trace.value_add`: The variable that an addition writes to.
-/

namespace UnrollAsm

/-- The address that an action writes to. -/
def Action.written? : Action → Option Address
  | .fold _ first _ => some first
  | .reset _ target => some target
  | .emit _ | .cleared => none

/-- The event tells that the instruction has been carried out. -/
def Instruction.isToldBy (i : Instruction) (e : Event) : Bool :=
  match i.action, e with
  | .emit command, .wordEmitted word =>
    word.source = i.source ∧ word.cls = command.instructionClass ∧
      word.machineId = command.machineId
  | .fold op first _, .folded line op' first' _ =>
    line = i.source.number ∧ op' = op ∧ first' = first
  | .reset _ target, .variableReset line target' _ =>
    line = i.source.number ∧ target' = target
  | _, _ => false

/-- The line of the instruction that the event tells of. -/
def Event.line? : Event → Option Nat
  | .wordEmitted word => some word.source.number
  | .folded line .. | .variableReset line .. => some line
  | _ => none

/-- The value that the event resets the variable `x` to. -/
def Event.resetOf? (x : Address) : Event → Option Int32
  | .variableReset _ target value => if target = x then some value else none
  | _ => none

/-- The values that the variable `x` has been reset to, in order. -/
def resetsOf (x : Address) (log : List Event) : List Int32 :=
  log.filterMap (Event.resetOf? x)

/-- A constant is the same in all states of a program. -/
theorem ScopeTree.item?_of_constant {t u : ScopeTree} (hu : u.skeleton = t.skeleton) {a : Address}
    {c : Symbol} (hc : t.item? a = some (.symbol c)) (hconst : c.isVar = false) :
    u.item? a = some (.symbol c) := by
  rcases ScopeTree.exists_item hu hc with ⟨item, hitem, hskel⟩
  rcases Item.skeleton_eq_symbol hskel with ⟨d, rfl, hd⟩
  rw [hitem, Symbol.eq_of_skeleton_eq hconst hd]

/-! ## Instructions -/

section Perform

variable {target : Target} {i : Instruction} {v w : Work (Array EmittedWord)} {x : Address}

theorem resetsOf_push (x : Address) (log : Array Event) (e : Event) :
    resetsOf x (log.push e).toList = resetsOf x log.toList ++ (Event.resetOf? x e).toList := by
  unfold resetsOf
  rw [Array.toList_push, List.filterMap_append]
  cases he : Event.resetOf? x e with
  | none => rw [List.filterMap_cons_none he, List.filterMap_nil, Option.toList_none]
  | some value => rw [List.filterMap_cons_some he, List.filterMap_nil, Option.toList_some]

-- What tells of an instruction tells its line.
theorem Instruction.line_of_isToldBy {e : Event} (h : i.isToldBy e) :
    e.line? = some i.source.number := by
  unfold isToldBy at h
  split at h
  · exact congrArg (fun source : SourceLine => some source.number) (of_decide_eq_true h).1
  · exact congrArg some (of_decide_eq_true h).1
  · exact congrArg some (of_decide_eq_true h).1
  · cases h

/-- An instruction is told of by one event. -/
theorem Unrolling.perform_told (h : (perform target i).exec w = (.ok (), v)) :
    ∃ e, v.log = w.log.push e ∧ i.isToldBy e := by
  rcases i with ⟨s, source, action⟩
  rcases perform_cases h with ⟨command, word, rfl, rfl⟩ | ⟨op, a, b, c, d, rfl, -, -, rfl⟩ |
    ⟨a, b, c, d, rfl, -, -, rfl⟩
  · exact ⟨_, rfl, decide_eq_true ⟨rfl, rfl, rfl⟩⟩
  · exact ⟨_, rfl, decide_eq_true ⟨rfl, rfl, rfl⟩⟩
  · exact ⟨_, rfl, decide_eq_true ⟨rfl, rfl⟩⟩

-- What an instruction does not write to stays as it is.
theorem Unrolling.perform_other (h : (perform target i).exec w = (.ok (), v))
    (hx : i.action.written? ≠ some x) :
    v.tree.item? x = w.tree.item? x ∧
      resetsOf x v.log.toList = resetsOf x w.log.toList := by
  rcases i with ⟨s, source, action⟩
  rcases perform_cases h with ⟨command, word, rfl, rfl⟩ | ⟨op, a, b, c, d, rfl, -, -, rfl⟩ |
    ⟨a, b, c, d, rfl, -, -, rfl⟩
  · rw [resetsOf_push]
    exact ⟨rfl, List.append_nil _⟩
  · rw [resetsOf_push]
    exact ⟨ScopeTree.item?_setItem_of_ne fun heq => hx (congrArg some heq), List.append_nil _⟩
  · have hne : b ≠ x := fun heq => hx (congrArg some heq)
    rw [resetsOf_push, Event.resetOf?, if_neg hne]
    exact ⟨ScopeTree.item?_setItem_of_ne hne, List.append_nil _⟩

theorem Unrolling.perform_fold_add (h : (perform target i).exec w = (.ok (), v)) {b : Address}
    (hi : i.action = .fold .add x b) {c d : Symbol} (hc : w.tree.item? x = some (.symbol c))
    (hd : w.tree.item? b = some (.symbol d)) :
    v.tree.item? x = some (.symbol { c with value := c.value + d.value }) ∧
      resetsOf x v.log.toList = resetsOf x w.log.toList := by
  rcases i with ⟨s, source, action⟩
  cases hi
  rcases perform_cases h with ⟨_, _, ⟨⟩, -⟩ | ⟨_, _, _, c', d', ⟨⟩, hc', hd', rfl⟩ |
    ⟨_, _, _, _, ⟨⟩, -⟩
  rw [hc] at hc'
  cases hc'
  rw [hd] at hd'
  cases hd'
  rw [resetsOf_push]
  exact ⟨ScopeTree.item?_setItem_self hc, List.append_nil _⟩

theorem Unrolling.perform_reset_ok (h : (perform target i).exec w = (.ok (), v)) {a : Address}
    (hi : i.action = .reset a x) :
    ∃ c d : Symbol, w.tree.item? a = some (.symbol d) ∧
      v.tree.item? x = some (.symbol { c with value := d.value }) ∧
      resetsOf x v.log.toList = resetsOf x w.log.toList ++ [d.value] := by
  rcases i with ⟨s, source, action⟩
  cases hi
  rcases perform_cases h with ⟨_, _, ⟨⟩, -⟩ | ⟨_, _, _, _, _, ⟨⟩, -⟩ |
    ⟨_, _, c, d, ⟨⟩, hd, hc, rfl⟩
  refine ⟨c, d, hd, ScopeTree.item?_setItem_self hc, ?_⟩
  rw [resetsOf_push, Event.resetOf?, if_pos rfl]
  rfl

end Perform

/-! ## Traces -/

-- One more addition.
theorem ofInt_add_mul_succ (x c : Int32) (n : Nat) :
    Int32.ofInt (x.toInt + c.toInt * (n + 1 : Nat)) =
      Int32.ofInt (x.toInt + c.toInt * n) + c := by
  rw [Int.natCast_add, Int.natCast_one, Int.mul_add, Int.mul_one, ← Int.add_assoc,
    Int32.ofInt_add, Int32.ofInt_toInt]

namespace Trace

variable {t : ScopeTree} {target : Target} {u v w : Work (Array EmittedWord)}
  {l l' : List Address} {m : Address}

/-- If an instruction leaves one of something behind and no other does, there are
    as many as its address has occurrences. -/
theorem tally (h : Trace t target w l v) (f : Work (Array EmittedWord) → Nat)
    (hperform : ∀ n i y y', t.item? n = some (.instruction i) →
      (Unrolling.perform target i).exec y = (.ok (), y') → f y' = f y + if n = m then 1 else 0)
    (hnote : ∀ y e, e.isRepetition → f { y with log := y.log.push e } = f y)
    (hheader : ∀ y c hd, f { y with tree := y.tree.setHeader c hd } = f y) :
    f v = f w + l.count m := by
  induction h with
  | start => rfl
  | @perform l _ _ n _ _ _ hn hexec ih =>
      have hcount : [n].count m = if n = m then 1 else 0 := by
        rw [List.count_singleton]
        simp only [beq_iff_eq]
      rw [hperform _ _ _ _ hn hexec, ih, List.count_append, hcount, Nat.add_assoc]
  | note _ he ih =>
      rw [hnote _ _ he]
      exact ih
  | header c hd _ ih =>
      rw [hheader]
      exact ih

section Distinct

variable (hdistinct : Distinct t) {i : Instruction} (hm : t.item? m = some (.instruction i))

include hdistinct hm

/-- The words that come from a command. -/
theorem countP_words (h : Trace t target w l v) {command : Command}
    (hi : i.action = .emit command) :
    v.own.countP (fun word => word.source = i.source) =
      w.own.countP (fun word => word.source = i.source) + l.count m := by
  refine h.tally (fun y => y.own.countP fun word => word.source = i.source)
    (fun n j y y' hn hexec => ?_) (fun _ _ _ => rfl) fun _ _ _ => rfl
  rcases Unrolling.perform_cases hexec with ⟨_, word, -, rfl⟩ | ⟨_, _, _, _, _, hj, -, -, rfl⟩ |
    ⟨_, _, _, _, hj, -, -, rfl⟩
  · -- The word has the line of the instruction, and another has another line.
    have hsource : j.source = i.source ↔ n = m := by
      constructor
      · intro heq
        exact hdistinct n m j i hn hm (congrArg SourceLine.number heq)
      · rintro rfl
        rw [hm] at hn
        cases hn
        rfl
    simp only [Array.countP_push, decide_eq_true_eq, hsource]
  all_goals
    have hne : n ≠ m := by
      rintro rfl
      rw [hm] at hn
      cases hn
      rw [hi] at hj
      cases hj
    rw [if_neg hne, Nat.add_zero]

/-- The events that tell of an instruction. -/
theorem countP_log (h : Trace t target w l v) :
    v.log.countP i.isToldBy = w.log.countP i.isToldBy + l.count m := by
  refine h.tally (fun y => y.log.countP i.isToldBy) (fun n j y y' hn hexec => ?_)
    (fun y e he => ?_) fun _ _ _ => rfl
  · rcases Unrolling.perform_told hexec with ⟨e, he, htold⟩
    have hsource : i.isToldBy e ↔ n = m := by
      constructor
      · intro hi
        have hline := (Instruction.line_of_isToldBy htold).symm.trans
          (Instruction.line_of_isToldBy hi)
        exact hdistinct n m j i hn hm (Option.some.inj hline)
      · rintro rfl
        rw [hm] at hn
        cases hn
        exact htold
    simp only [he, Array.countP_push, hsource]
  · have hother : i.isToldBy e = false := by
      unfold Instruction.isToldBy
      split
      · cases he
      · cases he
      · cases he
      · rfl
    simp only [Array.countP_push, hother, Bool.false_eq_true, if_false, Nat.add_zero]

end Distinct

/-- A trace can be cut anywhere. -/
theorem exists_append (h : Trace t target u (l ++ l') w) :
    ∃ v, Trace t target u l v ∧ Trace t target v l' w := by
  generalize heq : l ++ l' = whole at h
  induction h generalizing l' with
  | start =>
      rcases List.append_eq_nil_iff.1 heq with ⟨rfl, rfl⟩
      exact ⟨u, .start, .start⟩
  | @perform init v v' n i htrace hskel hn hexec ih =>
      rcases List.eq_nil_or_concat l' with rfl | ⟨front, last, rfl⟩
      · rw [List.append_nil] at heq
        exact ⟨v', heq ▸ htrace.perform hskel hn hexec, .start⟩
      · rw [List.concat_eq_append, ← List.append_assoc] at heq
        rcases List.append_inj' heq rfl with ⟨hfront, hlast⟩
        cases hlast
        rcases ih hfront with ⟨x, hx, hrest⟩
        rw [List.concat_eq_append]
        exact ⟨x, hx, hrest.perform hskel hn hexec⟩
  | note _ he ih =>
      rcases ih heq with ⟨x, hx, hrest⟩
      exact ⟨x, hx, hrest.note he⟩
  | header c hd _ ih =>
      rcases ih heq with ⟨x, hx, hrest⟩
      exact ⟨x, hx, hrest.header c hd⟩

/-- The first instruction of a trace, with nothing but books kept before it. -/
theorem exists_cons (h : Trace t target u (m :: l) w) :
    ∃ i v v', Trace t target u [] v ∧ v.tree.skeleton = t.skeleton ∧
      t.item? m = some (.instruction i) ∧
      (Unrolling.perform target i).exec v = (.ok (), v') ∧ Trace t target v' l w := by
  generalize heq : m :: l = whole at h
  induction h generalizing l with
  | start => cases heq
  | @perform init v v' n i htrace hskel hn hexec ih =>
      rcases init with _ | ⟨first, rest⟩
      · cases heq
        exact ⟨i, v, v', htrace, hskel, hn, hexec, .start⟩
      · cases heq
        rcases ih rfl with ⟨j, x, x', hx, hskel', hj, hexec', hrest⟩
        exact ⟨j, x, x', hx, hskel', hj, hexec', hrest.perform hskel hn hexec⟩
  | note _ he ih =>
      rcases ih heq with ⟨i, v, v', hv, hskel, hi, hexec, hrest⟩
      exact ⟨i, v, v', hv, hskel, hi, hexec, hrest.note he⟩
  | header c hd _ ih =>
      rcases ih heq with ⟨i, v, v', hv, hskel, hi, hexec, hrest⟩
      exact ⟨i, v, v', hv, hskel, hi, hexec, hrest.header c hd⟩

/-- If an addition of a constant is all that writes to a variable, the variable
    has gained the constant as often as the addition was carried out. It has not
    been reset. -/
theorem value_add (h : Trace t target w l v) {x b : Address} {i : Instruction} {c d : Symbol}
    (hm : t.item? m = some (.instruction i)) (hi : i.action = .fold .add x b)
    (hd : t.item? b = some (.symbol d)) (hconst : d.isVar = false)
    (hwriters : ∀ n ∈ l, ∀ j, t.item? n = some (.instruction j) →
      j.action.written? = some x → n = m)
    (hc : w.tree.item? x = some (.symbol c)) :
    v.tree.item? x = some (.symbol { c with
        value := Int32.ofInt (c.value.toInt + d.value.toInt * l.count m) }) ∧
      resetsOf x v.log.toList = resetsOf x w.log.toList := by
  induction h with
  | start =>
      rw [List.count_nil, Int.natCast_zero, Int.mul_zero, Int.add_zero, Int32.ofInt_toInt]
      exact ⟨hc, rfl⟩
  | @perform l y y' n j _ hskel hn hexec ih =>
      rcases ih fun n hn => hwriters n (List.mem_append_left _ hn) with ⟨hvalue, hresets⟩
      by_cases hwrite : j.action.written? = some x
      · obtain rfl := hwriters n (List.mem_append_right _ (List.mem_singleton_self n)) j hn hwrite
        rw [hm] at hn
        cases hn
        have hd' := ScopeTree.item?_of_constant hskel hd hconst
        rcases Unrolling.perform_fold_add hexec hi hvalue hd' with ⟨hvalue', hresets'⟩
        rw [List.count_append, List.count_singleton_self, ofInt_add_mul_succ]
        exact ⟨hvalue', hresets'.trans hresets⟩
      · have hne : n ≠ m := by
          rintro rfl
          rw [hm] at hn
          cases hn
          exact hwrite (congrArg Action.written? hi)
        have hcount : [n].count m = 0 := List.count_eq_zero.2 fun hmem =>
          hne (List.mem_singleton.1 hmem).symm
        rcases Unrolling.perform_other hexec hwrite with ⟨hvalue', hresets'⟩
        rw [List.count_append, hcount, Nat.add_zero]
        exact ⟨hvalue'.trans hvalue, hresets'.trans hresets⟩
  | @note _ _ e _ he ih =>
      rcases ih hwriters with ⟨hvalue, hresets⟩
      have hnone : Event.resetOf? x e = none := by
        cases e <;> first | rfl | cases he
      refine ⟨hvalue, ?_⟩
      rw [resetsOf_push, hnone, Option.toList_none, List.append_nil]
      exact hresets
  | header s hd _ ih =>
      rcases ih hwriters with ⟨hvalue, hresets⟩
      exact ⟨(ScopeTree.item?_setHeader _ s hd x).trans hvalue, hresets⟩

end Trace

end UnrollAsm
