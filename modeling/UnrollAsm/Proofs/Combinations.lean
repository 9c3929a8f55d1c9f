import Mathlib.Data.List.Nodup
import UnrollAsm.Proofs.Session.Ready
import UnrollAsm.Proofs.Unrolling.Repetitions
import UnrollAsm.Proofs.Unrolling.Tally

/-!
# Once per Combination of Trips

If all operands of loops are constants, the number of times that an instruction
is carried out is known before anything is unrolled. It is the product of the
trips of the loops around the instruction. So a command accounts for that many
words, arithmetic and resets are told of in that many events, and a sum that is
built up by one addition can be given without a loop.

No loop of such a program is refused. Its bounds were in order when it was read,
and it finds the same bounds whenever it starts, and after every trip.

## Main definitions

* `ConstantLoops`: All operands of loops are constants.
* `Accumulates`: A variable of the root that one addition writes to.
* `OncePerCombination`: What is known of a session whose loops are constant.

## Theorems

* `ConstantLoops.steady`: A loop always finds the same bounds.
* `Origin.not_isOfLoop`: None of the loops is refused.
* `ConstantLoops.count`: How often an instruction is carried out.
* `Accumulates.value`: What the variable is in the end.
* `assemble_once_per_combination`: Instructions are carried out once for every
  combination of trips.
-/

namespace UnrollAsm

open PassM

/-- All operands of loops are literals or constants. -/
def ConstantLoops (t : ScopeTree) : Prop :=
  ∀ (c : Nat) h, t.headerAt c = some h → ∀ a ∈ h.operands,
    ∃ x, t.item? a = some (.symbol x) ∧ x.isVar = false

/-- The address that an item writes to when it is carried out. -/
def Item.written? : Item → Option Address
  | .instruction i => i.action.written?
  | .symbol _ | .loop _ => none

/-- The variable `x` of the root is declared once, with the value of `source`.
    Nothing else writes to it but the instruction at `m`, which adds the constant
    `d`. -/
structure Accumulates (t : ScopeTree) (x source m : Address) (d : Symbol) : Prop where
  root : x.scope = 0
  var : ∃ c, t.item? x = some (.symbol c) ∧ c.isVar = true
  added : ∃ i b, t.item? m = some (.instruction i) ∧ i.action = .fold .add x b ∧
    t.item? b = some (.symbol d)
  constant : d.isVar = false
  declared : ∃ first i, t.item? first = some (.instruction i) ∧ i.action = .reset source x ∧
    ∀ n item, t.item? n = some item → item.written? = some x → n = first ∨ n = m

/-- What is known of a session that has read a program with constant loops. -/
structure OncePerCombination (a : Assembler) : Prop where
  /-- If assembling fails, it is not because of a loop. -/
  loops : ∀ f, a.assemble.answer = .error f → f.isOfLoop = false
  /-- A command accounts for as many words as the loops around it have
      combinations of trips. -/
  words : ∀ words, a.assemble.answer = .ok words → ∀ m i command,
    a.tree.item? m = some (.instruction i) → i.action = .emit command →
    words.countP (fun word => word.source = i.source) = a.tree.repetitions m.scope
  /-- Every instruction is carried out so many times. -/
  events : ∀ words, a.assemble.answer = .ok words → ∀ m i,
    a.tree.item? m = some (.instruction i) →
    a.assemble.log.countP i.isToldBy = a.tree.repetitions m.scope
  /-- A variable that one addition writes to has its initial value in the end, and
      the constant so many times. -/
  sums : ∀ words, a.assemble.answer = .ok words → ∀ x source m d,
    Accumulates a.tree x source m d → ∃ initial c,
      resetsOf x a.assemble.log = [initial] ∧
      (∀ d', a.tree.item? source = some (.symbol d') → d'.isVar = false → initial = d'.value) ∧
      a.assemble.after.tree.item? x = some (.symbol c) ∧
      c.value = Int32.ofInt (initial.toInt + d.value.toInt * a.tree.repetitions m.scope)

/-! ## Deciding what a tree is like -/

section Decide

variable {t : ScopeTree}

theorem mem_symbol_iff {a : Address} {x : Symbol} :
    x ∈ (t.item? a).bind Item.symbol? ↔ t.item? a = some (.symbol x) := by
  rcases t.item? a with _ | (c | i | s)
  · simp
  · simp [Item.symbol?]
  · simp [Item.symbol?]
  · simp [Item.symbol?]

-- Only scopes of the tree have headers, so they can be gone through.
instance ConstantLoops.decidable : DecidablePred ConstantLoops := fun t =>
  decidable_of_iff (∀ c < t.size, ∀ h ∈ t.headerAt c, ∀ a ∈ h.operands,
      ∃ x ∈ (t.item? a).bind Item.symbol?, x.isVar = false) <| by
    constructor
    · intro hall c h hh a ha
      rcases hall c (ScopeTree.lt_size_of_headerAt hh) h hh a ha with ⟨x, hx, hconst⟩
      exact ⟨x, mem_symbol_iff.1 hx, hconst⟩
    · intro hloops c _ h hh a ha
      rcases hloops c h hh a ha with ⟨x, hx, hconst⟩
      exact ⟨x, mem_symbol_iff.2 hx, hconst⟩

-- The same for items.
theorem ScopeTree.forall_item {P : Address → Item → Prop}
    (h : ∀ s < t.size, ∀ entry ∈ (t.itemsAt s).zipIdx, P ⟨s, entry.2⟩ entry.1) {n : Address}
    {item : Item} (hn : t.item? n = some item) : P n item := by
  rw [ScopeTree.item?_eq] at hn
  exact h n.scope (ScopeTree.lt_size_of_mem (List.mem_of_getElem? hn)) (item, n.index)
    (List.mem_zipIdx_iff_getElem?.2 hn)

end Decide

/-! ## Loops between constants -/

section ConstantLoops

variable {t : ScopeTree} {target : Target}

/-- A loop between constants always finds the bounds that it was read with. -/
theorem ConstantLoops.steady (h : ConstantLoops t) (hchecked : Checked t) {c : Nat}
    {header : LoopHeader} (hheader : t.headerAt c = some header) :
    Steady t header header.bounds := by
  intro u hu
  have hsame : ∀ a ∈ header.operands, u.item? a = t.item? a := by
    intro a ha
    rcases h c header hheader a ha with ⟨x, hx, hconst⟩
    rw [ScopeTree.item?_of_constant hu hx hconst, hx]
  rw [boundsOf_congr rfl hsame]
  exact (hchecked c header hheader).1

theorem Checked.tripsAt (h : Checked t) {c : Nat} {header : LoopHeader}
    (hheader : t.headerAt c = some header) :
    header.bounds.tripCount? = some (t.tripsAt c) := by
  rcases h c header hheader with ⟨hbounds, hcheck⟩
  rcases Unrolling.expectedTrips_of_check hcheck with ⟨trips, htrips⟩
  have hcount := Unrolling.tripCount?_of_expectedTrips htrips
  have hat : t.boundsAt c = .ok (some header.bounds) := by
    rw [ScopeTree.boundsAt_of_headerAt hheader, hbounds]
    rfl
  unfold ScopeTree.tripsAt
  rw [hat]
  simp only [hcount, Option.getD_some]

/-- Every instruction is carried out once for every combination of trips of the
    loops around it. -/
theorem ConstantLoops.count (h : ConstantLoops t) (hchecked : Checked t) (ht : WellFormed t)
    (hrooted : Rooted t) {depth : Nat} {l : List Address} (hl : Unrolls t depth 0 l)
    {m : Address} {i : Instruction} (hm : t.item? m = some (.instruction i)) :
    l.count m = t.repetitions m.scope := by
  have hcount := hl.count ht hrooted (fun c header hheader =>
    ⟨_, h.steady hchecked hheader, hchecked.tripsAt hheader⟩) hm (ht.contains_item hm)
  rwa [hrooted.repetitions_root, Nat.one_mul] at hcount

end ConstantLoops

/-! ## Failures that are not those of loops -/

section Origin

variable {t : ScopeTree} {target : Target}

/-- If all loops are constant, a failure does not come from one of them. -/
theorem Origin.not_isOfLoop {f : Failure} (h : Origin t target f) (hloops : ConstantLoops t)
    (hchecked : Checked t) : f.isOfLoop = false := by
  cases h with
  | fault _ => rfl
  | instruction _ _ hexec => exact (Unrolling.perform_errors hexec).notLoop
  | @entry c h₀ h b d hheader hb hbegin =>
      -- The bounds are those that were in order when the loop was read.
      obtain rfl := (hloops.steady hchecked hheader).eq hb
      unfold LoopHeader.begin at hbegin
      rw [(hchecked c h₀ hheader).2] at hbegin
      cases hbegin
  | @update c h₀ h b b' d hheader hb hstep hzero hb' hadv =>
      have hsteady := hloops.steady hchecked hheader
      obtain rfl := hsteady.eq hb
      obtain rfl := hsteady.eq hb'
      rcases h.advance_cases h₀.bounds with ⟨hzero', -⟩ | ⟨-, hsign, -⟩ | ⟨-, -, next, hok, -⟩
      · exact absurd hzero' hzero
      · rw [hstep] at hsign
        exact absurd rfl hsign
      · rw [hok] at hadv
        cases hadv

end Origin

/-! ## Sums -/

section Sums

variable {t : ScopeTree}

-- What stands in front of an address is in front of the item that leads to it.
theorem Precedes.exists_at (hrooted : Rooted t) {x m : Address} (h : Precedes t x m) :
    ∃ j, x.index < j ∧ At t ⟨x.scope, j⟩ m := by
  induction h with
  | @here index hlt => exact ⟨index, hlt, Or.inl rfl⟩
  | @outer n s index hn _ ih =>
      rcases ih with ⟨j, hlt, rfl | ⟨c, hc, hin⟩⟩
      · exact ⟨j, hlt, Or.inr ⟨s, hn, .refl⟩⟩
      · exact ⟨j, hlt, Or.inr ⟨c, hc, hin.tail (hrooted.parentAt_of_marker hn)⟩⟩

/-- The list of what is carried out: the declaration of the variable comes once,
    and the addition only after it. -/
theorem Accumulates.split {x source m : Address} {d : Symbol} (h : Accumulates t x source m d)
    (ht : WellFormed t) (hrooted : Rooted t) (hsettled : Settled t) {depth : Nat}
    {l : List Address} (hl : Unrolls t depth 0 l) :
    ∃ first i front back, l = front ++ first :: back ∧ t.item? first = some (.instruction i) ∧
      i.action = .reset source x ∧ m ∉ front ∧ m ≠ first ∧
      (∀ n ∈ front ++ back, ∀ j, t.item? n = some (.instruction j) →
        j.action.written? = some x → n = m) := by
  rcases x with ⟨r, k⟩
  obtain rfl : r = 0 := h.root
  rcases h.var with ⟨c, hc, hvar⟩
  rcases h.added with ⟨add, b, hm, hadd, -⟩
  rcases h.declared with ⟨first, i, hfirst, hi, hwriters⟩
  have hne : m ≠ first := by
    rintro rfl
    rw [hm] at hfirst
    cases hfirst
    rw [hadd] at hi
    cases hi
  -- The declaration stands right behind the variable.
  obtain rfl : first = ⟨0, k + 1⟩ := by
    rcases hsettled ⟨0, k⟩ c hc hvar with ⟨j, a, hj, haction⟩
    rcases hwriters _ _ hj (congrArg Action.written? haction) with hsame | hsame
    · exact hsame.symm
    · rw [← hsame, hj] at hm
      cases hm
      rw [haction] at hadd
      cases hadd
  cases depth with
  | zero => exact hl.elim
  | succ depth =>
      rcases hl.split hrooted hfirst with ⟨front, part, back, rfl, hpart, hfront, hback⟩
      obtain rfl : part = [⟨0, k + 1⟩] := hpart
      have hfar : ∀ n ∈ front ++ back, n ≠ ⟨0, k + 1⟩ := by
        rintro n hn rfl
        rcases List.mem_append.1 hn with hn | hn
        · rcases hfront _ hn with ⟨j, hj, hat⟩
          exact absurd (hat.unique ht hrooted (Or.inl rfl)) (Nat.ne_of_lt hj)
        · rcases hback _ hn with ⟨j, hj, hat⟩
          exact absurd (hat.unique ht hrooted (Or.inl rfl)) (Nat.ne_of_gt hj)
      refine ⟨⟨0, k + 1⟩, i, front, back, rfl, hfirst, hi, fun hmem => ?_, hne,
        fun n hn j hj hwrite => (hwriters n _ hj hwrite).resolve_left (hfar n hn)⟩
      -- The addition has the variable as an operand, so it stands behind it.
      have hoperand := ht.operands m add hm ⟨0, k⟩ (by rw [hadd]; simp [Action.operands])
      rcases hoperand.precedes.exists_at hrooted with ⟨j, hlt, hat⟩
      rcases hfront m hmem with ⟨j', hlt', hat'⟩
      have hsame := hat'.unique ht hrooted hat
      dsimp only at hlt
      omega

/-- The variable has been declared with some value, and ends at this value and
    the constant as often as the addition was carried out. -/
theorem Accumulates.value {x source m : Address} {d : Symbol} (h : Accumulates t x source m d)
    (ht : WellFormed t) (hrooted : Rooted t) (hsettled : Settled t) {depth : Nat}
    {l : List Address} (hl : Unrolls t depth 0 l) {target : Target}
    {w : Work (Array EmittedWord)} (htrace : Trace t target ⟨t, #[], #[]⟩ l w) :
    ∃ initial c, resetsOf x w.log.toList = [initial] ∧
      (∀ d', t.item? source = some (.symbol d') → d'.isVar = false → initial = d'.value) ∧
      w.tree.item? x = some (.symbol c) ∧
      c.value = Int32.ofInt (initial.toInt + d.value.toInt * l.count m) := by
  rcases h.split ht hrooted hsettled hl with
    ⟨first, i, front, back, rfl, hfirst, hi, hbefore, hne, hwriters⟩
  rcases h.var with ⟨c, hc, -⟩
  rcases h.added with ⟨add, b, hm, hadd, hd⟩
  rcases htrace.exists_append with ⟨y, hfront, hrest⟩
  rcases hrest.exists_cons with ⟨i', v, v', hquiet, hskel, hi', hexec, hback⟩
  rw [hfirst] at hi'
  cases hi'
  -- Up to the declaration, nothing has been written to the variable.
  rcases hfront.value_add hm hadd hd h.constant
    (fun n hn => hwriters n (List.mem_append_left _ hn)) hc with ⟨hy, hyresets⟩
  rcases hquiet.value_add hm hadd hd h.constant (fun n hn => (by cases hn)) hy with
    ⟨-, hvresets⟩
  rcases Unrolling.perform_reset_ok hexec hi with ⟨c', d', hd', hv', hresets⟩
  rcases hback.value_add hm hadd hd h.constant
    (fun n hn => hwriters n (List.mem_append_right _ hn)) hv' with ⟨hw, hwresets⟩
  refine ⟨d'.value, _, ?_, fun e he hconst => ?_, hw, ?_⟩
  · rw [hwresets, hresets, hvresets, hyresets]
    rfl
  · rw [ScopeTree.item?_of_constant hskel he hconst] at hd'
    cases hd'
    rfl
  · rw [List.count_append, List.count_eq_zero.2 hbefore, List.count_cons_of_ne hne.symm,
      Nat.zero_add]

end Sums

/-! ## Sessions -/

-- No two lines of a text have the same number.
theorem nodup_numbered (text : String) : ((Text.numbered text).map Prod.fst).Nodup := by
  have hnumbers : (Text.numbered text).map Prod.fst =
      ((Text.lines text).zipIdx.map Prod.snd).map Nat.succ := by
    unfold Text.numbered
    rw [List.map_map, List.map_map]
    rfl
  rw [hnumbers, List.zipIdx_map_snd]
  exact List.Nodup.map Nat.succ_injective List.nodup_range'

/-- Lines with different numbers have different instructions. -/
theorem distinct_parse {target : Target} {lines : List (Nat × String)} {n : Nat}
    (hnodup : (lines.map Prod.fst).Nodup)
    (hparse : ((Assembler.new target).parse lines).answer = .ok n) :
    Distinct ((Assembler.new target).parse lines).after.tree := by
  have hrooted := (Healthy.new target).rooted
  rcases Assembler.parse_cases lines hrooted with
    ⟨_, t, s, -, hafter, hgrows, -, -⟩ | ⟨d, t, hanswer, -, -⟩
  · rw [hafter]
    refine hgrows.distinct ⟨hrooted, hrooted.nonempty⟩ .empty hnodup ?_
    intro m i hm
    rw [show (Assembler.new target).tree = .empty from rfl, item?_empty] at hm
    cases hm
  · rw [hanswer] at hparse
    cases hparse

section Closing

variable {target : Target} {a : Assembler} {w : Work (Array EmittedWord)}

-- What a session says at the end is not about an instruction.
theorem Ready.after_run (h : Ready target a) (hrun : Unrolling.run target a.tree = (.ok (), w)) :
    a.assemble.after.tree = w.tree.clear ∧
      ∃ closing, a.assemble.log = w.log.toList ++ closing ∧ ∀ e ∈ closing, e.line? = none := by
  rw [assemble_of_pending h.failure h.assembled]
  unfold Assembler.unroll
  rw [h.target, hrun]
  refine ⟨rfl, _, rfl, fun e he => ?_⟩
  simp only [List.mem_cons, List.not_mem_nil, or_false] at he
  rcases he with rfl | rfl | rfl | rfl
  all_goals rfl

theorem countP_closing {closing : List Event} (h : ∀ e ∈ closing, e.line? = none)
    (i : Instruction) : closing.countP i.isToldBy = 0 := by
  refine List.countP_eq_zero.2 fun e he htold => ?_
  have hline := Instruction.line_of_isToldBy htold
  rw [h e he] at hline
  cases hline

theorem resetsOf_closing {closing : List Event} (h : ∀ e ∈ closing, e.line? = none)
    (x : Address) : resetsOf x closing = [] := by
  refine List.filterMap_eq_nil_iff.2 fun e he => ?_
  have hline := h e he
  cases e with
  | variableReset line target value => cases hline
  | _ => rfl

theorem item?_clear_symbol {u : ScopeTree} {x : Address} {c : Symbol}
    (h : u.item? x = some (.symbol c)) : u.clear.item? x = some (.symbol c) := by
  rw [ScopeTree.item?_clear, h]
  rfl

end Closing

/-- **Once per combination of trips.** For every target and every text that a
    fresh session accepts: if the operands of all loops are constants, then no
    loop is refused, every instruction is carried out once for every combination
    of trips of the loops around it, and what it leaves behind is there as many
    times. -/
theorem assemble_once_per_combination (target : Target) (text : String) {n : Nat}
    (hparse : ((Assembler.new target).parseSource text).answer = .ok n)
    (hloops : ConstantLoops ((Assembler.new target).parseSource text).after.tree) :
    OncePerCombination ((Assembler.new target).parseSource text).after := by
  unfold Assembler.parseSource at hparse hloops ⊢
  have hdistinct := distinct_parse (nodup_numbered text) hparse
  have hready := ready_of_parse hparse
  rcases (checked_invariant target).parse .empty (Text.numbered text) with ⟨-, hchecked⟩
  rcases (settled_invariant target).parse .empty (Text.numbered text) with ⟨-, hsettled⟩
  generalize ((Assembler.new target).parse (Text.numbered text)).after = a at *
  have hrooted := hready.healthy.rooted
  have hcount := @ConstantLoops.count a.tree hloops hchecked hready.wellFormed hrooted
  refine ⟨fun f hf => ?_, fun words hok m i command hm hi => ?_, fun words hok m i hm => ?_,
    fun words hok x source m d hsum => ?_⟩
  · exact (hready.assemble_error hf).not_isOfLoop hloops hchecked
  · rcases hready.assemble_ok hok with ⟨l, w, hl, htrace, -, rfl⟩
    rw [Array.countP_toList, htrace.countP_words hdistinct hm hi, hcount hl hm]
    exact Nat.zero_add _
  · rcases hready.assemble_ok hok with ⟨l, w, hl, htrace, hrun, -⟩
    rcases hready.after_run hrun with ⟨-, closing, hlog, hclosing⟩
    rw [hlog, List.countP_append, countP_closing hclosing, Array.countP_toList,
      htrace.countP_log hdistinct hm, hcount hl hm]
    exact Nat.zero_add _
  · rcases hready.assemble_ok hok with ⟨l, w, hl, htrace, hrun, -⟩
    rcases hready.after_run hrun with ⟨htree, closing, hlog, hclosing⟩
    rcases hsum.value hready.wellFormed hrooted hsettled hl htrace with
      ⟨initial, c, hresets, hinitial, hc, hvalue⟩
    rcases hsum.added with ⟨i, -, hm, -⟩
    refine ⟨initial, c, ?_, hinitial, ?_, ?_⟩
    · rw [hlog, show resetsOf x (w.log.toList ++ closing) = resetsOf x w.log.toList ++
        resetsOf x closing from List.filterMap_append, hresets, resetsOf_closing hclosing]
      rfl
    · rw [htree]
      exact item?_clear_symbol hc
    · rw [hvalue, hcount hl hm]

/-- A loop of three trips inside another, with a sum. -/
def nestedText : String :=
  "CONST last 1\nVAR sum 5\nLOOP 0 3 1\nLOOP 6 last -2\nADD sum 2\nSETDIC last\nPOOL\nPOOL\n"

/-- The reply to that text. -/
def nestedReply : Reply Nat :=
  (Assembler.new sampleTarget).parseSource nestedText

-- There are nine words, and two has been added nine times.
theorem assemble_nestedText :
    ∃ words, nestedReply.after.assemble.answer = .ok words ∧
      words.countP (fun word => word.source = ⟨6, "SETDIC last"⟩) = 9 ∧
      ∃ c, nestedReply.after.assemble.after.tree.item? ⟨0, 2⟩ = some (.symbol c) ∧
        c.value = 23 := by
  -- All that has to be computed is asked at once, so that the text is read once.
  have hdata : nestedReply.answer = .ok 8 ∧ ConstantLoops nestedReply.after.tree ∧
      nestedReply.after.assemble.answer.toOption.isSome ∧
      nestedReply.after.tree.repetitions 2 = 9 ∧
      (∀ entry ∈ ([(⟨0, 1⟩, .symbol (.literal 5)), (⟨0, 2⟩, .symbol ⟨.var, "sum", 5⟩),
          (⟨0, 3⟩, .instruction ⟨0, ⟨2, "VAR sum 5"⟩, .reset ⟨0, 1⟩ ⟨0, 2⟩⟩),
          (⟨2, 0⟩, .symbol (.literal 2)),
          (⟨2, 1⟩, .instruction ⟨2, ⟨5, "ADD sum 2"⟩, .fold .add ⟨0, 2⟩ ⟨2, 0⟩⟩),
          (⟨2, 2⟩, .instruction ⟨2, ⟨6, "SETDIC last"⟩, .emit (.oneOperand ⟨0, 0⟩ 3)⟩)] :
            List (Address × Item)),
        nestedReply.after.tree.item? entry.1 = some entry.2) ∧
      ∀ s < nestedReply.after.tree.size, ∀ entry ∈ (nestedReply.after.tree.itemsAt s).zipIdx,
        entry.1.written? = some ⟨0, 2⟩ →
          (⟨s, entry.2⟩ : Address) = ⟨0, 3⟩ ∨ (⟨s, entry.2⟩ : Address) = ⟨2, 1⟩ := by
    decide +kernel
  rcases hdata with ⟨hparse, hloops, hsome, hrepetitions, hitems, hwriters⟩
  have honce : OncePerCombination nestedReply.after :=
    assemble_once_per_combination sampleTarget nestedText hparse hloops
  generalize nestedReply.after = a at *
  simp only [List.forall_mem_cons] at hitems
  rcases hitems with ⟨hinitial, hsum, hdeclared, htwo, hadd, hset, -⟩
  have haccumulates : Accumulates a.tree ⟨0, 2⟩ ⟨0, 1⟩ ⟨2, 1⟩ (.literal 2) :=
    ⟨rfl, ⟨_, hsum, rfl⟩, ⟨_, _, hadd, rfl, htwo⟩, rfl, ⟨0, 3⟩, _, hdeclared, rfl,
      fun n item hn => ScopeTree.forall_item (P := fun n item => item.written? = some ⟨0, 2⟩ →
        n = ⟨0, 3⟩ ∨ n = ⟨2, 1⟩) hwriters hn⟩
  rcases hanswer : a.assemble.answer with f | words
  · rw [hanswer] at hsome
    cases hsome
  · rcases honce.sums words hanswer _ _ _ _ haccumulates with ⟨initial, c, -, hconst, hc, hvalue⟩
    refine ⟨words, rfl, ?_, c, hc, ?_⟩
    · rw [← hrepetitions]
      exact honce.words words hanswer _ _ _ hset rfl
    · rw [hvalue, hconst _ hinitial rfl, hrepetitions]
      rfl

end UnrollAsm
