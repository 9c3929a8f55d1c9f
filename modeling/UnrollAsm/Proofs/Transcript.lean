import UnrollAsm.Proofs.Block.Replacement
import UnrollAsm.Proofs.Session.Calls
import UnrollAsm.Proofs.Tree.WellFormed

/-!
# The Tree Is a Transcript of the Lines

Reading spreads a program over scopes that know each other by numbers. Nothing
gets lost on the way: whoever goes through the items of the root, and at every
marker through the body that it leads to, comes by the statements of the program
in the order of their lines, each of them once, and as deep inside loops as it
was written.

The argument goes through blocks. A block is laid out in a scope, so going
through the scope is going through the block; and the outline of the lines read
so far gains what each line stands for at its very end, whether the line adds a
clause, opens a loop or closes one. Literals and constants leave no trace in
either list.

## Main definitions

* `Visit`, `ScopeTree.visits`: The instructions and loops of a tree in order.
* `Spot`, `spots`: The statements of lines that a tree keeps, in order.
* `loopsIn`, `poolsIn`: How many lines open a loop, or close one.
* `isVoid`: The line is blank, or only a comment.
* `Transcribed`: The tree is a transcript of the lines.

## Theorems

* `Lays.visits`: Going through a scope is going through its block.
* `Outline.addLines_spots`: Lines are added at the end.
* `Statement.parse_eq_empty`: Which lines hold no statement.
* `parse_transcribed`: The tree of accepted lines is a transcript of them.
-/

namespace UnrollAsm

/-- An item of a tree that stands for a statement, with the line it came from and
    the number of loops around it. -/
structure Visit where
  depth : Nat
  item : Item
  source : SourceLine

/-- What stands in lines: a statement at a depth, which may open a loop. -/
structure Spot where
  depth : Nat
  opens : Bool
  source : SourceLine
  deriving DecidableEq, Repr

/-- What an item stands for, given what is inside a loop. -/
def Item.visits (t : ScopeTree) (inside : ScopeId → List Visit) (depth : Nat) : Item → List Visit
  | .symbol _ => []
  | .instruction i => [⟨depth, .instruction i, i.source⟩]
  | .loop c =>
    ((t.headerAt c).map fun h => ⟨depth, .loop c, h.source⟩).toList ++ inside c

/-- The instructions and loops of a scope in order, a loop being followed by what
    is inside it, down to a number of levels. -/
def ScopeTree.visits (t : ScopeTree) : (levels depth : Nat) → ScopeId → List Visit
  | 0, _, _ => []
  | levels + 1, depth, s =>
    (t.itemsAt s).flatMap (Item.visits t (t.visits levels (depth + 1)) depth)

/-- What is to be seen of a visit in the text. -/
def Visit.spot (v : Visit) : Spot :=
  ⟨v.depth, v.item.body?.isSome, v.source⟩

/-- The variable lines, loops and commands among the lines, each with the number
    of loops that are open there. -/
def spots : Nat → List (Nat × String) → List Spot
  | _, [] => []
  | depth, (number, text) :: rest =>
    match Statement.parse number text with
    | .ok (.loop ..) => ⟨depth, true, .of number text⟩ :: spots (depth + 1) rest
    | .ok .pool => spots (depth - 1) rest
    | .ok (.var ..) | .ok (.command ..) => ⟨depth, false, .of number text⟩ :: spots depth rest
    | _ => spots depth rest

/-- The line opens a loop. -/
def opensLoop (line : Nat × String) : Bool :=
  match Statement.parse line.1 line.2 with
  | .ok (.loop ..) => true
  | _ => false

/-- The line closes a loop. -/
def closesLoop (line : Nat × String) : Bool :=
  match Statement.parse line.1 line.2 with
  | .ok .pool => true
  | _ => false

/-- How many lines open a loop. -/
def loopsIn (lines : List (Nat × String)) : Nat :=
  lines.countP opensLoop

/-- How many lines close a loop. -/
def poolsIn (lines : List (Nat × String)) : Nat :=
  lines.countP closesLoop

/-- The line is blank, or only a comment: nothing but separators comes before a
    number sign. -/
def isVoid (text : String) : Bool :=
  (text.toList.takeWhile (· ≠ '#')).all fun c => c = ' ' ∨ c = '\t' ∨ c = ','

/-- The tree is a transcript of the lines, which hold `n` statements. -/
structure Transcribed (lines : List (Nat × String)) (n : Nat) (t : ScopeTree) : Prop where
  /-- Going through the tree is going through the lines. -/
  visits : (t.visits t.size 0 .root).map Visit.spot = spots 0 lines
  /-- There is a scope for every loop, and the root. -/
  size : t.size = 1 + loopsIn lines
  /-- Scopes are numbered in the order in which their loops are come by. -/
  numbers : (t.visits t.size 0 .root).filterMap (fun v => v.item.body?) =
    List.range' 1 (loopsIn lines)
  count : n = lines.countP fun line => !isVoid line.2
  /-- No loop is closed before it is opened, and none is left open. -/
  prefixes : ∀ k, poolsIn (lines.take k) ≤ loopsIn (lines.take k)
  balanced : poolsIn lines = loopsIn lines

/-! ## Blocks -/

mutual

/-- What stands in the lines of a clause. -/
def Clause.spots (depth : Nat) : Clause → List Spot
  | .const _ _ => []
  | .var source _ _ => [⟨depth, false, source⟩]
  | .command source _ _ => [⟨depth, false, source⟩]
  | .loop line body => ⟨depth, true, line.source⟩ :: Block.spots (depth + 1) body

/-- What stands in the lines of a block. -/
def Block.spots (depth : Nat) : List Clause → List Spot
  | [] => []
  | c :: rest => c.spots depth ++ Block.spots depth rest

end

theorem Block.spots_append (depth : Nat) (block rest : Block) :
    Block.spots depth (block ++ rest) = Block.spots depth block ++ Block.spots depth rest := by
  induction block with
  | nil => rfl
  | cons c block ih =>
      rw [List.cons_append, Block.spots, ih, Block.spots, List.append_assoc]

theorem Block.spots_snoc (depth : Nat) (block : Block) (c : Clause) :
    Block.spots depth (block ++ [c]) = Block.spots depth block ++ c.spots depth := by
  rw [Block.spots_append, Block.spots, Block.spots, List.append_nil]

/-- Going through a scope is going through the block that lies in it, and the
    bodies that one comes by are those from `s + 1` on, in order. -/
theorem Lays.visits {target : Target} {t : ScopeTree} {up : Position} {s hi : Nat} {block : Block}
    {items : List Item} (h : Lays target t up s block items hi) (levels depth : Nat)
    (hlevels : hi ≤ s + 1 + levels) :
    (items.flatMap (Item.visits t (t.visits levels (depth + 1)) depth)).map Visit.spot =
        Block.spots depth block ∧
      (items.flatMap (Item.visits t (t.visits levels (depth + 1)) depth)).filterMap
        (fun v => v.item.body?) = List.range' (s + 1) (hi - (s + 1)) := by
  induction h generalizing levels depth with
  | nil =>
      rw [Nat.sub_self]
      exact ⟨rfl, rfl⟩
  | literal v _ ih =>
      simp only [List.flatMap_append, List.flatMap_singleton, Item.visits, List.append_nil]
      exact ih levels depth hlevels
  | const value _ _ ih =>
      simp only [List.flatMap_append, List.flatMap_singleton, Item.visits, List.append_nil,
        Block.spots_snoc, Clause.spots]
      exact ih levels depth hlevels
  | reset source _ _ _ _ _ ih | command source _ _ _ _ ih =>
      rcases ih levels depth hlevels with ⟨hspots, hbodies⟩
      simp only [List.flatMap_append, List.flatMap_singleton, Item.visits, List.map_append,
        List.filterMap_append, hspots, hbodies, Block.spots_snoc, Clause.spots]
      exact ⟨rfl, List.append_nil _⟩
  | declare source v _ _ _ _ ih =>
      rcases ih levels depth hlevels with ⟨hspots, hbodies⟩
      simp only [List.flatMap_append, List.flatMap_singleton, Item.visits, List.append_nil,
        List.map_append, List.filterMap_append, hspots, hbodies, Block.spots_snoc, Clause.spots]
      exact ⟨rfl, List.append_nil _⟩
  | @loop _ s c hi _ body _ line header hlays hheader hline hbody ih ihbody =>
      have hlt := hlays.lt
      have hlt' := hbody.lt
      -- The body takes up the numbers between its own and the end.
      rcases levels with _ | levels
      · omega
      rcases ih (levels + 1) depth (by omega) with ⟨hspots, hbodies⟩
      rcases ihbody levels (depth + 1) (by omega) with ⟨hspots', hbodies'⟩
      have hrange : List.range' (s + 1) (hi - (s + 1)) =
          List.range' (s + 1) (c - (s + 1)) ++ c :: List.range' (c + 1) (hi - (c + 1)) := by
        rw [← List.range'_succ]
        have hstart : c = s + 1 + 1 * (c - (s + 1)) := by omega
        nth_rewrite 2 [hstart]
        rw [List.range'_append]
        congr 1
        omega
      have hvisit : Item.visits t (t.visits (levels + 1) (depth + 1)) depth (.loop c) =
          ⟨depth, .loop c, line.source⟩ :: (t.itemsAt c).flatMap
            (Item.visits t (t.visits levels (depth + 1 + 1)) (depth + 1)) := by
        rw [← hline.source]
        simp only [Item.visits, hheader]
        rfl
      rw [List.flatMap_append, List.flatMap_singleton, hvisit, List.map_append,
        List.filterMap_append, hspots, hbodies, Block.spots_snoc, Clause.spots, hrange,
        List.map_cons, hspots']
      exact ⟨rfl, congrArg (List.range' (s + 1) (c - (s + 1)) ++ c :: ·) hbodies'⟩

/-! ## Lines -/

namespace Outline

/-- What stands in the lines around the block being written. -/
def spotsAround : List (LoopLine × Block) → List Spot
  | [] => []
  | (line, block) :: rest =>
    spotsAround rest ++ Block.spots rest.length block ++ [⟨rest.length, true, line.source⟩]

/-- What stands in the lines of an outline. -/
def spots (o : Outline) : List Spot :=
  spotsAround o.around ++ Block.spots o.around.length o.block

variable {o o' : Outline}

-- A clause is added at the end.
theorem spots_push (o : Outline) (c : Clause) :
    (o.push c).spots = o.spots ++ c.spots o.around.length := by
  unfold spots push
  rw [Block.spots_snoc, List.append_assoc]

/-- A line is added at the end: the statement is the last one, and a loop counts
    from its line on until the line that closes it. -/
theorem addLine_spots {line : Nat × String} (rest : List (Nat × String))
    (h : o.addLine line = .ok o') :
    o'.spots ++ UnrollAsm.spots o'.around.length rest =
        o.spots ++ UnrollAsm.spots o.around.length (line :: rest) ∧
      o'.around.length + poolsIn [line] = o.around.length + loopsIn [line] := by
  rcases line with ⟨number, text⟩
  rcases exists_of_bind_eq_ok h with ⟨st, hst, hadd⟩
  dsimp only at hst hadd
  simp only [UnrollAsm.spots, poolsIn, loopsIn, List.countP_singleton, opensLoop, closesLoop, hst]
  cases st with
  | empty =>
      cases hadd
      exact ⟨rfl, rfl⟩
  | const name value =>
      cases hadd
      rw [spots_push]
      exact ⟨by rw [Clause.spots, List.append_nil]; rfl, rfl⟩
  | var name value =>
      cases hadd
      rw [spots_push]
      exact ⟨by rw [Clause.spots, List.append_assoc]; rfl, rfl⟩
  | command mnemonic operands =>
      cases hadd
      rw [spots_push]
      exact ⟨by rw [Clause.spots, List.append_assoc]; rfl, rfl⟩
  | loop start stop step =>
      cases hadd
      refine ⟨?_, rfl⟩
      simp only [spots, spotsAround, Block.spots, List.append_nil, List.append_assoc,
        List.singleton_append, List.length_cons]
  | pool =>
      rcases o with ⟨body, _ | ⟨⟨line, block⟩, around⟩⟩
      · cases hadd
      · cases hadd
        refine ⟨?_, rfl⟩
        simp only [spots, spotsAround, Block.spots_snoc, Clause.spots, List.append_assoc,
          List.nil_append, List.cons_append, List.length_cons, Nat.add_sub_cancel]

/-- Lines are added at the end, and the loops that are open are those that have
    been opened and not closed. -/
theorem addLines_spots {lines : List (Nat × String)} (h : o.addLines lines = .ok o') :
    o'.spots = o.spots ++ UnrollAsm.spots o.around.length lines ∧
      o'.around.length + poolsIn lines = o.around.length + loopsIn lines := by
  induction lines generalizing o with
  | nil =>
      cases h
      exact ⟨(List.append_nil _).symm, rfl⟩
  | cons line rest ih =>
      rcases addLines_cons.1 h with ⟨o₁, hline, hrest⟩
      rcases addLine_spots rest hline with ⟨hspots, hopen⟩
      rcases ih hrest with ⟨hspots', hopen'⟩
      refine ⟨by rw [hspots', hspots], ?_⟩
      have hpools : poolsIn (line :: rest) = poolsIn [line] + poolsIn rest :=
        show poolsIn ([line] ++ rest) = _ from List.countP_append
      have hloops : loopsIn (line :: rest) = loopsIn [line] + loopsIn rest :=
        show loopsIn ([line] ++ rest) = _ from List.countP_append
      omega

end Outline

/-! ## Void lines -/

namespace Statement

-- A token that has begun is not forgotten.
theorem scan_ne_nil {reversed : List Char} (hne : reversed ≠ []) (cs : List Char) :
    scan reversed cs ≠ some [] := by
  have hflush : ∀ others, flush reversed others ≠ [] := by
    intro others
    unfold flush
    rw [if_neg (by simpa using hne)]
    exact List.cons_ne_nil _ _
  induction cs generalizing reversed with
  | nil => exact fun h => hflush [] (Option.some.inj h)
  | cons c rest ih =>
      unfold scan
      cases CharClass.of c with
      | separator =>
          intro h
          rcases Option.map_eq_some_iff.1 h with ⟨others, -, hnil⟩
          exact hflush others hnil
      | comment => exact fun h => hflush [] (Option.some.inj h)
      | lineBreak => exact fun h => by cases h
      | glyph =>
          refine ih (List.cons_ne_nil _ _) fun others => ?_
          unfold flush
          exact List.cons_ne_nil _ _

theorem scan_nil_iff (cs : List Char) :
    scan [] cs = some [] ↔
      (cs.takeWhile (· ≠ '#')).all (fun c => c = ' ' ∨ c = '\t' ∨ c = ',') = true := by
  induction cs with
  | nil => exact ⟨fun _ => rfl, fun _ => rfl⟩
  | cons c rest ih =>
      unfold scan CharClass.of
      by_cases hsep : c = ' ' ∨ c = '\t' ∨ c = ','
      · have hne : c ≠ '#' := by
          rintro rfl
          revert hsep
          decide
        have hflush : flush [] = id := rfl
        rw [if_pos hsep, List.takeWhile_cons, if_pos (decide_eq_true hne), List.all_cons,
          decide_eq_true hsep, Bool.true_and, ← ih]
        simp only [hflush, Option.map_id, id_eq]
      · rw [if_neg hsep]
        by_cases hcomment : c = '#'
        · rw [if_pos hcomment, List.takeWhile_cons, if_neg (by simpa using hcomment)]
          exact ⟨fun _ => rfl, fun _ => rfl⟩
        · -- Anything else is a token, or not allowed at all.
          rw [if_neg hcomment, List.takeWhile_cons, if_pos (decide_eq_true hcomment),
            List.all_cons, decide_eq_false hsep, Bool.false_and]
          split
          · rename_i hclass
            split at hclass <;> cases hclass
          · rename_i hclass
            split at hclass <;> cases hclass
          · exact ⟨fun h => (by cases h), fun h => (by cases h)⟩
          · exact ⟨fun h => absurd h (scan_ne_nil (List.cons_ne_nil _ _) rest),
              fun h => (by cases h)⟩

-- Whatever has tokens is more than nothing.
theorem ofTokens_eq_empty {tokens : List String} (h : ofTokens tokens = .ok .empty) :
    tokens = [] := by
  cases tokens with
  | nil => rfl
  | cons head arguments =>
      unfold ofTokens at h
      dsimp only at h
      split at h
      · unfold ofKeyword at h
        split at h
        · rcases exists_of_bind_eq_ok h with ⟨_, -, h⟩
          rcases exists_of_bind_eq_ok h with ⟨_, -, h⟩
          rcases exists_of_bind_eq_ok h with ⟨_, -, h⟩
          cases h
        · cases h
        · cases h
        · cases h
        · rcases exists_of_bind_eq_ok h with ⟨_, -, h⟩
          rcases exists_of_bind_eq_ok h with ⟨_, -, h⟩
          cases h
        · cases h
        · rcases exists_of_bind_eq_ok h with ⟨_, -, h⟩
          rcases exists_of_bind_eq_ok h with ⟨value, -, h⟩
          cases value <;> cases h
        · cases h
      · unfold ofMnemonic at h
        split at h
        · cases h
        · split at h
          · cases h
          · rcases exists_of_bind_eq_ok h with ⟨_, -, h⟩
            cases h

/-- A line holds no statement exactly if it is blank or only a comment. -/
theorem parse_eq_empty (number : Nat) (text : String) :
    parse number text = .ok .empty ↔ isVoid text = true := by
  unfold isVoid
  rw [← scan_nil_iff]
  unfold parse tokens?
  cases hscan : scan [] text.toList with
  | none => exact ⟨fun h => (by cases h), fun h => (by cases h)⟩
  | some tokens =>
      dsimp only
      constructor
      · intro h
        cases hresult : ofTokens tokens with
        | error cause =>
            rw [hresult] at h
            cases h
        | ok st =>
            rw [hresult] at h
            cases h
            rw [ofTokens_eq_empty hresult]
      · intro h
        cases h
        rfl

end Statement

/-! ## Counting -/

namespace Reading

open PassM

variable {target : Target} {w : Work ScopeId}

-- The answer of reading lines is the number of lines that hold a statement.
theorem foldlM_readLine_count (lines : List (Nat × String)) (count : Nat)
    (hw : Sound w.tree w.own) :
    (lines.foldlM (fun count (number, text) => do
        return count + (← readLine target number text)) count).Meets w
      (fun n v => Sound v.tree v.own ∧
        n = count + lines.countP fun line : Nat × String => !isVoid line.2)
      (fun _ => True) := by
  induction lines generalizing w count with
  | nil => exact Meets.pure ⟨hw, rfl⟩
  | cons line rest ih =>
      rcases line with ⟨number, text⟩
      rw [List.foldlM_cons, bind_assoc]
      refine Meets.bind ?_
      refine Meets.orRefuse (fun st hst => ?_) trivial
      refine Meets.next (exec_note _ w) ?_
      refine (readStatement_meets st (by exact hw)).andThen (fun _ v hgrows => ?_)
        fun _ _ => trivial
      refine Meets.pure ?_
      rw [pure_bind]
      refine (ih _ (hgrows.sound hw)).mono (fun n x hx => ⟨hx.1, ?_⟩) fun _ h => h
      rw [hx.2, List.countP_cons, Nat.add_assoc, Nat.add_comm (List.countP _ rest)]
      have hvoid := Statement.parse_eq_empty number text
      rw [hst, Except.ok.injEq] at hvoid
      by_cases hempty : st = .empty
      · rw [if_pos hempty]
        simp [hvoid.1 hempty]
      · rw [if_neg hempty]
        simp [mt hvoid.2 hempty]

theorem readProgram_count (lines : List (Nat × String)) (hw : Sound w.tree w.own) :
    (readProgram target lines).Meets w
      (fun n _ => n = lines.countP fun line : Nat × String => !isVoid line.2)
      (fun _ => True) := by
  refine (foldlM_readLine_count lines 0 hw).andThen ?_ fun _ _ => trivial
  rintro n v ⟨hv, hn⟩
  rcases ScopeTree.exists_scope hv.current with ⟨scope, hscope⟩
  unfold finish
  rw [bind_assoc]
  refine Meets.next (exec_own v) ?_
  rw [bind_assoc]
  refine Meets.next ((exec_ask _ v).trans (by rw [ScopeTree.scope_eq_ok hscope]; rfl)) ?_
  cases scope.header with
  | some header => trivial
  | none => exact Meets.pure (hn.trans (Nat.zero_add _))

end Reading

/-! ## Transcripts -/

-- The lines that open loops are among the spots.
theorem countP_spots (depth : Nat) (lines : List (Nat × String)) :
    (spots depth lines).countP Spot.opens = loopsIn lines := by
  induction lines generalizing depth with
  | nil => rfl
  | cons line rest ih =>
      rcases line with ⟨number, text⟩
      have hcons : loopsIn ((number, text) :: rest) =
          loopsIn rest + if opensLoop (number, text) then 1 else 0 := List.countP_cons
      rw [hcons]
      unfold opensLoop spots
      rcases Statement.parse number text with d | st
      · exact ih depth
      · cases st with
        | loop start stop step => exact List.countP_cons.trans (congrArg (· + 1) (ih (depth + 1)))
        | pool => exact ih (depth - 1)
        | empty | const _ _ => exact ih depth
        | var _ _ | command _ _ => exact List.countP_cons.trans (congrArg (· + 0) (ih depth))

-- A visit to a loop is a spot that opens one.
theorem length_bodies (visits : List Visit) :
    (visits.filterMap fun v => v.item.body?).length =
      (visits.map Visit.spot).countP Spot.opens := by
  rw [List.length_filterMap_eq_countP, List.countP_map]
  rfl

-- The answer of a session is that of the pass.
theorem count_of_parse {target : Target} {lines : List (Nat × String)} {n : Nat}
    (h : ((Assembler.new target).parse lines).answer = .ok n) :
    n = lines.countP fun line : Nat × String => !isVoid line.2 := by
  have hcount : (Reading.readProgram target lines).Meets ⟨.empty, #[], 0⟩ _ _ :=
    Reading.readProgram_count lines ⟨.empty, Rooted.empty.nonempty⟩
  unfold PassM.Meets at hcount
  unfold Assembler.parse Reading.run Assembler.new at h
  rw [PassM.start_eq_exec] at h
  unfold ScopeId.root at h
  rcases hexec : (Reading.readProgram target lines).exec ⟨.empty, #[], 0⟩ with ⟨e | m, w⟩
  · rw [hexec] at h
    cases h
  · rw [hexec] at h hcount
    cases h
    exact hcount

/-- **The tree is a transcript of the lines.** Whatever the target, the tree that a
    fresh session has made of accepted lines lists their statements in order, each
    once and at its depth. -/
theorem parse_transcribed {target : Target} {lines : List (Nat × String)} {n : Nat}
    (h : ((Assembler.new target).parse lines).answer = .ok n) :
    Transcribed lines n ((Assembler.new target).parse lines).after.tree := by
  rcases Assembler.parse_cases (a := .new target) lines (Healthy.new target).rooted with
    ⟨_, t, s, -, hafter, hgrows, hheader, -⟩ | ⟨d, t, hanswer, -, -⟩
  · rcases Laid.empty.growsAll hgrows hheader with ⟨block, hlines, hlaid⟩
    rw [hafter]
    dsimp only
    rcases Outline.addLines_spots hlines with ⟨hspots, hopen⟩
    rcases hlaid.lays.visits (t.size - 1) 0 (by omega) with ⟨hvisits, hbodies⟩
    -- One level is the root itself.
    have hpos := hlaid.lt_size
    have hroot : t.visits t.size 0 .root =
        (t.itemsAt 0).flatMap (Item.visits t (t.visits (t.size - 1) 1) 0) := by
      nth_rewrite 1 [show t.size = t.size - 1 + 1 by omega]
      rfl
    rw [← hroot] at hvisits hbodies
    have hlisted : (t.visits t.size 0 .root).map Visit.spot = spots 0 lines :=
      hvisits.trans hspots
    have hloops : t.size - 1 = loopsIn lines := by
      have hlength := length_bodies (t.visits t.size 0 .root)
      rw [hbodies, List.length_range', hlisted, countP_spots] at hlength
      exact hlength
    refine ⟨hlisted, by omega, ?_, count_of_parse h, fun k => ?_, ?_⟩
    · rw [hbodies, ← hloops]
    · -- The lines up to some point have an outline of their own.
      rw [← List.take_append_drop k lines] at hlines
      rcases Outline.addLines_append.1 hlines with ⟨o, hfront, -⟩
      have hfront' := (Outline.addLines_spots hfront).2
      dsimp only [List.length_nil] at hfront'
      omega
    · dsimp only [List.length_nil] at hopen
      omega
  · rw [hanswer] at h
    cases h

/-- A loop in a loop, with a comment and a blank line. -/
def nestedLines : List (Nat × String) :=
  [(1, "# doubles"), (2, "VAR x 1"), (3, "LOOP 0 2 1"), (4, "  MULI x 2 # again"), (5, ""),
    (6, "LOOP 0 3 1"), (7, "SETDIC x"), (8, "POOL"), (9, "POOL")]

theorem nestedLines_transcribed :
    ∃ t : ScopeTree, t.size = 3 ∧ (t.visits 3 0 .root).map Visit.spot =
        [⟨0, false, ⟨2, "VAR x 1"⟩⟩, ⟨0, true, ⟨3, "LOOP 0 2 1"⟩⟩,
          ⟨1, false, ⟨4, "MULI x 2 # again"⟩⟩, ⟨1, true, ⟨6, "LOOP 0 3 1"⟩⟩,
          ⟨2, false, ⟨7, "SETDIC x"⟩⟩] ∧
      Transcribed nestedLines 7 t := by
  have htranscribed : Transcribed nestedLines 7
      ((Assembler.new sampleTarget).parse nestedLines).after.tree :=
    parse_transcribed (by decide +kernel)
  have hloops : loopsIn nestedLines = 2 := by decide +kernel
  have hsize := htranscribed.size
  rw [hloops] at hsize
  refine ⟨_, hsize, ?_, htranscribed⟩
  have hvisits := htranscribed.visits
  rw [hsize] at hvisits
  rw [hvisits]
  decide +kernel

end UnrollAsm
