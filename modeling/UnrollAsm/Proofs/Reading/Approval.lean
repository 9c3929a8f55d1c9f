import UnrollAsm.Proofs.Block.Approval
import UnrollAsm.Proofs.Layout.Reading

/-!
# Reading Is Approval

The reader accepts exactly those lines whose block is approved. Reading and
approval go side by side: what the symbols in front of the current position
declare, with the values that they were given while reading, are the frames that
have been approved so far. A statement that the one refuses is refused by the
other, and a statement that both accept leads to the same frames again.

Literals are the only difference. The reader supplies them as constants of a
scope, whereas nothing has to be declared for a literal to be approved; but no
identifier denotes them.

## Main definitions

* `Frame.ofItems`, `Position.env`: What items declare.
* `Sees`: The tree holds an outline, and its declarations are those approved.
* `Reading.Follows`: An action goes on exactly if an outline is approved.

## Theorems

* `Reading.readStatement_follows`: A statement.
* `Reading.readLines_follows`: Lines in a row.
* `Reading.readProgram_follows`: A program is accepted exactly if it is approved.
-/

namespace UnrollAsm

/-- What a list of items declares. -/
def Frame.ofItems (items : List Item) : Frame :=
  items.filterMap Item.declared?

/-- What is declared at a position, with the values that its items have. -/
def Position.env (pos : Position) : Env :=
  pos.map fun p => Frame.ofItems p.items

/-- The tree holds an outline, which is approved with the declarations in front of
    the current position. -/
structure Sees (target : Target) (o : Outline) (t : ScopeTree) (s : Nat) (up : Position) :
    Prop where
  reads : Reads target o t s up
  rooted : Rooted t
  approves : o.approve target = some (Frame.ofItems (t.itemsAt s) :: up.env)

theorem Frame.ofItems_snoc (items : List Item) (i : Item) :
    Frame.ofItems (items ++ [i]) = Frame.ofItems items ++ i.declared?.toList := by
  unfold Frame.ofItems
  rw [List.filterMap_append]
  cases hi : i.declared? with
  | none => rw [List.filterMap_cons_none hi]; rfl
  | some c => rw [List.filterMap_cons_some hi]; rfl

-- An item that declares nothing.
theorem Frame.ofItems_skip {i : Item} (hi : i.declared? = none) (items : List Item) :
    Frame.ofItems (items ++ [i]) = Frame.ofItems items := by
  rw [Frame.ofItems_snoc, hi, Option.toList_none, List.append_nil]

theorem Frame.ofItems_declare {c : Symbol} (hc : Statement.isIdentifier c.name)
    (items : List Item) : Frame.ofItems (items ++ [.symbol c]) = Frame.ofItems items ++ [c] := by
  rw [Frame.ofItems_snoc, Item.declared?_eq_some.2 ⟨rfl, hc⟩]
  rfl

-- A tree that holds a position has its values there.
theorem Within.visible_eq {t : ScopeTree} {pos : Position} (h : Within t pos) :
    t.visible pos = pos.env := by
  refine List.map_congr_left fun p hp => ?_
  rcases h p hp with ⟨rest, hrest⟩
  unfold ScopeTree.frame ScopeTree.reached
  rw [← hrest, List.take_left]
  rfl

namespace Sees

variable {target : Target} {o : Outline} {t u : ScopeTree} {s : Nat} {up : Position}

theorem sound (h : Sees target o t s up) : Sound t s :=
  ⟨h.rooted, h.reads.lt_size⟩

/-! ## Operands -/

-- What the reader finds is what the approved declarations have.
theorem find? (h : Sees target o t s up) {name : String} (hname : Statement.isIdentifier name)
    {found : Option Address} (hfound : t.find s name = .ok found) :
    Env.find? (Frame.ofItems (t.itemsAt s) :: up.env) name =
      found.bind fun a => (t.item? a).bind Item.symbol? := by
  have hvisible : t.visible (⟨s, t.itemsAt s⟩ :: up) = Frame.ofItems (t.itemsAt s) :: up.env :=
    h.reads.within.visible_eq
  rw [h.reads.opened.find_eq h.reads.lt_size, Except.ok.injEq] at hfound
  rw [← hvisible, find?_visible (h.reads.within.fits rfl) hname, hfound]

theorem symbol?_of_resolved (h : Sees target o t s up) {op : Operand} {a : Address}
    (hop : op.Named) (ha : Resolved t s op a) :
    ∃ c, Env.symbol? (Frame.ofItems (t.itemsAt s) :: up.env) op = some c ∧
      t.item? a = some (.symbol c) := by
  cases op with
  | literal v => exact ⟨.literal v, rfl, h.reads.within.item? (h.reads.denotes hop ha)⟩
  | name name =>
      rcases symbol_of_find h.sound.current ha with ⟨c, hc, -⟩
      have hfind := h.find? hop ha
      rw [Option.bind_some, hc] at hfind
      exact ⟨c, hfind, hc⟩

theorem declares (h : Sees target o t s up) {name : String} (hname : Statement.isIdentifier name)
    {b : Address} (hb : t.find s name = .ok (some b)) :
    Frame.declares (Frame.ofItems (t.itemsAt s)) name = decide (b.scope = s) := by
  have hany : Frame.declares (Frame.ofItems (t.itemsAt s)) name =
      ((t.itemsAt s).findIdx? (Item.isNamed name)).isSome := any_declared hname _
  have hlookup := h.reads.lookup_eq hb
  rw [hany]
  unfold Position.lookup at hlookup
  cases hidx : (t.itemsAt s).findIdx? (Item.isNamed name) with
  | some index =>
      simp only [hidx] at hlookup
      cases hlookup
      exact (decide_eq_true rfl).symm
  | none =>
      -- The name belongs to a scope further out, which has another number.
      simp only [hidx] at hlookup
      rcases Position.mem_of_lookup hlookup with ⟨p, hp, hscope, -⟩
      have hlt := (List.pairwise_cons.1 (h.reads.opened.descends (t.itemsAt s))).1 p hp
      have hne : b.scope ≠ s := by
        rw [← hscope]
        exact Nat.ne_of_lt hlt
      exact (decide_eq_false hne).symm

/-! ## Growth -/

-- Literals are not declared.
theorem supply (h : Sees target o t s up) (hstock : Stocks s t u) :
    Sees target o u s up ∧ Frame.ofItems (u.itemsAt s) = Frame.ofItems (t.itemsAt s) := by
  induction hstock with
  | refl => exact ⟨h, rfl⟩
  | @push u v _ _ ih =>
      rcases ih with ⟨hu, hsame⟩
      have hnone : (Item.symbol (.literal v)).declared? = none := if_neg (isIdentifier_decimal v)
      have hpush : Frame.ofItems ((u.push s (.symbol (.literal v))).itemsAt s) =
          Frame.ofItems (t.itemsAt s) := by
        rw [ScopeTree.itemsAt_push_self _ hu.sound.current, Frame.ofItems_skip hnone, hsame]
      refine ⟨⟨hu.reads.push (hu.reads.lays.literal v), ?_, ?_⟩, hpush⟩
      · exact (hu.sound.push (by intro c hc; cases hc)).rooted
      · rw [hpush]
        exact h.approves

theorem symbol?_of_unresolved (h : Sees target o t s up) {op : Operand} (hop : op.Named)
    (hnone : Unresolved t s op) :
    Env.symbol? (Frame.ofItems (t.itemsAt s) :: up.env) op = none := by
  rcases hnone with ⟨u, name, hstock, rfl, hfind⟩
  rcases h.supply hstock with ⟨hu, hsame⟩
  rw [← hsame]
  exact hu.find? hop hfind

-- One more clause, which is approved with what the tree declares now.
theorem push (h : Sees target o t s up) {c : Clause} (hreads : Reads target (o.push c) u s up)
    (hrooted : Rooted u)
    (happrove : c.approve target up.env (Frame.ofItems (t.itemsAt s)) =
      some (Frame.ofItems (u.itemsAt s))) : Sees target (o.push c) u s up := by
  refine ⟨hreads, hrooted, ?_⟩
  rw [Outline.approve_push h.approves c, happrove]
  rfl

-- An instruction in the current scope declares nothing.
theorem push_instruction (h : Sees target o t s up) {c : Clause} {i : Instruction}
    (hlays : Lays target t up s (o.block ++ [c]) (t.itemsAt s ++ [.instruction i]) t.size)
    (happrove : c.approve target up.env (Frame.ofItems (t.itemsAt s)) =
      some (Frame.ofItems (t.itemsAt s))) :
    Sees target (o.push c) (t.push s (.instruction i)) s up := by
  refine h.push (h.reads.push hlays) (h.sound.push (by intro b hb; cases hb)).rooted ?_
  rw [ScopeTree.itemsAt_push_self _ h.sound.current, Frame.ofItems_skip rfl, happrove]

theorem refuses (h : Sees target o t s up) {c : Clause}
    (happrove : c.approve target up.env (Frame.ofItems (t.itemsAt s)) = none) :
    (o.push c).approve target = none := by
  rw [Outline.approve_push h.approves c, happrove]
  rfl

end Sees

-- A loop with an operand that denotes nothing.
theorem Env.not_opens {env : Env} {line : LoopLine} {op : Operand}
    (hmem : op ∈ [line.start, line.stop, line.step]) (hnone : env.symbol? op = none) :
    ¬ env.opens line := by
  simp only [List.mem_cons, List.not_mem_nil, or_false] at hmem
  intro hopens
  unfold Env.opens at hopens
  rcases (Option.any_eq_true _ _).1 hopens with ⟨b, hb, -⟩
  unfold Env.bounds? at hb
  rcases Option.bind_eq_some_iff.1 hb with ⟨start, hstart, hb⟩
  rcases Option.bind_eq_some_iff.1 hb with ⟨stop, hstop, hb⟩
  rcases Option.bind_eq_some_iff.1 hb with ⟨step, hstep, -⟩
  rcases hmem with rfl | rfl | rfl
  · rw [hnone] at hstart
    cases hstart
  · rw [hnone] at hstop
    cases hstop
  · rw [hnone] at hstep
    cases hstep

namespace Reading

open PassM

variable {α : Type} {target : Target} {o : Outline} {w : Work ScopeId} {up : Position}

/-- An action goes on exactly if there is a next outline that is approved, and
    then the tree holds that outline. -/
def Follows (target : Target) (w : Work ScopeId) (m : ReadM α)
    (next : Except Diagnostic Outline) : Prop :=
  m.Meets w (fun _ v => ∃ o up, next = .ok o ∧ Sees target o v.tree v.own up)
    fun _ => ∀ o, next = .ok o → o.approve target = none

/-! ## Clauses -/

theorem declareConst_follows (h : Sees target o w.tree w.own up) (line : Nat) {name : String}
    (hname : Statement.isIdentifier name) (value : Int32) :
    Follows target w (declareConst line name value) (.ok (o.push (.const name value))) := by
  have hdeclares : Frame.declares (Frame.ofItems (w.tree.itemsAt w.own)) name =
      ((w.tree.itemsAt w.own).findIdx? (Item.isNamed name)).isSome := any_declared hname _
  have hlocal := ScopeTree.findLocal_eq h.sound.current name
  refine Meets.next (exec_own w) ?_
  refine Meets.next ((exec_ask _ w).trans (by rw [hlocal]; rfl)) ?_
  cases hidx : (w.tree.itemsAt w.own).findIdx? (Item.isNamed name) with
  | some index =>
      rcases ScopeTree.symbol_of_findIdx? hidx with ⟨c, hc, -⟩
      refine Meets.next ((exec_ask _ w).trans (by rw [ScopeTree.item_eq_ok hc]; rfl)) ?_
      refine Meets.refuse fun o' ho' => ?_
      cases ho'
      refine h.refuses ?_
      rw [Clause.approve, if_pos (by rw [hdeclares, hidx]; rfl)]
  | none =>
      refine Meets.next (append_exec _ h.sound) (Meets.pure ⟨_, up, rfl, h.push
        (h.reads.push (h.reads.lays.const value hname))
        (h.sound.push (by intro c hc; cases hc)).rooted ?_⟩)
      rw [Clause.approve, if_neg (by rw [hdeclares, hidx]; exact Bool.false_ne_true),
        ScopeTree.itemsAt_push_self _ h.sound.current]
      exact congrArg some (Frame.ofItems_declare hname _).symm

-- A variable line whose name is free in the current block.
theorem declareVar_follows (h : Sees target o w.tree w.own up) {source : SourceLine}
    {name : String} {value : Operand} {a : Address} (hname : Statement.isIdentifier name)
    (hop : value.Named) (hvalue : Resolved w.tree w.own value a)
    (hvar : ¬ (Env.find? (Frame.ofItems (w.tree.itemsAt w.own) :: up.env) name).any Symbol.isVar)
    (hfree : ¬ Frame.declares (Frame.ofItems (w.tree.itemsAt w.own)) name) :
    Follows target w (declareVar source.number name a >>= fun written =>
      appendAction source (.reset a written)) (.ok (o.push (.var source name value))) := by
  rcases h.symbol?_of_resolved hop hvalue with ⟨c, hsymbol, hc⟩
  have hgrown : Sound (w.tree.push w.own (.symbol ⟨.var, name, c.value⟩)) w.own :=
    h.sound.push (by intro c hc; cases hc)
  have hexec : (declareVar source.number name a).exec w =
      (.ok ⟨w.own, (w.tree.itemsAt w.own).length⟩,
        { w with tree := w.tree.push w.own (.symbol ⟨.var, name, c.value⟩) }) := by
    unfold declareVar
    rw [exec_bind, exec_ask, ScopeTree.valueOf_eq hc]
    exact append_exec _ h.sound
  have hlacks : ∀ b d, Resolved w.tree w.own (.name name) b →
      w.tree.item? b = some (.symbol d) → d.isVar = false := by
    intro b d hb hd
    have hfind := h.find? hname hb
    rw [Option.bind_some, hd] at hfind
    rw [hfind] at hvar
    exact Bool.not_eq_true _ ▸ hvar
  refine Meets.next hexec (Meets.of_exec (appendAction_exec source _ hgrown) ⟨_, up, rfl, ?_⟩)
  refine h.push (h.reads.declare c.value hname hop hvalue hlacks)
    (hgrown.push (by intro c hc; cases hc)).rooted ?_
  simp only [Clause.approve, hsymbol, Option.bind_eq_bind, Option.bind_some, if_neg hvar,
    if_neg hfree]
  rw [ScopeTree.itemsAt_push_self _ hgrown.current,
    ScopeTree.itemsAt_push_self _ h.sound.current, Frame.ofItems_skip rfl]
  exact congrArg some (Frame.ofItems_declare hname _).symm

theorem var_follows (h : Sees target o w.tree w.own up) {source : SourceLine} {name : String}
    {value : Operand} (hname : Statement.isIdentifier name) (hop : value.Named) :
    Follows target w (readStatement target source (.var name value))
      (.ok (o.push (.var source name value))) := by
  refine (resolve_meets source.number value h.sound).andThen ?_ ?_
  · rintro a v ⟨hv, ha⟩
    rcases v with ⟨u, log, s⟩
    rcases hv with ⟨rfl, hstock⟩
    have hu := (h.supply hstock).1
    rcases hu.symbol?_of_resolved hop ha with ⟨c, hsymbol, -⟩
    unfold targetVar
    rw [bind_assoc]
    refine Meets.next (exec_own _) ?_
    rw [bind_assoc]
    rcases lookup_exec name hu.sound with ⟨found, hfound, hexec⟩
    have hfind := hu.find? hname hfound
    refine Meets.next hexec ?_
    cases found with
    | none =>
        -- Nobody has declared the name, neither here nor further out.
        have hidx := findIdx?_of_find hu.sound.current hfound
        refine declareVar_follows hu hname hop ha ?_ ?_
        · rw [hfind]
          exact Bool.false_ne_true
        · have hany : Frame.declares (Frame.ofItems (u.itemsAt w.own)) name = _ :=
            any_declared hname _
          rw [hany, hidx]
          exact Bool.false_ne_true
    | some b =>
        rcases symbol_of_find hu.sound.current hfound with ⟨d, hd, -⟩
        have hdeclares := hu.declares hname hfound
        rw [Option.bind_some, hd, Option.bind_some] at hfind
        simp only [bind_assoc]
        refine Meets.next ((exec_ask _ _).trans (by rw [ScopeTree.item_eq_ok hd]; rfl)) ?_
        by_cases hvar : d.isVar = true
        · rw [if_pos (by exact hvar), pure_bind]
          refine Meets.of_exec (appendAction_exec source _ hu.sound) ⟨_, up, rfl, ?_⟩
          refine hu.push (hu.reads.reset hname hop ha hfound hd hvar)
            (hu.sound.push (by intro c hc; cases hc)).rooted ?_
          simp only [Clause.approve, hsymbol, Option.bind_eq_bind, Option.bind_some, hfind]
          rw [if_pos (by exact hvar), ScopeTree.itemsAt_push_self _ hu.sound.current,
            Frame.ofItems_skip rfl]
        · rw [if_neg (by exact hvar)]
          have hlacks : ¬ (Env.find? (Frame.ofItems (u.itemsAt w.own) :: up.env) name).any
              Symbol.isVar := by
            rw [hfind]
            exact hvar
          by_cases hhere : b.scope = w.own
          · -- A constant of the same block is in the way.
            rw [if_pos hhere]
            refine Meets.refuse fun o' ho' => ?_
            cases ho'
            refine hu.refuses ?_
            simp only [Clause.approve, hsymbol, Option.bind_eq_bind, Option.bind_some,
              if_neg hlacks]
            rw [if_pos (by rw [hdeclares]; exact decide_eq_true hhere)]
          · rw [if_neg hhere]
            refine declareVar_follows hu hname hop ha hlacks ?_
            rw [hdeclares, decide_eq_false hhere]
            exact Bool.false_ne_true
  · rintro v ⟨-, hnone⟩ o' ho'
    cases ho'
    refine h.refuses ?_
    rw [Clause.approve, h.symbol?_of_unresolved hop hnone]
    rfl

-- Operands in the right number make an action, if arithmetic has an operation.
theorem isSome_action? (id : Nat) (mnemonic : String) {cls : InstructionClass}
    {addresses : List Address} (h : addresses.length = cls.arity) :
    (action? id mnemonic cls addresses).isSome =
      (decide (cls ≠ .arithmetic) || (Arithmetic.ofMnemonic? mnemonic).isSome) := by
  cases cls with
  | noOperand =>
      obtain rfl := List.length_eq_zero_iff.1 h
      rfl
  | oneOperand =>
      obtain ⟨a, rfl⟩ := List.length_eq_one_iff.1 h
      rfl
  | twoOperand =>
      obtain ⟨a, b, rfl⟩ := List.length_eq_two.1 h
      rfl
  | threeOperand =>
      obtain ⟨a, b, c, rfl⟩ := List.length_eq_three.1 h
      rfl
  | arithmetic =>
      obtain ⟨a, b, rfl⟩ := List.length_eq_two.1 h
      exact Option.isSome_map

theorem command_follows (h : Sees target o w.tree w.own up) {source : SourceLine}
    {mnemonic : String} {operands : List Operand} (hop : ∀ op ∈ operands, op.Named) :
    Follows target w (command target source mnemonic operands)
      (.ok (o.push (.command source mnemonic operands))) := by
  have hrefuse : ¬ Env.takes (Frame.ofItems (w.tree.itemsAt w.own) :: up.env) target mnemonic
      operands → ∀ o', Except.ok (o.push (.command source mnemonic operands)) =
        (.ok o' : Except Diagnostic Outline) → o'.approve target = none := by
    intro htakes o' ho'
    cases ho'
    exact h.refuses (by rw [Clause.approve, if_neg htakes])
  unfold command
  cases hresolve : target.resolve? mnemonic with
  | none =>
      refine Meets.refuse (hrefuse ?_)
      simp only [Env.takes, hresolve, Bool.false_eq_true, not_false_eq_true]
  | some entry =>
      rcases entry with ⟨cls, id⟩
      simp only [Env.takes, hresolve, Bool.and_eq_true, decide_eq_true_eq] at hrefuse
      dsimp only
      by_cases harity : operands.length = cls.arity
      · rw [if_neg (not_not_intro harity)]
        refine (mapM_resolve_meets source.number operands h.sound).andThen ?_ ?_
        · rintro addresses v ⟨hv, haddr⟩
          rcases v with ⟨u, log, s⟩
          rcases hv with ⟨rfl, hstock⟩
          rcases h.supply hstock with ⟨hu, hsame⟩
          have hsome := isSome_action? id mnemonic (haddr.length_eq.symm.trans harity)
          cases haction : action? id mnemonic cls addresses with
          | none =>
              rw [haction] at hsome
              refine Meets.refuse (hrefuse ?_)
              rw [← hsome]
              exact fun htakes => Bool.false_ne_true htakes.2
          | some action =>
              rw [haction] at hsome
              refine Meets.of_exec (appendAction_exec source action hu.sound) ⟨_, up, rfl, ?_⟩
              refine hu.push_instruction (hu.reads.lays.command source hresolve
                (hu.reads.denotes_all hop haddr) haction) ?_
              have hall : operands.all (fun op => (Env.symbol?
                  (Frame.ofItems (u.itemsAt w.own) :: up.env) op).isSome) = true := by
                rw [List.all_eq_true]
                intro op hmem
                rcases List.forall₂_iff_get.1 haddr with ⟨hlength, hget⟩
                rcases List.mem_iff_getElem.1 hmem with ⟨k, hk, rfl⟩
                rcases hu.symbol?_of_resolved (hop _ hmem) (hget k hk (hlength ▸ hk)) with
                  ⟨c, hc, -⟩
                exact Option.isSome_of_eq_some hc
              have htakes : Env.takes (Frame.ofItems (u.itemsAt w.own) :: up.env) target mnemonic
                  operands = true := by
                simp only [Env.takes, hresolve, hall, ← hsome, harity, decide_true,
                  Option.isSome_some, Bool.and_self]
              rw [Clause.approve, if_pos htakes]
        · rintro v ⟨-, op, hmem, hnone⟩
          refine hrefuse fun htakes => ?_
          have hop' := List.all_eq_true.1 htakes.1.2 op hmem
          rw [h.symbol?_of_unresolved (hop op hmem) hnone] at hop'
          cases hop'
      · rw [if_pos harity]
        exact Meets.refuse (hrefuse fun htakes => harity htakes.1.1)

/-! ## Loops -/

theorem openLoop_follows (h : Sees target o w.tree w.own up) {source : SourceLine}
    {start stop step : Operand} (hstart : start.Named) (hstop : stop.Named)
    (hstep : step.Named) :
    Follows target w (openLoop source start stop step)
      (o.add source (.loop start stop step)) := by
  have hopened := Outline.approve_opened h.approves ⟨source, start, stop, step⟩
  refine resolve_three_meets source.number h.sound ?_ ?_
  · intro a b c u log hstock ha hb hc
    rcases h.supply hstock with ⟨hu, hsame⟩
    rcases hu.symbol?_of_resolved hstart ha with ⟨sa, hsa, hia⟩
    rcases hu.symbol?_of_resolved hstop hb with ⟨sb, hsb, hib⟩
    rcases hu.symbol?_of_resolved hstep hc with ⟨sc, hsc, hic⟩
    have hbounds : Env.bounds? (Frame.ofItems (w.tree.itemsAt w.own) :: up.env)
        ⟨source, start, stop, step⟩ = some ⟨sa.value, sb.value, sc.value⟩ := by
      unfold Env.bounds?
      rw [← hsame, hsa, hsb, hsc]
      rfl
    unfold Env.opens at hopened
    rw [hbounds, Option.any_some] at hopened
    refine Meets.next ((exec_ask _ _).trans (by rw [ScopeTree.valueOf_eq hia])) ?_
    refine Meets.next ((exec_ask _ _).trans (by rw [ScopeTree.valueOf_eq hib])) ?_
    refine Meets.next ((exec_ask _ _).trans (by rw [ScopeTree.valueOf_eq hic])) ?_
    cases hcheck : (⟨sa.value, sb.value, sc.value⟩ : Bounds).check with
    | error cause =>
        have hcreate : LoopHeader.create a b c ⟨sa.value, sb.value, sc.value⟩ source =
            .error (.onLine source.number (.range cause)) := by
          unfold LoopHeader.create
          rw [hcheck]
        refine Meets.orRefuse (fun header hheader => ?_) fun o' ho' => ?_
        · rw [hcreate] at hheader
          cases hheader
        · cases ho'
          rw [hopened, hcheck]
          rfl
    | ok _ =>
        have hcreate : LoopHeader.create a b c ⟨sa.value, sb.value, sc.value⟩ source =
            .ok ⟨a, b, c, source, ⟨sa.value, sb.value, sc.value⟩, sa.value⟩ := by
          unfold LoopHeader.create
          rw [hcheck]
        refine Meets.next ((exec_ofExcept _ _).trans (by rw [hcreate]; rfl)) ?_
        refine Meets.next (exec_own _) ?_
        refine Meets.next ((exec_change _ _).trans
          (by rw [ScopeTree.openLoop_eq _ hu.sound.current]; rfl)) ?_
        refine Meets.next (exec_note _ _) ?_
        have hline : Announces (⟨w.own, u.itemsAt w.own⟩ :: up) ⟨source, start, stop, step⟩
            ⟨a, b, c, source, ⟨sa.value, sb.value, sc.value⟩, sa.value⟩ :=
          ⟨hu.reads.denotes hstart ha, hu.reads.denotes hstop hb, hu.reads.denotes hstep hc, rfl⟩
        refine Meets.of_exec (exec_setOwn _ _) ⟨_, _, rfl, hu.reads.nest hline,
          hu.rooted.nest _ hu.sound.current, ?_⟩
        rw [hopened, hcheck, ScopeTree.itemsAt_nest_body _ hu.sound.current, ← hsame]
        rfl
  · rintro v - ⟨op, hmem, hnone⟩ o' ho'
    cases ho'
    have hop : op.Named := by
      simp only [List.mem_cons, List.not_mem_nil, or_false] at hmem
      rcases hmem with rfl | rfl | rfl
      · exact hstart
      · exact hstop
      · exact hstep
    rw [hopened, if_neg (Env.not_opens hmem (h.symbol?_of_unresolved hop hnone))]

theorem closeLoop_follows (h : Sees target o w.tree w.own up) {source : SourceLine} :
    Follows target w (closeLoop source.number) (o.add source .pool) := by
  refine Meets.next (exec_own w) ?_
  have hparent := ScopeTree.parent?_eq h.sound.current
  refine Meets.next ((exec_ask _ w).trans (by rw [hparent]; rfl)) ?_
  cases hp : w.tree.parentAt w.own with
  | none =>
      refine Meets.refuse fun o' ho' => ?_
      rcases o with ⟨block, _ | ⟨⟨line, outer⟩, around⟩⟩
      · cases ho'
      · -- An open loop has a scope around it.
        rcases h.reads.opened with _ | ⟨-, -, -, hsome, -, -⟩
        rw [hp] at hsome
        cases hsome
  | some p =>
      rcases h.reads.close hp with ⟨line, block, around, items, up', haround, rfl, hitems, hreads⟩
      refine Meets.next (exec_setOwn _ w) ?_
      refine Meets.of_exec (exec_note _ _) ⟨_, up', ?_, hreads, h.rooted, ?_⟩
      · unfold Outline.add
        rw [haround]
      · have happroves := h.approves
        rcases o with ⟨body, _⟩
        cases haround
        rw [Outline.approve_closed.2 ⟨_, happroves⟩, hitems, Frame.ofItems_skip rfl]
        rfl

/-! ## Statements and lines -/

/-- A statement is accepted exactly if the outline with it is approved. -/
theorem readStatement_follows (h : Sees target o w.tree w.own up) {source : SourceLine}
    {st : Statement} (hst : st.Named) :
    Follows target w (readStatement target source st) (o.add source st) := by
  cases st with
  | empty => exact Meets.pure ⟨o, up, rfl, h⟩
  | const name value => exact declareConst_follows h source.number hst value
  | var name value => exact var_follows h hst.1 hst.2
  | loop start stop step => exact openLoop_follows h hst.1 hst.2.1 hst.2.2
  | pool => exact closeLoop_follows h
  | command mnemonic operands => exact command_follows h hst

theorem readLine_follows (h : Sees target o w.tree w.own up) (number : Nat) (text : String) :
    Follows target w (readLine target number text) (o.addLine (number, text)) := by
  unfold Follows Outline.addLine readLine
  cases hparse : Statement.parse number text with
  | error d =>
      refine Meets.orRefuse (fun st hst => by cases hst) fun o' ho' => ?_
      cases ho'
  | ok st =>
      refine Meets.next (exec_ofExcept _ w) ?_
      refine Meets.next (exec_note _ w) ?_
      have hread : Follows target { w with log := w.log.push (.statementRead number st) }
          (readStatement target (.of number text) st) (o.add (.of number text) st) :=
        readStatement_follows (by exact h) (Statement.named_of_parse hparse)
      exact hread.andThen (fun _ v hv => Meets.pure hv) fun _ hv => hv

/-- Lines in a row. -/
theorem readLines_follows (h : Sees target o w.tree w.own up) (lines : List (Nat × String))
    (count : Nat) :
    Follows target w (lines.foldlM (fun count (number, text) => do
      return count + (← readLine target number text)) count) (o.addLines lines) := by
  induction lines generalizing o w up count with
  | nil => exact Meets.pure ⟨o, up, rfl, h⟩
  | cons line rest ih =>
      rcases line with ⟨number, text⟩
      unfold Follows
      rw [List.foldlM_cons, bind_assoc]
      refine (readLine_follows h number text).andThen ?_ ?_
      · rintro n v ⟨o₁, up₁, hline, h₁⟩
        rw [pure_bind]
        refine (ih h₁ (count + n)).mono ?_ ?_
        · rintro _ x ⟨o', up', hrest, h'⟩
          exact ⟨o', up', Outline.addLines_cons.2 ⟨o₁, hline, hrest⟩, h'⟩
        · intro _ hnone o' ho'
          rcases Outline.addLines_cons.1 ho' with ⟨o₂, hline₂, hrest⟩
          rw [hline] at hline₂
          cases hline₂
          exact hnone o' hrest
      · -- What is not approved here is not approved with more lines either.
        intro _ hnone o' ho'
        rcases Outline.addLines_cons.1 ho' with ⟨o₁, hline, hrest⟩
        cases happrove : o'.approve target with
        | none => rfl
        | some e =>
            rcases Outline.approve_of_addLines hrest happrove with ⟨e₁, he₁⟩
            rw [hnone o₁ hline] at he₁
            cases he₁

/-- A program is accepted exactly if its block is approved. -/
theorem readProgram_follows (target : Target) (lines : List (Nat × String)) :
    (readProgram target lines).Meets ⟨.empty, #[], 0⟩
      (fun _ _ => ∃ block f, Block.ofLines lines = .ok block ∧
        Block.approve target block [] [] = some f)
      fun _ => ∀ block, Block.ofLines lines = .ok block →
        Block.approve target block [] [] = none := by
  have hstart : Sees target .empty .empty 0 [] := ⟨Laid.empty, .empty, rfl⟩
  have hlines : Follows target ⟨.empty, #[], 0⟩ (readLines target lines) _ :=
    readLines_follows hstart lines 0
  refine hlines.andThen ?_ ?_
  · rintro n ⟨t, log, s⟩ ⟨o, up, hadd, h⟩
    have hread : Sees target o t s up := h
    rcases ScopeTree.exists_scope hread.sound.current with ⟨scope, hscope⟩
    have hheader : t.headerAt s = scope.header := by
      unfold ScopeTree.headerAt
      rw [hscope]
      rfl
    unfold finish
    rw [bind_assoc]
    refine Meets.next (exec_own _) ?_
    rw [bind_assoc]
    refine Meets.next ((exec_ask _ _).trans (by rw [ScopeTree.scope_eq_ok hscope]; rfl)) ?_
    have hopened := hread.reads.opened
    rcases o with ⟨block, around⟩
    cases hopened with
    | root hnone _ =>
        -- The current scope is the root, which has no header.
        rw [hnone] at hheader
        rw [← hheader]
        have happroves := hread.approves
        rw [Outline.approve_root, Option.map_eq_some_iff] at happroves
        rcases happroves with ⟨f, hf, -⟩
        exact Meets.pure ⟨block, f, Block.ofLines_eq_ok.2 hadd, hf⟩
    | loop _ _ _ _ hsome _ =>
        rw [hsome] at hheader
        rw [← hheader]
        refine Meets.refuse fun block' hblock' => ?_
        rw [Block.ofLines_eq_ok, hadd] at hblock'
        cases hblock'
  · intro _ hnone block hblock
    have happrove := hnone _ (Block.ofLines_eq_ok.1 hblock)
    rwa [Outline.approve_root, Option.map_eq_none_iff] at happrove

end Reading

end UnrollAsm
