import UnrollAsm.Proofs.Layout.Basic
import UnrollAsm.Proofs.Pass
import UnrollAsm.Proofs.Tree.Evaluation
import UnrollAsm.Session.Unrolling

/-!
# Carrying Out a Line

Unrolling and interpreting go hand in hand. The tree that is being unrolled and
the execution of the block are in the same state, at a position of the program,
if the tree still has the skeleton of the program, its declarations in front of
the position are the environment, and the same words have been emitted.

This file covers what a single instruction does. Its operands are addresses on
one side and operands in an environment on the other, and at its position the
addresses lead to the very symbols that the operands denote. The rest is a
comparison of the two definitions, failures included.

## Main definitions

* `Sim`: A tree being unrolled and an execution are in the same state.

## Theorems

* `Sim.denote`: Addresses and operands lead to the same symbols.
* `Sim.write`: Writing through an address is assigning to a name.
* `encode_eq`: Commands become the same words.
* `perform_reset`, `perform_command`: Lines have the same effect.
-/

namespace UnrollAsm

/-- A tree being unrolled and an execution are in the same state at a position
    of the program `t`. -/
structure Sim (t : ScopeTree) (pos : Position) (w : Work (Array EmittedWord)) (r : Run) :
    Prop where
  skeleton : w.tree.skeleton = t.skeleton
  env : r.env = w.tree.visible pos
  words : r.words = w.own.toList

/-- Operations on values are operations on integers, reduced to a value. -/
theorem Arithmetic.apply_eq (op : Arithmetic) (a b : Int32) :
    op.apply a b = Int32.ofInt (op.exact a.toInt b.toInt) := by
  cases op <;>
    simp only [apply, exact, Int32.ofInt_add, Int32.ofInt_sub, Int32.ofInt_mul,
      Int32.ofInt_toInt]

-- What a name denotes is called by that name.
theorem Env.name_of_denote {env : Env} {line : Nat} {name : String} {c : Symbol}
    (h : env.denote line (.name name) = .ok c) : c.name = name := by
  unfold denote at h
  dsimp only at h
  split at h
  · rename_i s hs
    cases h
    rcases List.exists_of_findSome?_eq_some hs with ⟨frame, -, hframe⟩
    simpa only [decide_eq_true_eq] using List.find?_some hframe
  · cases h

namespace Sim

variable {t : ScopeTree} {pos : Position} {w : Work (Array EmittedWord)} {r : Run}

theorem fits (h : Sim t pos w r) (hpos : Within t pos) : Fits w.tree pos :=
  hpos.fits h.skeleton

/-- The address of an operand leads to the symbol that the operand denotes. -/
theorem denote (h : Sim t pos w r) (hpos : Within t pos) (hdesc : pos.Descends) {op : Operand}
    {a : Address} (ha : pos.Denotes op a) (line : Nat) :
    ∃ c, r.env.denote line op = .ok c ∧ w.tree.item? a = some (.symbol c) := by
  have hfits := h.fits hpos
  cases op with
  | literal v =>
      refine ⟨.literal v, rfl, ?_⟩
      rcases hfits.exists_item ha with ⟨j, hj, hskel⟩
      rcases Item.skeleton_eq_symbol hskel with ⟨c, rfl, hc⟩
      rw [hj, Symbol.eq_of_skeleton_eq rfl hc]
  | name name =>
      rcases ha with ⟨hname, ha⟩
      rcases Position.symbol_of_lookup hdesc ha with ⟨c, hc, -⟩
      rcases hfits.exists_item hc with ⟨j, hj, hskel⟩
      rcases Item.skeleton_eq_symbol hskel with ⟨c', rfl, -⟩
      refine ⟨c', ?_, hj⟩
      have hfind : r.env.find? name = some c' := by
        rw [h.env, find?_visible hfits hname, ha, Option.bind_some, hj]
        rfl
      simp only [Env.denote, hfind]

theorem find? (h : Sim t pos w r) (hpos : Within t pos) {name : String}
    (hname : Statement.isIdentifier name) :
    r.env.find? name = (pos.lookup name).bind fun a => (w.tree.item? a).bind Item.symbol? := by
  rw [h.env, find?_visible (h.fits hpos) hname]

/-- Writing through the address of a variable is assigning to its name. -/
theorem write (h : Sim t pos w r) (hpos : Within t pos) (hdesc : pos.Descends) {name : String}
    {a : Address} (ha : pos.Denotes (.name name) a) {c : Symbol}
    (hc : w.tree.item? a = some (.symbol c)) (hvar : c.isVar) (v : Int32) (log : Array Event) :
    Sim t pos ⟨w.tree.setItem a (.symbol { c with value := v }), log, w.own⟩
      { r with env := r.env.assign name v } where
  skeleton := by
    rw [← h.skeleton]
    exact ScopeTree.skeleton_setItem hc (congrArg Item.symbol (Symbol.skeleton_set hvar v))
  env := by
    rw [h.env]
    exact (assign_visible (h.fits hpos) hdesc ha.1 ha.2 hc v).symm
  words := h.words

-- An item that declares nothing may be passed over.
theorem skip {up : Position} {s : Nat} {items : List Item} {i : Item}
    (h : Sim t (⟨s, items⟩ :: up) w r) (hpos : Within t (⟨s, items ++ [i]⟩ :: up))
    (hi : i.declared? = none) : Sim t (⟨s, items ++ [i]⟩ :: up) w r where
  skeleton := h.skeleton
  env := by
    rw [h.env, visible_skip h.skeleton hpos hi]
  words := h.words

theorem note (h : Sim t pos w r) (log : Array Event) : Sim t pos ⟨w.tree, log, w.own⟩ r :=
  ⟨h.skeleton, h.env, h.words⟩

end Sim

namespace Unrolling

open PassM

variable {t : ScopeTree} {target : Target} {pos : Position} {w : Work (Array EmittedWord)}
  {r : Run}

/-- Lists of operands have the symbols of their addresses. -/
theorem denote_all (h : Sim t pos w r) (hpos : Within t pos) (hdesc : pos.Descends)
    {operands : List Operand} {addresses : List Address}
    (ha : List.Forall₂ pos.Denotes operands addresses) (line : Nat) :
    ∃ symbols, operands.mapM (r.env.denote line) = .ok symbols ∧
      List.Forall₂ (fun a c => w.tree.item? a = some (.symbol c)) addresses symbols := by
  induction ha with
  | nil => exact ⟨[], rfl, .nil⟩
  | cons hfirst _ ih =>
      rcases h.denote hpos hdesc hfirst line with ⟨c, hc, hitem⟩
      rcases ih with ⟨symbols, hsymbols, hitems⟩
      refine ⟨c :: symbols, ?_, .cons hitem hitems⟩
      rw [List.mapM_cons, hc, hsymbols]
      rfl

/-! ## Arithmetic -/

theorem perform_fold (h : Sim t pos w r) (hpos : Within t pos) (hdesc : pos.Descends)
    {first second : Operand} {a b : Address} (ha : pos.Denotes first a)
    (hb : pos.Denotes second b) (s : Nat) (source : SourceLine) (op : Arithmetic) :
    (perform target ⟨s, source, .fold op a b⟩).Agrees w (r.fold source.number op first second)
      (fun _ v r' => Sim t pos v r') := by
  rcases h.denote hpos hdesc ha source.number with ⟨c, hdenc, hc⟩
  rcases h.denote hpos hdesc hb source.number with ⟨d, hdend, hd⟩
  have hfold := ScopeTree.fold_eq hc hd op source.number
  have hexec := exec_change (fun t => t.fold op a b source.number) w
  rw [hfold] at hexec
  unfold perform Run.fold
  simp only [hdenc, hdend, bind, Except.bind]
  by_cases hvar : c.isVar = true
  · rw [if_neg (not_not_intro hvar)] at hexec ⊢
    by_cases hconst : d.isVar = true ∧ op.requiresConst = true
    · rw [if_pos hconst] at hexec ⊢
      exact Agrees.refused hexec
    · rw [if_neg hconst] at hexec ⊢
      refine Agrees.next hexec (Agrees.of_exec (exec_note _ _) ?_)
      -- Only a name can denote a variable, and the name is the variable's own.
      cases first with
      | literal v =>
          cases hdenc
          cases hvar
      | name name =>
          have hwrite := h.write hpos hdesc ha hc hvar (op.apply c.value d.value)
            (w.log.push (.folded source.number op a (op.apply c.value d.value)))
          rw [← Env.name_of_denote hdenc] at hwrite
          rw [← Arithmetic.apply_eq]
          exact hwrite
  · rw [if_pos hvar] at hexec ⊢
    exact Agrees.refused hexec

/-! ## Commands -/

-- Both sides put the same line on what an encoder complains about.
theorem located_eq (line : Nat) (result : Except RangeCause MachineWord) :
    ScopeTree.onLine line result = orRefuse (Run.word.located line result) := by
  cases result with
  | error cause => rfl
  | ok word => rfl

-- The cache is asked for first, and the same line is put on its absence.
theorem cached_eq (target : Target) (line : Nat) (command : Command)
    {f : Cache → Except Failure MachineWord} {g : Cache → Except Diagnostic MachineWord}
    (h : ∀ cache, f cache = orRefuse (g cache)) :
    (ScopeTree.cacheFor target line command >>= f) =
      orRefuse (Run.word.cache target line command.machineId command.instructionClass >>= g) := by
  unfold ScopeTree.cacheFor Run.word.cache
  cases target.cache command.instructionClass command.machineId with
  | error cause => rfl
  | ok cache => exact h cache

/-- A command becomes the word that its values give, or fails in the same way. -/
theorem encode_eq (target : Target) {u : ScopeTree} {cls : InstructionClass} {id : Nat}
    {mnemonic : String} {addresses : List Address} {symbols : List Symbol} {command : Command}
    (haction : Reading.action? id mnemonic cls addresses = some (.emit command))
    (hitems : List.Forall₂ (fun a c => u.item? a = some (.symbol c)) addresses symbols)
    (line : Nat) :
    u.encode target line command =
        orRefuse (Run.word target line id cls (symbols.map Symbol.value)) ∧
      command.instructionClass = cls ∧ command.machineId = id := by
  unfold Reading.action? at haction
  split at haction
  · cases haction
    cases hitems
    exact ⟨located_eq line _, rfl, rfl⟩
  · cases haction
    rcases hitems with _ | ⟨hline, _ | _⟩
    refine ⟨cached_eq target line (.oneOperand _ id) fun cache => ?_, rfl, rfl⟩
    rw [ScopeTree.valueOf_eq hline]
    exact located_eq line _
  · cases haction
    rcases hitems with _ | ⟨hmemory, _ | ⟨hline, _ | _⟩⟩
    refine ⟨cached_eq target line (.twoOperand _ _ id) fun cache => ?_, rfl, rfl⟩
    rw [ScopeTree.valueOf_eq hmemory, ScopeTree.valueOf_eq hline]
    exact located_eq line _
  · cases haction
    rcases hitems with _ | ⟨hmemory, _ | ⟨hline, _ | ⟨hplace, _ | _⟩⟩⟩
    refine ⟨cached_eq target line (.threeOperand _ _ _ id) fun cache => ?_, rfl, rfl⟩
    rw [ScopeTree.valueOf_eq hmemory, ScopeTree.valueOf_eq hline, ScopeTree.valueOf_eq hplace]
    exact located_eq line _
  · rcases Option.map_eq_some_iff.1 haction with ⟨op, -, hop⟩
    cases hop
  · cases haction

theorem perform_emit (target : Target) (h : Sim t pos w r) (hpos : Within t pos)
    (hdesc : pos.Descends) {cls : InstructionClass} {id : Nat} {mnemonic : String}
    {operands : List Operand} {addresses : List Address} {command : Command}
    (ha : List.Forall₂ pos.Denotes operands addresses)
    (haction : Reading.action? id mnemonic cls addresses = some (.emit command)) (s : Nat)
    (source : SourceLine) :
    (perform target ⟨s, source, .emit command⟩).Agrees w (r.emit target source cls id operands)
      (fun _ v r' => Sim t pos v r') := by
  rcases denote_all h hpos hdesc ha source.number with ⟨symbols, hsymbols, hitems⟩
  rcases encode_eq target haction hitems source.number with ⟨hencode, hcls, hid⟩
  unfold perform Run.emit
  rw [hsymbols]
  refine Agrees.same ((exec_ask _ w).trans (by rw [hencode])) fun word _ => ?_
  refine Agrees.next (exec_setOwn _ w) (Agrees.of_exec (exec_note _ _) ⟨h.skeleton, h.env, ?_⟩)
  simp only [hcls, hid, Array.toList_push, h.words]

/-- A mnemonic has the effect of its instruction. -/
theorem perform_command (h : Sim t pos w r) (hpos : Within t pos) (hdesc : pos.Descends)
    {cls : InstructionClass} {id : Nat} {mnemonic : String} {operands : List Operand}
    {addresses : List Address} {action : Action}
    (hresolve : target.resolve? mnemonic = some (cls, id))
    (ha : List.Forall₂ pos.Denotes operands addresses)
    (haction : Reading.action? id mnemonic cls addresses = some action) (s : Nat)
    (source : SourceLine) :
    (perform target ⟨s, source, action⟩).Agrees w (r.command target source mnemonic operands)
      (fun _ v r' => Sim t pos v r') := by
  unfold Run.command
  rw [hresolve]
  by_cases hcls : cls = .arithmetic
  · subst hcls
    unfold Reading.action? at haction
    split at haction
    · rename_i hclass
      cases hclass
    · rename_i hclass
      cases hclass
    · rename_i hclass
      cases hclass
    · rename_i hclass
      cases hclass
    · rcases Option.map_eq_some_iff.1 haction with ⟨op, hop, rfl⟩
      rcases ha with _ | ⟨hfirst, _ | ⟨hsecond, _ | _⟩⟩
      dsimp only
      rw [hop]
      exact perform_fold h hpos hdesc hfirst hsecond s source op
    · cases haction
  · -- Every other class emits a word.
    have hemit : ∃ command, action = .emit command := by
      unfold Reading.action? at haction
      split at haction
      · exact ⟨_, (Option.some.inj haction).symm⟩
      · exact ⟨_, (Option.some.inj haction).symm⟩
      · exact ⟨_, (Option.some.inj haction).symm⟩
      · exact ⟨_, (Option.some.inj haction).symm⟩
      · exact absurd rfl hcls
      · cases haction
    rcases hemit with ⟨command, rfl⟩
    have hperform := perform_emit target h hpos hdesc ha haction s source
    cases cls with
    | arithmetic => exact absurd rfl hcls
    | noOperand => exact hperform
    | oneOperand => exact hperform
    | twoOperand => exact hperform
    | threeOperand => exact hperform

/-! ## Variables -/

theorem reset_exec (target : Target) {a b : Address} {c x : Symbol}
    (hx : w.tree.item? a = some (.symbol x))
    (hc : w.tree.item? b = some (.symbol c)) (hvar : c.isVar) (s : Nat) (source : SourceLine) :
    (perform target ⟨s, source, .reset a b⟩).exec w =
      (.ok (), ⟨w.tree.setItem b (.symbol { c with value := x.value }),
        w.log.push (.variableReset source.number b x.value), w.own⟩) := by
  have hreset : w.tree.reset a b source.number =
      .ok (x.value, w.tree.setItem b (.symbol { c with value := x.value })) :=
    ScopeTree.reset_of_variable hx hc hvar source.number
  unfold perform
  dsimp only
  rw [exec_bind, exec_change, hreset]
  rfl

/-- A variable line that finds a variable assigns to it. -/
theorem perform_reset (target : Target) (h : Sim t pos w r) (hpos : Within t pos)
    (hdesc : pos.Descends) {name : String} {value : Operand} {a b : Address} {c : Symbol}
    (ha : pos.Denotes value a) (hb : pos.Denotes (.name name) b)
    (hc : pos.item? b = some (.symbol c)) (hvar : c.isVar) (s : Nat) (source : SourceLine) :
    (perform target ⟨s, source, .reset a b⟩).Agrees w (r.setVar source.number name value)
      (fun _ v r' => Sim t pos v r') := by
  rcases h.denote hpos hdesc ha source.number with ⟨x, hdenx, hx⟩
  rcases (h.fits hpos).exists_item hc with ⟨j, hj, hskel⟩
  rcases Item.skeleton_eq_symbol hskel with ⟨c', rfl, hc'⟩
  have hvar' : c'.isVar = true := by
    unfold Symbol.isVar at hvar ⊢
    rw [← Symbol.skeleton_kind, hc', Symbol.skeleton_kind]
    exact hvar
  have hany : (r.env.find? name).any Symbol.isVar = true := by
    rw [h.find? hpos hb.1, hb.2, Option.bind_some, hj]
    exact hvar'
  have hexec := reset_exec target hx hj hvar' s source
  unfold Run.setVar
  simp only [hdenx, bind, Except.bind]
  rw [if_pos hany]
  exact Agrees.of_exec hexec (h.write hpos hdesc hb hj hvar' x.value _)

/-- A variable line that finds no variable declares one. Unrolling finds the
    variable in its place already, with a value from reading or from an earlier
    trip, but the reset overwrites whatever it was. -/
theorem perform_declare (target : Target) {up : Position} {s : Nat} {items : List Item}
    {name : String} {value : Operand} {a : Address} {v : Int32} {source : SourceLine}
    (h : Sim t (⟨s, items⟩ :: up) w r)
    (hpos : Within t (⟨s, items ++ [.symbol ⟨.var, name, v⟩] ++
      [.instruction ⟨s, source, .reset a ⟨s, items.length⟩⟩]⟩ :: up))
    (hdesc : Position.Descends (⟨s, items⟩ :: up))
    (ha : Position.Denotes (⟨s, items⟩ :: up) value a) (hname : Statement.isIdentifier name)
    (hlacks : Position.LacksVar (⟨s, items⟩ :: up) name) :
    (perform target ⟨s, source, .reset a ⟨s, items.length⟩⟩).Agrees w
      (r.setVar source.number name value)
      (fun _ v' r' => Sim t (⟨s, items ++ [.symbol ⟨.var, name, v⟩] ++
        [.instruction ⟨s, source, .reset a ⟨s, items.length⟩⟩]⟩ :: up) v' r') := by
  have hpos₁ := hpos.shorten
  have hpos₀ := hpos₁.shorten
  rcases h.denote hpos₀ hdesc ha source.number with ⟨x, hdenx, hx⟩
  rcases visible_declare h.skeleton hpos₁ hname with ⟨c, hc, hcskel, -⟩
  have hkind : c.kind = .var := by rw [← Symbol.skeleton_kind, hcskel, Symbol.skeleton_kind]
  have hcname : c.name = name := by rw [← Symbol.skeleton_name, hcskel, Symbol.skeleton_name]
  have hvar : c.isVar = true := decide_eq_true hkind
  have hexec := reset_exec target hx hc hvar s source
  -- The name denotes nothing, or a constant further out.
  have hany : ¬ (r.env.find? name).any Symbol.isVar = true := by
    rw [h.find? hpos₀ hname]
    cases hlookup : Position.lookup (⟨s, items⟩ :: up) name with
    | none => exact Bool.false_ne_true
    | some b =>
        rcases Position.symbol_of_lookup hdesc hlookup with ⟨d, hd, -⟩
        rcases (h.fits hpos₀).exists_item hd with ⟨j, hj, hskel⟩
        rcases Item.skeleton_eq_symbol hskel with ⟨d', rfl, hd'⟩
        have hconst := hlacks b d hlookup hd
        rw [Option.bind_some, hj]
        rw [Symbol.eq_of_skeleton_eq hconst hd']
        exact ne_true_of_eq_false hconst
  unfold Run.setVar
  simp only [hdenx, bind, Except.bind]
  rw [if_neg hany]
  refine Agrees.of_exec hexec (Sim.skip ?_ hpos rfl)
  have hskel : (w.tree.setItem ⟨s, items.length⟩ (.symbol { c with value := x.value })).skeleton =
      t.skeleton := by
    rw [← h.skeleton]
    exact ScopeTree.skeleton_setItem hc (congrArg Item.symbol (Symbol.skeleton_set hvar _))
  refine ⟨hskel, ?_, h.words⟩
  rcases visible_declare hskel hpos₁ hname with ⟨d, hd, -, hvisible⟩
  rw [hvisible, visible_setItem_of_le hdesc (Nat.le_refl _), ← h.env]
  -- What is declared is the symbol that has just been written.
  rw [ScopeTree.item?_setItem_self hc, Option.some.injEq, Item.symbol.injEq] at hd
  rw [← hd, hkind, hcname]

end Unrolling

end UnrollAsm
