import Mathlib.Data.List.Nodup
import UnrollAsm.Proofs.Reading.Instructions
import UnrollAsm.Proofs.Session.Points

/-!
# Names and Literals

An integer in a program is the constant of its own decimal text, which stands in
the same scopes as everything that is declared and is looked up in the same way.
The two are not mixed up. No two symbols of a scope share a name; a symbol is
called by a name that may be declared, or by the text of an integer, and then it
is the constant of that integer. So what an integer operand is resolved to holds
the integer, and since nothing ever writes to a constant, it still does when an
instruction reads it.

For instructions and loops the tree itself tells where they come from: the line
that they carry is one that has been read. What they refer to can therefore be
compared with the operands of that line.

All this holds at every point of a session. Reading adds symbols under names that
are new in their scope; unrolling and clearing leave the skeleton, of which names
and constants are a part.

## Main definitions

* `Symbol.Proper`: A symbol under a name of its kind.
* `Stands`: An address holds an integer operand.
* `Anchored`: Addresses hold the operands of a line that has been read.
* `Unmixed`: Names and integers are kept apart.

## Theorems

* `Unmixed.of_skeleton`, `Unmixed.clear`: Unrolling and clearing keep them apart.
* `Unmixed.push_symbol`, `Unmixed.push_instruction`, `Unmixed.nest`: So does growth.
* `unmixed_invariant`: So does reading.
* `operand_eq_literal_iff`: Which tokens are read as an integer.
* `unmixed_session`: Names and integers at all points of a session.
-/

namespace UnrollAsm

open PassM

/-- The operands that an action takes from its line, in order. -/
def Action.reads : Action → List Address
  | .emit command => command.operands
  | .fold _ first second => [first, second]
  | .reset source _ => [source]
  | .cleared => []

/-- The names of the symbols in a scope. -/
def ScopeTree.namesAt (t : ScopeTree) (s : ScopeId) : List String :=
  (t.itemsAt s).filterMap fun i => i.symbol?.map Symbol.name

/-- The symbol has a name that may be declared, or the text of an integer. In the
    latter case it is the constant with that value. -/
structure Symbol.Proper (c : Symbol) : Prop where
  name : Declarable c.name ∨ ∃ v, c.name = Text.decimal v
  literal : ∀ v, c.name = Text.decimal v → c.kind = .const ∧ c.value = v

/-- If the operand is an integer, the address holds its constant, and is read as
    that integer. -/
def Stands (t : ScopeTree) (op : Operand) (a : Address) : Prop :=
  ∀ v, op = .literal v →
    t.item? a = some (.symbol (.literal v)) ∧ ∀ line, t.valueOf a line = .ok v

/-- The source is one of the given lines, and the integers among the operands of
    this line stand at the given addresses. -/
def Anchored (given : List (Nat × String)) (t : ScopeTree) (source : SourceLine)
    (addresses : List Address) : Prop :=
  ∃ number text st, (number, text) ∈ given ∧ source = .of number text ∧
    Statement.parse number text = .ok st ∧ List.Forall₂ (Stands t) st.operands addresses

/-- Names and integers are kept apart in a tree that the given lines have been
    read into. -/
structure Unmixed (given : List (Nat × String)) (t : ScopeTree) : Prop where
  /-- No two symbols of a scope share a name. -/
  distinct : ∀ s, (t.namesAt s).Nodup
  symbols : ∀ a c, t.item? a = some (.symbol c) → c.Proper
  /-- The integers in the line of an instruction are what it reads. -/
  instructions : ∀ a i, t.item? a = some (.instruction i) →
    i.action = .cleared ∨ Anchored given t i.source i.action.reads
  /-- So are those in the line of a loop. -/
  headers : ∀ s h, t.headerAt s = some h → Anchored given t h.source h.operands

/-! ## Symbols -/

namespace Symbol

theorem proper_literal (v : Int32) : (literal v).Proper where
  name := Or.inr ⟨v, rfl⟩
  literal _ h := ⟨rfl, Text.decimal_injective h⟩

-- The text of an integer is no name that may be declared.
theorem proper_of_declarable {c : Symbol} (h : Declarable c.name) : c.Proper where
  name := Or.inl h
  literal v hv := absurd (hv ▸ h.1) (isIdentifier_decimal v)

theorem Proper.eq_literal {c : Symbol} (h : c.Proper) {v : Int32}
    (hv : c.name = Text.decimal v) : c = .literal v := by
  rcases h.literal v hv with ⟨hkind, hvalue⟩
  rcases c with ⟨kind, name, value⟩
  obtain rfl : kind = .const := hkind
  obtain rfl : value = v := hvalue
  obtain rfl : name = Text.decimal value := hv
  rfl

-- A name and a constant are part of the skeleton.
theorem Proper.of_skeleton {c d : Symbol} (h : d.Proper) (hskel : c.skeleton = d.skeleton) :
    c.Proper := by
  have hname : c.name = d.name := by rw [← skeleton_name, hskel, skeleton_name]
  refine ⟨hname ▸ h.name, fun v hv => ?_⟩
  have hd := h.literal v (hname ▸ hv)
  have hconst : d.isVar = false := by
    unfold isVar
    rw [hd.1]
    rfl
  exact eq_of_skeleton_eq hconst hskel ▸ hd

end Symbol

/-! ## Operands -/

section Operands

variable {given more : List (Nat × String)} {t u : ScopeTree} {source : SourceLine}
  {addresses : List Address} {op : Operand} {a : Address} {s : Nat}

-- Constants that stay where they are still hold their integers.
theorem Stands.keep (h : Stands t op a)
    (hkeep : ∀ v, t.item? a = some (.symbol (.literal v)) →
      u.item? a = some (.symbol (.literal v))) :
    Stands u op a := by
  intro v hv
  have hitem := hkeep v (h v hv).1
  exact ⟨hitem, fun line => ScopeTree.valueOf_eq hitem line⟩

theorem Anchored.mono (h : Anchored given t source addresses) (hsub : given ⊆ more) :
    Anchored more t source addresses := by
  rcases h with ⟨number, text, st, hmem, hrest⟩
  exact ⟨number, text, st, hsub hmem, hrest⟩

theorem Anchored.keep (h : Anchored given t source addresses)
    (hkeep : ∀ a v, t.item? a = some (.symbol (.literal v)) →
      u.item? a = some (.symbol (.literal v))) :
    Anchored given u source addresses := by
  rcases h with ⟨number, text, st, hmem, hsource, hparse, hops⟩
  exact ⟨number, text, st, hmem, hsource, hparse, hops.imp fun op a hop => hop.keep (hkeep a)⟩

end Operands

/-! ## Unrolling and clearing -/

namespace Unmixed

variable {given more : List (Nat × String)} {t u : ScopeTree}

theorem mono (h : Unmixed given t) (hsub : given ⊆ more) : Unmixed more t where
  distinct := h.distinct
  symbols := h.symbols
  instructions a i hi := (h.instructions a i hi).imp_right fun hline => hline.mono hsub
  headers s hd hh := (h.headers s hd hh).mono hsub

theorem empty : Unmixed [] .empty where
  distinct s := by
    have hitems : ScopeTree.empty.itemsAt s = [] := by
      cases s <;> simp [ScopeTree.empty, ScopeTree.itemsAt, Scope.fresh]
    unfold ScopeTree.namesAt
    rw [hitems]
    exact List.nodup_nil
  symbols a c hc := by
    rw [item?_empty] at hc
    cases hc
  instructions a i hi := by
    rw [item?_empty] at hi
    cases hi
  headers s h hh := by
    have hnone : ScopeTree.empty.headerAt s = none := by
      cases s <;> simp [ScopeTree.empty, ScopeTree.headerAt, Scope.fresh]
    rw [hnone] at hh
    cases hh

/-- Trees of one skeleton keep names and integers apart alike. -/
theorem of_skeleton (h : Unmixed given t) (hskel : u.skeleton = t.skeleton) :
    Unmixed given u := by
  have hkeep : ∀ a v, t.item? a = some (.symbol (.literal v)) →
      u.item? a = some (.symbol (.literal v)) := by
    intro a v ha
    rcases ScopeTree.exists_item hskel ha with ⟨j, hj, hjskel⟩
    rcases Item.skeleton_eq_symbol hjskel with ⟨c, rfl, hc⟩
    rw [hj, Symbol.eq_of_skeleton_eq rfl hc]
  refine ⟨fun s => ?_, fun a c hc => ?_, fun a i hi => ?_, fun s hd hh => ?_⟩
  · have hcomp : (fun i : Item => i.symbol?.map Symbol.name) ∘ Item.skeleton =
        fun i : Item => i.symbol?.map Symbol.name := by
      funext i
      cases i with
      | symbol c => exact congrArg some (Symbol.skeleton_name c)
      | instruction _ => rfl
      | loop _ => rfl
    have hnames : u.namesAt s = t.namesAt s := by
      have hitems := congrArg (List.filterMap fun i : Item => i.symbol?.map Symbol.name)
        (ScopeTree.items_of_skeleton hskel s)
      rwa [List.filterMap_map, List.filterMap_map, hcomp] at hitems
    rw [hnames]
    exact h.distinct s
  · rcases ScopeTree.exists_item hskel.symm hc with ⟨j, hj, hjskel⟩
    rcases Item.skeleton_eq_symbol hjskel with ⟨d, rfl, hd⟩
    exact (h.symbols a d hj).of_skeleton hd.symm
  · rcases ScopeTree.exists_item hskel.symm hi with ⟨j, hj, hjskel⟩
    obtain rfl := Item.eq_of_skeleton_eq rfl hjskel
    exact (h.instructions a i hj).imp_right fun hline => hline.keep hkeep
  · rcases ScopeTree.exists_header hskel.symm hh with ⟨hd', hh', hdskel⟩
    have hline := (h.headers s hd' hh').keep hkeep
    simp only [LoopHeader.skeleton, LoopHeader.mk.injEq, and_true] at hdskel
    rcases hdskel with ⟨hstart, hstop, hstep, hsource⟩
    unfold LoopHeader.operands at hline ⊢
    rwa [hstart, hstop, hstep, hsource] at hline

theorem clear (h : Unmixed given t) : Unmixed given t.clear := by
  have hkeep : ∀ a v, t.item? a = some (.symbol (.literal v)) →
      t.clear.item? a = some (.symbol (.literal v)) := by
    intro a v ha
    rw [ScopeTree.item?_clear, ha]
    rfl
  refine ⟨fun s => ?_, fun a c hc => ?_, fun a i hi => ?_, fun s hd hh => ?_⟩
  · have hcomp : (fun i : Item => i.symbol?.map Symbol.name) ∘ Item.clear =
        fun i : Item => i.symbol?.map Symbol.name := by
      funext i
      cases i <;> rfl
    unfold ScopeTree.namesAt
    rw [ScopeTree.itemsAt_clear, List.filterMap_map, hcomp]
    exact h.distinct s
  · rw [ScopeTree.item?_clear, Option.map_eq_some_iff] at hc
    rcases hc with ⟨j, hj, hclear⟩
    cases j with
    | symbol d =>
        cases hclear
        exact h.symbols a c hj
    | instruction _ => cases hclear
    | loop _ => cases hclear
  · rw [ScopeTree.item?_clear, Option.map_eq_some_iff] at hi
    rcases hi with ⟨j, hj, hclear⟩
    cases j with
    | symbol _ => cases hclear
    | instruction _ =>
        cases hclear
        exact Or.inl rfl
    | loop _ => cases hclear
  · rw [ScopeTree.headerAt_clear] at hh
    exact (h.headers s hd hh).keep hkeep

/-! ## Growth -/

/-- A new item keeps names and integers apart if it does so itself. -/
theorem gains (h : Unmixed given t) {m : Address} {item : Item} (hgains : Gains t u m item)
    (hdistinct : ∀ s, (u.namesAt s).Nodup) (hsymbol : ∀ c, item = .symbol c → c.Proper)
    (hinstruction : ∀ i, item = .instruction i → Anchored given t i.source i.action.reads)
    (hheader : ∀ s hd, u.headerAt s = some hd →
      t.headerAt s = some hd ∨ Anchored given t hd.source hd.operands) :
    Unmixed given u := by
  have hkeep : ∀ a v, t.item? a = some (.symbol (.literal v)) →
      u.item? a = some (.symbol (.literal v)) := fun a v => hgains.keep
  refine ⟨hdistinct, fun a c hc => ?_, fun a i hi => ?_, fun s hd hh => ?_⟩
  · rcases (hgains.item a _).1 hc with hc | ⟨-, hitem⟩
    · exact h.symbols a c hc
    · exact hsymbol c hitem.symm
  · rcases (hgains.item a _).1 hi with hi | ⟨-, hitem⟩
    · exact (h.instructions a i hi).imp_right fun hline => hline.keep hkeep
    · exact Or.inr ((hinstruction i hitem.symm).keep hkeep)
  · rcases hheader s hd hh with hh | hline
    · exact (h.headers s hd hh).keep hkeep
    · exact hline.keep hkeep

variable {s : Nat}

theorem namesAt_push (item : Item) (hs : s < t.size) (r : Nat) :
    (t.push s item).namesAt r =
      if s = r then t.namesAt r ++ (item.symbol?.map Symbol.name).toList else t.namesAt r := by
  unfold ScopeTree.namesAt
  by_cases hr : s = r
  · subst hr
    rw [if_pos rfl, ScopeTree.itemsAt_push_self item hs, List.filterMap_append]
    cases item <;> rfl
  · rw [if_neg hr, ScopeTree.itemsAt_push_of_ne hr]

-- A name that is not found in a scope is not among the names there.
theorem not_mem_namesAt {name : String}
    (hfresh : (t.itemsAt s).findIdx? (Item.isNamed name) = none) : name ∉ t.namesAt s := by
  intro hmem
  rcases List.mem_filterMap.1 hmem with ⟨item, hitem, hname⟩
  have hnot := List.findIdx?_eq_none_iff.1 hfresh item hitem
  cases item with
  | symbol c =>
      cases hname
      simp only [Item.isNamed, decide_true, Bool.true_eq_false] at hnot
  | instruction _ => cases hname
  | loop _ => cases hname

theorem push_symbol (h : Unmixed given t) (hs : s < t.size) {c : Symbol} (hc : c.Proper)
    (hfresh : (t.itemsAt s).findIdx? (Item.isNamed c.name) = none) :
    Unmixed given (t.push s (.symbol c)) := by
  refine h.gains (Gains.push _ hs) (fun r => ?_) (fun d hd => ?_) (fun i hi => (by cases hi))
    fun r hd hh => ?_
  · rw [namesAt_push _ hs]
    split
    · rename_i hr
      subst hr
      refine List.Nodup.append (h.distinct s) (List.nodup_singleton c.name) ?_
      exact List.disjoint_singleton.2 (not_mem_namesAt hfresh)
    · exact h.distinct r
  · cases hd
    exact hc
  · rw [ScopeTree.headerAt_push] at hh
    exact Or.inl hh

theorem push_instruction (h : Unmixed given t) (hs : s < t.size) {i : Instruction}
    (hi : Anchored given t i.source i.action.reads) :
    Unmixed given (t.push s (.instruction i)) := by
  refine h.gains (Gains.push _ hs) (fun r => ?_) (fun c hc => (by cases hc)) (fun j hj => ?_)
    fun r hd hh => ?_
  · rw [namesAt_push _ hs]
    split
    · rw [show (Item.symbol? (.instruction i)).map Symbol.name = none from rfl, Option.toList_none,
        List.append_nil]
      exact h.distinct r
    · exact h.distinct r
  · cases hj
    exact hi
  · rw [ScopeTree.headerAt_push] at hh
    exact Or.inl hh

theorem nest (h : Unmixed given t) (hs : s < t.size) {header : LoopHeader}
    (hline : Anchored given t header.source header.operands) :
    Unmixed given (t.nest s header) := by
  refine h.gains (Gains.nest header hs) (fun r => ?_) (fun c hc => (by cases hc))
    (fun i hi => (by cases hi)) fun r hd hh => ?_
  · -- The marker has no name, and the body has no items yet.
    have hnames : (t.nest s header).namesAt r = t.namesAt r ∨ (t.nest s header).namesAt r = [] := by
      unfold ScopeTree.namesAt
      by_cases hlt : r < t.size
      · rw [ScopeTree.itemsAt_nest header hlt]
        split
        · rw [List.filterMap_append]
          exact Or.inl (List.append_nil _)
        · exact Or.inl rfl
      · refine Or.inr ?_
        by_cases hnew : r = t.size
        · rw [hnew, ScopeTree.itemsAt_nest_body header hs]
          rfl
        · have hnone : (t.nest s header).scopes[r]? = none := by
            have hsize : t.size + 1 ≤ r := Nat.lt_of_le_of_ne (Nat.not_lt.1 hlt) (Ne.symm hnew)
            refine Array.getElem?_eq_none ?_
            rw [show (t.nest s header).scopes.size = t.size + 1 from ScopeTree.size_nest t s header]
            exact hsize
          unfold ScopeTree.itemsAt
          rw [hnone]
          rfl
    rcases hnames with hnames | hnames
    · rw [hnames]
      exact h.distinct r
    · rw [hnames]
      exact List.nodup_nil
  · have hlt := ScopeTree.lt_size_of_headerAt hh
    rw [ScopeTree.size_nest] at hlt
    by_cases hold : r < t.size
    · rw [ScopeTree.headerAt_nest header hold] at hh
      exact Or.inl hh
    · obtain rfl : r = t.size := Nat.le_antisymm (Nat.lt_succ_iff.1 hlt) (Nat.not_lt.1 hold)
      rw [ScopeTree.headerAt_nest_body header hs] at hh
      cases hh
      exact Or.inr hline

/-! ## Reading -/

/-- An integer operand that has been resolved stands where it was resolved to. -/
theorem stands (h : Unmixed given t) (hs : s < t.size) {op : Operand} {a : Address}
    (ha : Resolved t s op a) : Stands t op a := by
  rintro v rfl
  rcases symbol_of_find hs ha with ⟨c, hc, hname⟩
  obtain rfl : c = .literal v := (h.symbols a c hc).eq_literal hname
  exact ⟨hc, fun line => ScopeTree.valueOf_eq hc line⟩

theorem stocks (h : Unmixed given t) (hs : s < t.size) (hstock : Stocks s t u) :
    Unmixed given u := by
  induction hstock with
  | refl => exact h
  | push hrest hnone ih =>
      have hu : s < _ := hrest.size_eq ▸ hs
      exact ih.push_symbol hu (Symbol.proper_literal _) (findIdx?_of_find hu hnone)

theorem declare (h : Unmixed given t) (hs : s < t.size) {number : Nat} {text name : String}
    {st : Statement} (hparse : Statement.parse number text = .ok st)
    (hst : st.declared? = some name) (kind : SymbolKind) (v : Int32)
    (hfresh : (t.itemsAt s).findIdx? (Item.isNamed name) = none) :
    Unmixed given (t.push s (.symbol ⟨kind, name, v⟩)) :=
  h.push_symbol hs (Symbol.proper_of_declarable (Statement.declarable_of_parse hparse hst)) hfresh

end Unmixed

-- Only a reset has an operand that its line does not have.
theorem reads_of_action? {id : Nat} {mnemonic : String} {cls : InstructionClass}
    {addresses : List Address} {action : Action}
    (h : Reading.action? id mnemonic cls addresses = some action) : action.reads = addresses := by
  rcases operands_of_action? h with ⟨hops, hreset⟩
  rw [← hops]
  cases action with
  | emit _ => rfl
  | fold _ _ _ => rfl
  | reset a b => exact absurd rfl (hreset a b)
  | cleared => rfl

/-- Reading some lines keeps names and integers apart. -/
theorem unmixed_invariant (target : Target) (given lines : List (Nat × String)) :
    Reading.InvariantOn target lines fun t _ => Unmixed (given ++ lines) t where
  stocks hsound h hstock := h.stocks hsound.current hstock
  grows := by
    intro number text st t t' s s' hline hparse hsound h hgrows
    have hs := hsound.current
    -- The line itself is among those that have been read.
    have hanchor : ∀ {u addresses}, List.Forall₂ (Stands u) st.operands addresses →
        Anchored (given ++ lines) u (.of number text) addresses := fun hops =>
      ⟨number, text, st, List.mem_append_right given hline, rfl, hparse, hops⟩
    cases hgrows with
    | empty => exact h
    | pool _ => exact h
    | const hfresh => exact h.declare hs hparse rfl _ _ hfresh
    | reset hstock hvalue _ _ _ =>
        have hsu := (hstock.sound hsound).current
        have hu := h.stocks hs hstock
        exact hu.push_instruction hsu (hanchor (.cons (hu.stands hsu hvalue) .nil))
    | @declare _ u _ name value a v hstock hvalue _ hfresh =>
        have hsu := (hstock.sound hsound).current
        have hu := h.stocks hs hstock
        have hnew := hu.declare hsu hparse rfl .var v hfresh
        have hstands : Stands (u.push s (.symbol ⟨.var, name, v⟩)) value a :=
          (hu.stands hsu hvalue).keep fun _ => (Gains.push _ hsu).keep
        refine hnew.push_instruction ?_ (hanchor (.cons hstands .nil))
        rw [ScopeTree.size_push]
        exact hsu
    | loop hstock hstart hstop hstep hsource _ _ =>
        have hsu := (hstock.sound hsound).current
        have hu := h.stocks hs hstock
        refine hu.nest hsu ?_
        rw [hsource]
        exact hanchor (.cons (hu.stands hsu hstart) (.cons (hu.stands hsu hstop)
          (.cons (hu.stands hsu hstep) .nil)))
    | command _ hstock haddresses haction =>
        have hsu := (hstock.sound hsound).current
        have hu := h.stocks hs hstock
        refine hu.push_instruction hsu (hanchor ?_)
        rw [reads_of_action? haction]
        exact haddresses.imp fun op a ha => hu.stands hsu ha

theorem unmixed_lasting (target : Target) : Lasting target Unmixed where
  empty := Unmixed.empty
  read := by
    intro given t lines hrooted h
    have hstart : Unmixed (given ++ lines) t := h.mono (List.subset_append_left given lines)
    rcases (unmixed_invariant target given lines).run hrooted hstart with ⟨-, hafter⟩
    exact hafter
  unroll h hskel := h.of_skeleton hskel
  clear h := h.clear

/-- An integer is resolved without fail, to an address that holds it. -/
theorem Unmixed.resolve_literal {given : List (Nat × String)} {w : Work ScopeId}
    (h : Unmixed given w.tree) (hw : Sound w.tree w.own) (line : Nat) (value : Int32) :
    ∃ a v, (Reading.resolve line (.literal value)).exec w = (.ok a, v) ∧
      Stands v.tree (.literal value) a := by
  have hmeets := Reading.resolve_meets line (.literal value) hw
  unfold Meets at hmeets
  rcases hexec : (Reading.resolve line (.literal value)).exec w with ⟨(d | f) | a, v⟩
  · rw [hexec] at hmeets
    rcases hmeets with ⟨-, u, name, -, hname, -⟩
    cases hname
  · rw [hexec] at hmeets
    exact hmeets.elim
  · rw [hexec] at hmeets
    rcases hmeets with ⟨hv, ha⟩
    have hs : w.own < v.tree.size := hv.stocks.size_eq ▸ hw.current
    exact ⟨a, v, rfl, (h.stocks hw.current hv.stocks).stands hs ha⟩

/-! ## Tokens -/

theorem toInt_ofInt_of_fits {n : Int} (h : fitsValue n) : (Int32.ofInt n).toInt = n := by
  simp only [fitsValue, Bool.and_eq_true, decide_eq_true_eq] at h
  exact Int32.toInt_ofInt_of_le h.1 h.2

theorem fits_toInt (v : Int32) : fitsValue v.toInt := by
  simp only [fitsValue, Bool.and_eq_true, decide_eq_true_eq]
  exact ⟨v.le_toInt, v.toInt_lt⟩

/-- A token is an integer operand exactly if it denotes the integer, whatever its
    sign and its leading zeros. -/
theorem operand_eq_literal_iff (token : String) (v : Int32) :
    Statement.operand token = .ok (.literal v) ↔ Text.integer? token.toList = some v.toInt := by
  unfold Statement.operand
  cases Text.integer? token.toList with
  | none =>
      dsimp only
      split
      · exact ⟨fun h => (by cases h), fun h => (by cases h)⟩
      · exact ⟨fun h => (by cases h), fun h => (by cases h)⟩
  | some n =>
      dsimp only
      by_cases hfits : fitsValue n = true
      · rw [if_pos hfits]
        constructor
        · rintro ⟨⟩
          rw [toInt_ofInt_of_fits hfits]
        · rintro ⟨⟩
          rw [Int32.ofInt_toInt]
      · rw [if_neg hfits]
        refine ⟨fun h => (by cases h), ?_⟩
        rintro ⟨⟩
        exact absurd (fits_toInt v) hfits

example : ["-0", "+007", "-2147483648"].map Statement.operand =
    [.ok (.literal 0), .ok (.literal 7), .ok (.literal (-2147483648))] := by decide +kernel

/-- For every target and after any calls, failed ones included: names and integers
    are kept apart in the tree of the session. They are kept apart at every point
    of reading further lines, where any integer is resolved to an address that
    holds it; and at every point of unrolling. The tokens that denote an integer
    are exactly those that are read as the operand of that integer. -/
theorem unmixed_session (target : Target) (calls : List Call) :
    Unmixed (linesOf calls) (history target calls).tree ∧
    (∀ lines v, Reading.Point target lines ⟨(history target calls).tree, #[], .root⟩ v →
      Unmixed (linesOf calls ++ lines) v.tree ∧
      ∀ line value, ∃ a v', (Reading.resolve line (.literal value)).exec v = (.ok a, v') ∧
        Stands v'.tree (.literal value) a) ∧
    (∀ v, Unrolling.Point target (history target calls).tree.size .root
        ⟨(history target calls).tree, #[], #[]⟩ v → Unmixed (linesOf calls) v.tree) ∧
    ∀ token value, Statement.operand token = .ok (.literal value) ↔
      Text.integer? token.toList = some value.toInt := by
  have hunmixed := (unmixed_lasting target).history calls
  have hrooted := (healthy_history target calls).rooted
  refine ⟨hunmixed, fun lines v hv => ?_, fun v hv => ?_, operand_eq_literal_iff⟩
  · have hstart : Unmixed (linesOf calls ++ lines) (history target calls).tree :=
      hunmixed.mono (List.subset_append_left _ lines)
    have hpoint := (unmixed_invariant target (linesOf calls) lines).point
      (fun x _ hparse hsound h hfresh => h.declare hsound.current hparse rfl .var x hfresh)
      ⟨hrooted, hrooted.nonempty⟩ hstart hv
    exact ⟨hpoint.2, hpoint.2.resolve_literal hpoint.1⟩
  · exact hunmixed.of_skeleton (hv.skeleton hrooted rfl)

end UnrollAsm
