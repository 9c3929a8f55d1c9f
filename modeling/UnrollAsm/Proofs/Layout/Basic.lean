import UnrollAsm.Proofs.Layout.Position
import UnrollAsm.Session.Reading

/-!
# Layouts

How a block lies in a tree. The clauses of a block appear in order among the
items of its scope, each as the few items that its line appended, with the
literals that were first needed there strewn in between. The body of a loop lies
in a scope of its own, and scopes are numbered in the order in which their loops
open: the scope of a block comes first, then those of its first loop and
everything inside it, then those of the second.

Operands have become addresses. A layout says of each that it is the address
which the operand denotes at the position of its line, so whatever was decided
about names while reading is on record here, and no later argument has to look
at the reader again.

A program that is read only up to some line has loops that are still open.
`Opened` is the chain of these, and `Reads` adds the block being written.

## Main definitions

* `Position.Denotes`: The address of an operand at a position.
* `Lays`: A block lies in a scope, and in the scopes inside it.
* `Opened`: The loops around a scope, laid out up to their markers.
* `Reads`: A tree holds what an outline says.

## Theorems

* `Lays.lt`: Scopes inside a block have higher numbers than its own.
* `Lays.congr`: A layout depends on the scopes inside the block only.
* `Lays.named`: Every symbol of a layout is declared or a literal.
* `Opened.find_eq`: Names are looked up at the position.
-/

namespace UnrollAsm

namespace Position

/-- The address that an operand has at a position: a name is looked up, and for
    a literal any symbol that stands for it will do. -/
def Denotes (pos : Position) : Operand → Address → Prop
  | .literal v, a => pos.item? a = some (.symbol (.literal v))
  | .name name, a => Statement.isIdentifier name ∧ pos.lookup name = some a

/-- The name does not denote a variable at a position. -/
def LacksVar (pos : Position) (name : String) : Prop :=
  ∀ a c, pos.lookup name = some a → pos.item? a = some (.symbol c) → c.isVar = false

end Position

/-- The header belongs to a loop that opens with the given line at a position. -/
structure Announces (pos : Position) (line : LoopLine) (h : LoopHeader) : Prop where
  start : pos.Denotes line.start h.start
  stop : pos.Denotes line.stop h.stop
  step : pos.Denotes line.step h.step
  source : h.source = line.source

/-- A block lies in the scope `s`: the items are what its clauses appended, and
    the scopes inside it are those from `s + 1` up to `hi`. The position lists
    the scopes around. -/
inductive Lays (target : Target) (t : ScopeTree) :
    Position → Nat → Block → List Item → Nat → Prop
  | nil {up : Position} {s : Nat} : Lays target t up s [] [] (s + 1)
  /-- A literal is appended where it is first used, and belongs to no clause. -/
  | literal {up : Position} {s hi : Nat} {block : Block} {items : List Item} (v : Int32) :
      Lays target t up s block items hi →
      Lays target t up s block (items ++ [.symbol (.literal v)]) hi
  | const {up : Position} {s hi : Nat} {block : Block} {items : List Item} {name : String}
      (value : Int32) :
      Lays target t up s block items hi → Statement.isIdentifier name →
      Lays target t up s (block ++ [.const name value])
        (items ++ [.symbol ⟨.const, name, value⟩]) hi
  /-- A variable line that finds a variable only resets it. -/
  | reset {up : Position} {s hi : Nat} {block : Block} {items : List Item} {name : String}
      {value : Operand} {a b : Address} {c : Symbol} (source : SourceLine) :
      Lays target t up s block items hi →
      Position.Denotes (⟨s, items⟩ :: up) value a →
      Position.Denotes (⟨s, items⟩ :: up) (.name name) b →
      Position.item? (⟨s, items⟩ :: up) b = some (.symbol c) → c.isVar →
      Lays target t up s (block ++ [.var source name value])
        (items ++ [.instruction ⟨s, source, .reset a b⟩]) hi
  /-- A variable line that finds none declares it first, and then resets it. -/
  | declare {up : Position} {s hi : Nat} {block : Block} {items : List Item} {name : String}
      {value : Operand} {a : Address} (source : SourceLine) (v : Int32) :
      Lays target t up s block items hi →
      Position.Denotes (⟨s, items⟩ :: up) value a → Statement.isIdentifier name →
      Position.LacksVar (⟨s, items⟩ :: up) name →
      Lays target t up s (block ++ [.var source name value])
        (items ++ [.symbol ⟨.var, name, v⟩] ++
          [.instruction ⟨s, source, .reset a ⟨s, items.length⟩⟩]) hi
  | command {up : Position} {s hi : Nat} {block : Block} {items : List Item}
      {mnemonic : String} {operands : List Operand} {addresses : List Address}
      {cls : InstructionClass} {id : Nat} {action : Action} (source : SourceLine) :
      Lays target t up s block items hi →
      target.resolve? mnemonic = some (cls, id) →
      List.Forall₂ (Position.Denotes (⟨s, items⟩ :: up)) operands addresses →
      Reading.action? id mnemonic cls addresses = some action →
      Lays target t up s (block ++ [.command source mnemonic operands])
        (items ++ [.instruction ⟨s, source, action⟩]) hi
  /-- The body of a loop gets the next number, and so do the scopes inside it. -/
  | loop {up : Position} {s c hi : Nat} {block body : Block} {items : List Item}
      {line : LoopLine} {h : LoopHeader} :
      Lays target t up s block items c →
      t.headerAt c = some h → Announces (⟨s, items⟩ :: up) line h →
      Lays target t (⟨s, items⟩ :: up) c body (t.itemsAt c) hi →
      Lays target t up s (block ++ [.loop line body]) (items ++ [.loop c]) hi

/-- The loops that are open around the scope `s`, with the position that they
    make up: each has its marker as the last item of the scope it stands in. -/
inductive Opened (target : Target) (t : ScopeTree) :
    List (LoopLine × Block) → Nat → Position → Prop
  | root : t.headerAt 0 = none → t.parentAt 0 = none → Opened target t [] 0 []
  | loop {around : List (LoopLine × Block)} {up : Position} {s c : Nat} {block : Block}
      {items : List Item} {line : LoopLine} {h : LoopHeader} :
      Opened target t around s up →
      Lays target t up s block items c → t.itemsAt s = items ++ [.loop c] →
      t.parentAt c = some s → t.headerAt c = some h → Announces (⟨s, items⟩ :: up) line h →
      Opened target t ((line, block) :: around) c (⟨s, items⟩ :: up)

/-- The tree holds what an outline says, `s` being the scope of the block that
    is being written. -/
structure Reads (target : Target) (o : Outline) (t : ScopeTree) (s : Nat) (up : Position) :
    Prop where
  opened : Opened target t o.around s up
  lays : Lays target t up s o.block (t.itemsAt s) t.size

namespace Lays

variable {target : Target} {t u : ScopeTree} {up : Position} {s hi : Nat} {block : Block}
  {items : List Item}

/-- Scopes inside a block have higher numbers than its own. -/
theorem lt (h : Lays target t up s block items hi) : s < hi := by
  induction h with
  | nil => exact Nat.lt_succ_self _
  | literal _ _ ih => exact ih
  | const _ _ _ ih => exact ih
  | reset _ _ _ _ _ _ ih => exact ih
  | declare _ _ _ _ _ _ ih => exact ih
  | command _ _ _ _ _ ih => exact ih
  | loop _ _ _ _ ih ihbody => exact Nat.lt_trans ih ihbody

/-- A layout depends on the scopes inside the block only. -/
theorem congr (h : Lays target t up s block items hi)
    (heq : ∀ r, s < r → r < hi → u.scopes[r]? = t.scopes[r]?) :
    Lays target u up s block items hi := by
  induction h with
  | nil => exact nil
  | literal v _ ih => exact literal v (ih heq)
  | const value _ hname ih => exact const value (ih heq) hname
  | reset source _ hvalue hvar hitem hkind ih =>
      exact reset source (ih heq) hvalue hvar hitem hkind
  | declare source v _ hvalue hname hlacks ih =>
      exact declare source v (ih heq) hvalue hname hlacks
  | command source _ hresolve haddr haction ih =>
      exact command source (ih heq) hresolve haddr haction
  | loop hlays hheader hline hbody ih ihbody =>
      have hc := heq _ hlays.lt hbody.lt
      refine loop (ih fun r hs hr => heq r hs (Nat.lt_trans hr hbody.lt))
        (ScopeTree.headerAt_congr hc ▸ hheader) hline ?_
      rw [ScopeTree.itemsAt_congr hc]
      exact ihbody fun r hs hr => heq r (Nat.lt_trans hlays.lt hs) hr

/-- Every symbol of a layout is declared under an identifier, or a literal. -/
theorem named (h : Lays target t up s block items hi) {c : Symbol}
    (hc : Item.symbol c ∈ items) : Statement.isIdentifier c.name ∨ ∃ v, c = .literal v := by
  induction h with
  | nil => cases hc
  | literal v _ ih =>
      rcases List.mem_append.1 hc with hc | hc
      · exact ih hc
      · cases List.mem_singleton.1 hc
        exact Or.inr ⟨v, rfl⟩
  | const _ _ hname ih =>
      rcases List.mem_append.1 hc with hc | hc
      · exact ih hc
      · cases List.mem_singleton.1 hc
        exact Or.inl hname
  | declare _ _ _ _ hname _ ih =>
      rcases List.mem_append.1 hc with hc | hc
      · rcases List.mem_append.1 hc with hc | hc
        · exact ih hc
        · cases List.mem_singleton.1 hc
          exact Or.inl hname
      · cases List.mem_singleton.1 hc
  | reset _ _ _ _ _ _ ih | command _ _ _ _ _ ih | loop _ _ _ _ ih _ =>
      rcases List.mem_append.1 hc with hc | hc
      · exact ih hc
      · cases List.mem_singleton.1 hc

end Lays

namespace Opened

variable {target : Target} {t u : ScopeTree} {around : List (LoopLine × Block)} {s : Nat}
  {up : Position}

/-- The scopes of the position are told apart by their numbers. -/
theorem descends (h : Opened target t around s up) (items : List Item) :
    Position.Descends (⟨s, items⟩ :: up) := by
  induction h generalizing items with
  | root _ _ => exact List.pairwise_singleton _ _
  | @loop _ _ _ _ _ inner _ _ _ hlays _ _ _ _ ih =>
      have hpos := ih inner
      refine List.pairwise_cons.2 ⟨fun q hq => ?_, hpos⟩
      rcases List.mem_cons.1 hq with rfl | hq
      · exact hlays.lt
      · exact Nat.lt_trans ((List.pairwise_cons.1 hpos).1 q hq) hlays.lt

/-- Every symbol at the position is declared under an identifier, or a
    literal. -/
theorem named (h : Opened target t around s up) {p : Stretch} (hp : p ∈ up) {c : Symbol}
    (hc : Item.symbol c ∈ p.items) : Statement.isIdentifier c.name ∨ ∃ v, c = .literal v := by
  induction h with
  | root _ _ => cases hp
  | loop _ hlays _ _ _ _ ih =>
      rcases List.mem_cons.1 hp with rfl | hp
      · exact hlays.named hc
      · exact ih hp

/-- The chain depends on older scopes, and on the scope itself only for what it
    is nested in. -/
theorem congr (h : Opened target t around s up)
    (heq : ∀ r, r < s → u.scopes[r]? = t.scopes[r]?) (hheader : u.headerAt s = t.headerAt s)
    (hparent : u.parentAt s = t.parentAt s) : Opened target u around s up := by
  induction h with
  | root hh hp => exact root (hheader.trans hh) (hparent.trans hp)
  | loop _ hlays hitems hp hh hline ih =>
      have hs := heq _ hlays.lt
      refine loop (ih (fun r hr => heq r (Nat.lt_trans hr hlays.lt))
        (ScopeTree.headerAt_congr hs) (ScopeTree.parentAt_congr hs))
        (hlays.congr fun r _ hr => heq r hr) ?_ (hparent.trans hp) (hheader.trans hh) hline
      rw [ScopeTree.itemsAt_congr hs]
      exact hitems

/-- Names are looked up at the position. The marker at the end of an outer scope
    does not matter, for it has no name. -/
theorem find_eq (h : Opened target t around s up) (hs : s < t.size) (name : String) :
    t.find s name = .ok (Position.lookup (⟨s, t.itemsAt s⟩ :: up) name) := by
  induction h with
  | root _ hparent =>
      rw [ScopeTree.find_step hs, hparent, Position.lookup]
      cases (t.itemsAt 0).findIdx? (Item.isNamed name) with
      | none => rfl
      | some index => rfl
  | @loop _ up s c _ items _ _ _ hlays hitems hparent _ _ ih =>
      have hmarker : Position.lookup (⟨s, t.itemsAt s⟩ :: up) name =
          Position.lookup (⟨s, items⟩ :: up) name := by
        simp only [Position.lookup, hitems, List.findIdx?_append, List.findIdx?_singleton,
          Item.isNamed, Bool.false_eq_true, if_false, Option.map_none, Option.or_none]
      rw [ScopeTree.find_step hs, hparent, Position.lookup]
      cases (t.itemsAt c).findIdx? (Item.isNamed name) with
      | some index => rfl
      | none =>
          simp only [if_pos hlays.lt]
          rw [ih (Nat.lt_trans hlays.lt hs), hmarker]

end Opened

end UnrollAsm
