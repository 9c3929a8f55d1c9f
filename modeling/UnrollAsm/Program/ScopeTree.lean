import UnrollAsm.Program.Header

/-!
# Scope Trees

A program as it has been read: a growing table of scopes. The first scope is
the root, every other one is the body of a loop and knows the scope it is
nested in. A scope is a list of items to which items are only ever appended, so
the address of an item stays what it is.

A name is looked up from a scope outwards. Within a scope the earliest symbol
of that name counts, and an inner scope comes before the scope around it. The
search follows parents, and gives up on a scope that is not nested in an older
one, since it could not end there.

## Main definitions

* `Scope`, `ScopeTree`: A scope, and the table of all of them.
* `ScopeTree.item?`: The item at an address.
* `ScopeTree.add`: Appends an item to a scope.
* `ScopeTree.addChild`, `ScopeTree.openLoop`: New scopes.
* `ScopeTree.find`, `ScopeTree.findLocal`: Look-up by name.
* `ScopeTree.clear`: The tree of an assembled program.
-/

namespace UnrollAsm

/-- A scope: what it is nested in, what is nested in it, its items, and the
    header of the loop whose body it is. -/
structure Scope where
  parent : Option ScopeId
  children : Array ScopeId
  items : Array Item
  header : Option LoopHeader
  deriving DecidableEq, Repr

namespace Scope

/-- A scope without items. -/
def fresh (parent : Option ScopeId) (header : Option LoopHeader) : Scope :=
  ⟨parent, #[], #[], header⟩

/-- The position of the earliest symbol called `name`. -/
def find? (s : Scope) (name : String) : Option Nat :=
  s.items.findIdx? (Item.isNamed name)

end Scope

/-- A program as it has been read. -/
structure ScopeTree where
  scopes : Array Scope
  deriving DecidableEq, Repr

namespace ScopeTree

/-- The tree of an empty program: just the root. -/
def empty : ScopeTree :=
  ⟨#[.fresh none none]⟩

/-- The number of scopes. -/
def size (t : ScopeTree) : Nat :=
  t.scopes.size

/-- The scope with a given number. -/
def scope (t : ScopeTree) (s : ScopeId) : Except Fault Scope :=
  match t.scopes[s]? with
  | some scope => .ok scope
  | none => .error (.noSuchScope s)

/-- The scope around a scope. The root has none. -/
def parent? (t : ScopeTree) (s : ScopeId) : Except Fault (Option ScopeId) := do
  return (← t.scope s).parent

/-- The item at an address, if there is one. -/
def item? (t : ScopeTree) (a : Address) : Option Item :=
  t.scopes[a.scope]?.bind fun scope => scope.items[a.index]?

/-- The item at an address. -/
def item (t : ScopeTree) (a : Address) : Except Fault Item :=
  match t.item? a with
  | some item => .ok item
  | none => .error (.noSuchItem a)

/-- The tree with one scope changed. -/
def modify (t : ScopeTree) (s : ScopeId) (f : Scope → Scope) : ScopeTree :=
  ⟨t.scopes.modify s f⟩

/-- The tree with one item replaced. -/
def setItem (t : ScopeTree) (a : Address) (item : Item) : ScopeTree :=
  t.modify a.scope fun scope => { scope with items := scope.items.modify a.index fun _ => item }

/-- The tree with another loop header in a scope. -/
def setHeader (t : ScopeTree) (s : ScopeId) (header : LoopHeader) : ScopeTree :=
  t.modify s fun scope => { scope with header := some header }

/-- Appends an item to a scope. Returns its address. -/
def add (t : ScopeTree) (s : ScopeId) (item : Item) : Except Fault (Address × ScopeTree) := do
  let scope ← t.scope s
  let grown := t.modify s fun scope => { scope with items := scope.items.push item }
  return (⟨s, scope.items.size⟩, grown)

/-- Allocates a scope as the last child of its parent. The parent is looked up
    in the grown table, in which the new scope already has its place. -/
def addChild (t : ScopeTree) (parent : ScopeId) (header : Option LoopHeader) :
    Except Fault (ScopeId × ScopeTree) := do
  let id := t.size
  let grown : ScopeTree := ⟨t.scopes.push (.fresh (some parent) header)⟩
  let _ ← grown.scope parent
  return (id, grown.modify parent fun scope => { scope with children := scope.children.push id })

/-- Allocates the body of a loop and marks its place among the parent's items. -/
def openLoop (t : ScopeTree) (parent : ScopeId) (header : LoopHeader) :
    Except Fault (ScopeId × ScopeTree) := do
  let (id, t) ← t.addChild parent (some header)
  let (_, t) ← t.add parent (.loop id)
  return (id, t)

/-- Looks a name up in one scope only. -/
def findLocal (t : ScopeTree) (s : ScopeId) (name : String) : Except Fault (Option Address) := do
  let scope ← t.scope s
  return (scope.find? name).map fun index => ⟨s, index⟩

/-- Looks a name up in a scope and then in the scopes around it. -/
def find (t : ScopeTree) (s : ScopeId) (name : String) : Except Fault (Option Address) :=
  match t.scopes[s]? with
  | none => .error (.noSuchScope s)
  | some scope =>
    match scope.find? name, scope.parent with
    | some index, _ => .ok (some ⟨s, index⟩)
    | none, none => .ok none
    | none, some parent =>
      if parent < s then t.find parent name else .error (.endlessLookup s)
termination_by s

/-- The items of all scopes, scope after scope. -/
def items (t : ScopeTree) : List Item :=
  t.scopes.toList.flatMap fun scope => scope.items.toList

/-- The number of symbols in all scopes. -/
def symbolCount (t : ScopeTree) : Nat :=
  t.items.countP fun item => item.symbol?.isSome

/-- The number of instructions that have not been cleared. -/
def pendingCount (t : ScopeTree) : Nat :=
  t.items.countP Item.isPending

/-- The tree with every instruction cleared. Symbols keep their values. -/
def clear (t : ScopeTree) : ScopeTree :=
  ⟨t.scopes.map fun scope => { scope with items := scope.items.map Item.clear }⟩

end ScopeTree

end UnrollAsm
