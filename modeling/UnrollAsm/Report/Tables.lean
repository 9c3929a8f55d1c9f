import UnrollAsm.Program.ScopeTree
import UnrollAsm.Text.Grid

/-!
# Tables of a Program

A scope tree as text. The symbol table lists every symbol with its address and
value; the tree itself is one table for each scope, under the scope's name and,
for a loop, its header.

## Main definitions

* `ScopeTree.symbolTable`: All symbols of a tree.
* `ScopeTree.scopeTable`, `ScopeTree.scopeTables`: The items of a scope, and of all.
* `ScopeTree.text?`: The whole tree.
-/

namespace UnrollAsm

namespace ScopeTree

/-- The row of an item in the symbol table. Only symbols have one. -/
def symbolRow (a : Address) (item : Item) : Option (List Cell) :=
  item.symbol?.map fun s =>
    [.right a.text, .left s.kind.label, .left s.name, .right (Text.decimal s.value)]

/-- All symbols of a tree with their addresses and values. -/
def symbolTable (t : ScopeTree) : Grid where
  titles := [.right "Address", .left "Kind", .left "Name", .right "Value"]
  rows := t.scopes.toList.zipIdx.flatMap fun (scope, s) =>
    scope.items.toList.zipIdx.filterMap fun (item, index) => symbolRow ⟨s, index⟩ item

/-- The items of a scope. -/
def scopeTable (s : ScopeId) (scope : Scope) : Grid where
  titles :=
    let title := match scope.header with
      | some header => s!"{s.label} {header.text}"
      | none => s.label
    [.right "Item", .left title]
  rows := scope.items.toList.zipIdx.map fun (item, index) =>
    [.right (toString index), .left item.text]

/-- The tables of all scopes, in order. -/
def scopeTables (t : ScopeTree) : List Grid :=
  t.scopes.toList.zipIdx.map fun (scope, s) => scopeTable s scope

/-- The whole tree, scope after scope, if all of its tables can be drawn. -/
def text? (drawing : Drawing) (t : ScopeTree) : Option String := do
  let tables ← t.scopeTables.mapM (Grid.render? drawing)
  return String.join tables

end ScopeTree

end UnrollAsm
