import UnrollAsm.Session.Event

/-!
# Tables That Cannot Be Drawn

Whoever draws the tables of a session is not part of it, and may break off. An event
has no words exactly if one of the tables that it shows cannot be drawn. Only the
tables of a program are shown, and that at the most talkative level, so whoever
listens at another level, or not at all, is told everything.

One thing is relied on of a drawing, and only where this is said: escapes are all that
may go wrong, so a table without escape characters is drawn.

There is a small drawing to try this with. In its measure every character takes a
column, except that an alef is written into the lam in front of it. The characters of
a colour escape are not seen, and are taken off one by one, so that a line can hide
more than it takes.

## Main definitions

* `Text.Unescaped`, `Grid.Unescaped`: Texts and tables without escape characters.
* `Drawing.Lawful`: What is known of a drawing.
* `Event.Undrawable`: One of the tables of an event cannot be drawn.
* `Drawing.simple`: A drawing that counts characters.

## Theorems

* `Event.message?_eq_none_iff`: The events without words.
* `Event.isTellable_eq_false_iff`: The events that cannot be told at a level.
* `Drawing.Lawful.not_undrawable`: Events without escapes are told.
* `Drawing.lawful_simple`: The small drawing is lawful.
-/

namespace UnrollAsm

/-- There is no escape character in the text. -/
def Text.Unescaped (s : String) : Prop :=
  '\x1b' ∉ s.toList

instance (s : String) : Decidable (Text.Unescaped s) :=
  inferInstanceAs (Decidable (¬ _))

/-- There is no escape character in any cell of the table. -/
def Grid.Unescaped (g : Grid) : Prop :=
  ∀ c ∈ g.cells, Text.Unescaped c.text

/-- What is known of a drawing. Escapes, such as those that set colours, are kept
    out of the width of a cell, which may go wrong; without them it does not. -/
structure Drawing.Lawful (drawing : Drawing) : Prop where
  unescaped : ∀ format g, Grid.Unescaped g → (drawing.render? format g).isSome

-- A sequence of optional results is there if each of them is.
theorem mapM_eq_none_iff {α β : Type} {f : α → Option β} {l : List α} :
    l.mapM f = none ↔ ∃ x ∈ l, f x = none := by
  induction l with
  | nil => simp
  | cons x rest ih =>
      simp only [List.mapM_cons, List.mem_cons, exists_eq_or_imp, ← ih]
      cases f x with
      | none => simp
      | some y =>
          cases rest.mapM f with
          | none => simp
          | some ys => simp

namespace Event

variable {drawing : Drawing}

/-- One of the tables of the event cannot be drawn. -/
def Undrawable (drawing : Drawing) (e : Event) : Prop :=
  ∃ g ∈ e.tables, g.render? drawing = none

-- A tree is drawn table by table.
theorem text?_eq_none_iff (t : ScopeTree) :
    t.text? drawing = none ↔ ∃ g ∈ t.scopeTables, g.render? drawing = none := by
  rw [← mapM_eq_none_iff]
  unfold ScopeTree.text?
  cases t.scopeTables.mapM (Grid.render? drawing) with
  | none => simp
  | some texts => simp

/-- An event has no words exactly if one of its tables cannot be drawn. -/
theorem message?_eq_none_iff (e : Event) : e.message? drawing = none ↔ e.Undrawable drawing := by
  unfold Undrawable
  -- Only three kinds of events draw anything.
  cases e with
  | treeBuilt t =>
      rw [tables, ← text?_eq_none_iff]
      exact Option.map_eq_none_iff
  | disassembled g =>
      simp only [tables, List.mem_singleton, exists_eq_left]
      exact Option.map_eq_none_iff
  | symbolsSettled g =>
      simp only [tables, List.mem_singleton, exists_eq_left]
      exact Option.map_eq_none_iff
  | _ => simp [message?, tables]

/-- Such an event is only told at the most talkative level. -/
theorem level_of_undrawable {e : Event} (h : e.Undrawable drawing) : e.level = .trace := by
  rcases h with ⟨g, hg, -⟩
  cases e with
  | treeBuilt _ => rfl
  | disassembled _ => rfl
  | symbolsSettled _ => rfl
  | _ => cases hg

/-- Only at the most talkative level is there anything that cannot be told. -/
theorem isTellable_eq_false_iff (level : Option Level) (e : Event) :
    e.isTellable drawing level = false ↔ level = some .trace ∧ e.Undrawable drawing := by
  have hsilent : e.isTellable drawing level = false ↔
      e.isHeardAt level = true ∧ e.Undrawable drawing := by
    rw [← message?_eq_none_iff]
    unfold isTellable
    simp
  rw [hsilent]
  refine and_congr_left fun hundrawable => ?_
  -- The event is at the last level, so no other level reaches it.
  have hlevel := level_of_undrawable hundrawable
  unfold isHeardAt
  rw [hlevel]
  cases level with
  | none => simp
  | some l =>
      cases l with
      | trace => simp
      | _ => simp [Level.rank]

end Event

/-- A lawful drawing draws what an event shows if there are no escapes. -/
theorem Drawing.Lawful.not_undrawable {drawing : Drawing} (h : drawing.Lawful) {e : Event}
    (he : ∀ g ∈ e.tables, g.Unescaped) : ¬ e.Undrawable drawing := by
  rintro ⟨g, hg, hnone⟩
  have hsome := h.unescaped .report g (he g hg)
  rw [show drawing.render? .report g = none from hnone] at hsome
  cases hsome

/-! ## A small drawing -/

namespace Simple

/-- The columns that characters take: one for each, except that an alef shares the
    column of a lam in front of it. -/
def columns : List Char → Nat
  | '\u0644' :: '\u0627' :: rest => columns rest + 1
  | _ :: rest => columns rest + 1
  | [] => 0

/-- How many characters colour escapes hide. An escape goes on up to the letter `m`,
    and its first character is not counted. -/
def hidden : (inside : Bool) → List Char → Nat
  | true, c :: rest => hidden (c ≠ 'm') rest + 1
  | false, '\x1b' :: c :: rest => if c = '[' then hidden true rest + 1 else hidden false rest
  | false, _ :: rest => hidden false rest
  | _, [] => 0

/-- The columns that are seen of a cell. -/
def width (c : Cell) : Nat :=
  columns c.text.toList - hidden false c.text.toList

/-- So many characters in a row. -/
def run (c : Char) (count : Nat) : String :=
  String.ofList (List.replicate count c)

/-- A cell, filled up to the width of its column. -/
def cellText (format : Format) (c : Cell) (columnWidth : Nat) : String :=
  let fill := run ' ' (columnWidth - width c)
  let text := match c.align with
    | .left => c.text ++ fill
    | .right => fill ++ c.text
  run ' ' format.leftPadding ++ text ++ run ' ' format.rightPadding

/-- The line of a row. -/
def rowLine (format : Format) (widths : List Nat) (row : List Cell) : String :=
  let cells := List.zipWith (cellText format) row widths
  s!"{format.border}{format.bar.toString.intercalate cells}{format.border}\n"

/-- The line of a rule. -/
def ruleLine (format : Format) (widths : List Nat) (rule : Rule) : String :=
  let bars := widths.map fun w => run rule.line (format.leftPadding + w + format.rightPadding)
  s!"{rule.left}{rule.joint.toString.intercalate bars}{rule.right}\n"

/-- The lines of a table, with columns as wide as their widest cells. -/
def layout (format : Format) (g : Grid) : String :=
  let widths := g.rows.foldl (fun ws row => List.zipWith max ws (row.map width))
    (g.titles.map width)
  let top := rowLine format widths g.titles ++ ruleLine format widths format.titleRule
  let rows := g.rows.map (rowLine format widths)
  top ++ String.join rows ++ ruleLine format widths format.lastRule

-- Without an escape character there is nothing to hide.
theorem hidden_eq_zero {cs : List Char} (h : '\x1b' ∉ cs) : hidden false cs = 0 := by
  induction cs with
  | nil => rfl
  | cons c rest ih =>
      rw [List.mem_cons, not_or] at h
      rw [hidden, ih h.2]
      rintro d ds rfl -
      exact h.1 rfl

end Simple

/-- A drawing for cells of one line. It breaks off at a cell that hides more than it
    takes. -/
def Drawing.simple : Drawing where
  render? format g :=
    if ∀ c ∈ g.cells, Simple.hidden false c.text.toList ≤ Simple.columns c.text.toList then
      some (Simple.layout format g)
    else none

theorem Drawing.lawful_simple : simple.Lawful where
  unescaped format g hg := by
    refine Option.isSome_iff_exists.2 ⟨Simple.layout format g, if_pos fun c hc => ?_⟩
    rw [Simple.hidden_eq_zero (hg c hc)]
    exact Nat.zero_le _

end UnrollAsm
