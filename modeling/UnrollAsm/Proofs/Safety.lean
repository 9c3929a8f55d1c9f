import UnrollAsm.Proofs.Report.Logs
import UnrollAsm.Proofs.Report.Unescaped

/-!
# Faults of a Session

When a call of a session can break down. The calls may come in any order, also
after failures and after assembly: no index leads out of the tree, no cleared
instruction is carried out, no marker leads to a scope that is not a loop, only
variables are written to, and trips are only counted where there is a step. That
is all in `Healthy`.

What remains are the tables that a session shows to whoever listens at the most
talkative level. They are drawn by somebody else, so all that can be said about any
drawing is that a call faults exactly if it breaks off at one of the tables of the
call. What is asked of a drawing in `Drawing.Lawful` does not rule this out, because
the text of a program is shown as it stands, with the escapes in it. Texts without
escapes, however, are drawn.

## Theorems

* `Reply.fault_heardAt_iff`: The replies that fault because somebody listens.
* `unescaped_reply`: The tables that a call shows of lines without escapes.
* `fault_reply_iff`: The calls of a session that fault.
-/

namespace UnrollAsm

/-- A reply without a fault of its own gets one from listening exactly if one of its
    tables is heard and cannot be drawn. -/
theorem Reply.fault_heardAt_iff {α : Type} {r : Reply α}
    (h : ∀ f, r.answer ≠ .error (.fault f)) (drawing : Drawing) (level : Option Level) :
    (∃ f, (r.heardAt drawing level).answer = .error (.fault f)) ↔
      level = some .trace ∧ ∃ e ∈ r.log, e.Undrawable drawing := by
  have hall : r.log.all (Event.isTellable drawing level) = false ↔
      level = some .trace ∧ ∃ e ∈ r.log, e.Undrawable drawing := by
    simp only [List.all_eq_false, Bool.not_eq_true, Event.isTellable_eq_false_iff]
    constructor
    · rintro ⟨e, he, hlevel, hundrawable⟩
      exact ⟨hlevel, e, he, hundrawable⟩
    · rintro ⟨hlevel, e, he, hundrawable⟩
      exact ⟨e, he, hlevel, hundrawable⟩
  rw [← hall]
  -- If all can be told, the reply stays what it is.
  unfold heardAt
  cases r.log.all (Event.isTellable drawing level) with
  | true =>
      simp only [if_true, Bool.true_eq_false, iff_false, not_exists]
      exact h
  | false => simp

section Lines

variable {s : Source} {target : Target} {calls : List Call}

-- What has been read stays without escapes while it is unrolled.
theorem unescaped_history (hlines : ∀ line ∈ linesOf calls, Text.Unescaped line.2)
    {t : ScopeTree} (hskel : t.skeleton = (history target calls).tree.skeleton) :
    t.Unescaped :=
  ScopeTree.unescaped_of_lines
    ((sourced_lasting target).unroll ((sourced_lasting target).history calls) hskel)
    ((unmixed_lasting target).unroll ((unmixed_lasting target).history calls) hskel) hlines

/-- If the lines that a session has been given have no escapes, neither have the
    tables that a call shows. -/
theorem unescaped_reply (hsource : Target.ofSource s = .ok target) {c : Call}
    (hlines : ∀ line ∈ linesOf (calls ++ [c]), Text.Unescaped line.2) {e : Event}
    (he : e ∈ (c.reply (history target calls)).log) : ∀ g ∈ e.tables, g.Unescaped := by
  intro g hg
  have hafter : (c.reply (history target calls)).after.tree.Unescaped :=
    unescaped_history hlines (by rw [history_snoc])
  cases c with
  | parse lines => exact hafter.scopeTables g (Assembler.tables_parse he hg)
  | parseSource text =>
      rw [Call.reply_parseSource] at he hafter
      generalize Text.numbered text = lines at he hafter
      exact hafter.scopeTables g (Assembler.tables_parse he hg)
  | assemble =>
      have hearlier : ∀ line ∈ linesOf calls, Text.Unescaped line.2 := by
        rwa [linesOf_snoc, show Call.assemble.lines = [] from rfl, List.append_nil] at hlines
      rcases Assembler.tables_assemble he hg with ⟨words, hok, rfl | rfl⟩
      · rw [target_history]
        exact unescaped_words hsource hearlier hok
      · have hrooted := (healthy_history target calls).rooted
        exact (unescaped_history hearlier (skeleton_run _ hrooted)).symbolTable

end Lines

/-- No call of a session faults on its own, whichever calls came before. Heard at
    a level, it faults exactly if that is the most talkative one and the call shows
    a table that the drawing breaks off at. For a lawful drawing this takes an escape
    character in the lines that an accepted target has been given. -/
theorem fault_reply_iff (drawing : Drawing) (target : Target) (calls : List Call) (c : Call)
    (level : Option Level) :
    (∀ f, (c.reply (history target calls)).answer ≠ .error (.fault f)) ∧
      ((∃ f, ((c.reply (history target calls)).heardAt drawing level).answer =
          .error (.fault f)) ↔
        level = some .trace ∧
          ∃ e ∈ (c.reply (history target calls)).log, e.Undrawable drawing) ∧
      (drawing.Lawful → ∀ s, Target.ofSource s = .ok target →
        (∀ line ∈ linesOf (calls ++ [c]), Text.Unescaped line.2) →
        ∀ f, ((c.reply (history target calls)).heardAt drawing level).answer ≠
          .error (.fault f)) := by
  have hplain := ((healthy_history target calls).reply c).2
  have hheard := Reply.fault_heardAt_iff hplain drawing level
  refine ⟨hplain, hheard, fun hlawful s hsource hlines f hf => ?_⟩
  rcases hheard.1 ⟨f, hf⟩ with ⟨-, e, he, hundrawable⟩
  exact hlawful.not_undrawable (unescaped_reply hsource hlines he) hundrawable

/-- A description of a target that can only be started. -/
def soleStart : Document where
  entries :=
    [⟨"Assembler_Property", "OpCodeSize", "4"⟩, ⟨"Assembler_Property", "PlaceSize", "2"⟩,
     ⟨"VCGRA_Property", "Available_Memory", "1023"⟩,
     ⟨"VCGRA_Property", "Num_Dic_Lines", "8"⟩, ⟨"VCGRA_Property", "Num_Dic_Places", "4"⟩,
     ⟨"VCGRA_Property", "Num_Doc_Lines", "4"⟩, ⟨"VCGRA_Property", "Num_Doc_Places", "2"⟩,
     ⟨"NoOperator", "START", "1"⟩]

/-- A comment of letters that are drawn in pairs. -/
def pairedText (opening : String) : String :=
  "START # " ++ opening ++ String.join (List.replicate 16 "\u0644\u0627")

/-- A comment that opens an escape and never closes it. The letters behind it are
    counted one by one, but drawn in pairs. -/
def hidingText : String :=
  pairedText "\x1b["

/-- The comment with the escape breaks the small drawing, at one level only. Without
    it the table is drawn. -/
theorem fault_hidingText : Drawing.simple.Lawful ∧
    ∃ target, Target.ofSource soleStart.source = .ok target ∧
      (∃ f, ((Call.assemble.reply (history target [.parseSource hidingText])).heardAt .simple
        (some .trace)).answer = .error (.fault f)) ∧
      (¬ ∃ f, ((Call.assemble.reply (history target [.parseSource hidingText])).heardAt .simple
        (some .debug)).answer = .error (.fault f)) ∧
      ∀ f, ((Call.assemble.reply (history target [.parseSource (pairedText "")])).heardAt .simple
        (some .trace)).answer ≠ .error (.fault f) := by
  -- The second call shows the line of the first, in a table.
  have hdata : (Target.ofSource soleStart.source).toOption.map (fun target =>
      ((history target [.parseSource hidingText]).assemble.heardAt .simple
        (some .trace)).answer) = some (.error (.fault .undrawable)) := by
    decide +kernel
  have hlines : ∀ line ∈ linesOf [.parseSource (pairedText ""), .assemble],
      Text.Unescaped line.2 := by
    decide +kernel
  refine ⟨Drawing.lawful_simple, ?_⟩
  cases hsource : Target.ofSource soleStart.source with
  | error cause =>
      rw [hsource] at hdata
      cases hdata
  | ok target =>
      rw [hsource] at hdata
      refine ⟨target, rfl, ⟨_, Option.some.inj hdata⟩, fun hdebug => ?_, ?_⟩
      · have hlevel := ((fault_reply_iff .simple target [.parseSource hidingText] .assemble
          _).2.1.1 hdebug).1
        cases hlevel
      · exact (fault_reply_iff .simple target [.parseSource (pairedText "")] .assemble _).2.2
          Drawing.lawful_simple _ hsource hlines

end UnrollAsm
