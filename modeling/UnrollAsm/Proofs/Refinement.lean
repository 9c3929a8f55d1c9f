import UnrollAsm.Proofs.Session.Calls

/-!
# Assembling Is Interpreting

The main result about the meaning of programs. A text that a fresh session
accepts is assembled to what the interpreter of blocks makes of it: the same
words in the same order, each with its class, machine id and source line; or the
same error. After a success, every identifier has the value at the root that it
has in the environment at the end of the program.

The interpreter knows neither addresses nor scopes. Thus everything that reading
decided about names, and everything that unrolling did to the tree, is justified
by what the text says.

## Theorems

* `valueOf?_root`: The value of a name at the root of a tree.
* `assemble_eq_interpret`: Assembling a text is interpreting it.
-/

namespace UnrollAsm

theorem Item.isNamed_clear (name : String) (i : Item) : i.clear.isNamed name = i.isNamed name := by
  cases i with
  | symbol _ => rfl
  | instruction _ => rfl
  | loop _ => rfl

-- Clearing instructions does not touch the symbols.
theorem findIdx?_clear (name : String) (items : List Item) :
    (items.map Item.clear).findIdx? (Item.isNamed name) =
      items.findIdx? (Item.isNamed name) := by
  rw [List.findIdx?_map]
  congr 1
  funext i
  exact Item.isNamed_clear name i

/-- The value of a name at the root of a cleared tree, where nothing is further
    out. -/
theorem valueOf?_root {a : Assembler} {u : ScopeTree} (htree : a.tree = u.clear)
    (hsize : 0 < u.size) (hparent : u.parentAt 0 = none) (name : String) :
    a.valueOf? name = .ok ((((u.itemsAt 0).findIdx? (Item.isNamed name)).bind fun index =>
      (u.item? ⟨0, index⟩).bind Item.symbol?).map Symbol.value) := by
  have hclear : 0 < u.clear.size := by
    unfold ScopeTree.clear ScopeTree.size
    rw [Array.size_map]
    exact hsize
  have hfind : u.clear.find 0 name =
      .ok (((u.itemsAt 0).findIdx? (Item.isNamed name)).map fun index => ⟨0, index⟩) := by
    rw [ScopeTree.find_step hclear, ScopeTree.itemsAt_clear, findIdx?_clear,
      ScopeTree.parentAt_clear, hparent]
    cases (u.itemsAt 0).findIdx? (Item.isNamed name) with
    | none => rfl
    | some index => rfl
  unfold Assembler.valueOf? ScopeId.root
  rw [htree, hfind]
  cases hidx : (u.itemsAt 0).findIdx? (Item.isNamed name) with
  | none => rfl
  | some index =>
      rcases ScopeTree.symbol_of_findIdx? hidx with ⟨c, hc, -⟩
      have hitem : u.clear.item? ⟨0, index⟩ = some (.symbol c) := by
        rw [ScopeTree.item?_eq] at hc ⊢
        rw [ScopeTree.itemsAt_clear, List.getElem?_map, hc]
        rfl
      simp only [Option.map_some, Option.bind_some, bind, Except.bind,
        ScopeTree.item_eq_ok hitem, hc]
      rfl

-- The root of a program has nothing around it, whatever its values are by now.
theorem Laid.parent_root {target : Target} {t u : ScopeTree} {block : Block}
    (h : Laid target t block) (hskel : u.skeleton = t.skeleton) : u.parentAt 0 = none := by
  rw [← ScopeTree.parentAt_skeleton, hskel, ScopeTree.parentAt_skeleton]
  cases h.opened with
  | root _ hparent => exact hparent

-- At the end of a program, a name denotes the first symbol of that name in the root.
theorem Sim.find?_root {target : Target} {t : ScopeTree} {block : Block}
    {w : Work (Array EmittedWord)} {r : Run} (h : Sim t [⟨0, t.itemsAt 0⟩] w r)
    (hlaid : Laid target t block) {name : String} (hname : Statement.isIdentifier name) :
    r.env.find? name = ((w.tree.itemsAt 0).findIdx? (Item.isNamed name)).bind fun index =>
      (w.tree.item? ⟨0, index⟩).bind Item.symbol? := by
  rw [h.find? hlaid.within hname,
    findIdx?_of_skeleton (ScopeTree.items_of_skeleton h.skeleton 0)]
  unfold Position.lookup
  cases (t.itemsAt 0).findIdx? (Item.isNamed name) with
  | none => rfl
  | some index => rfl

/-- A session with a block laid out assembles it to what the interpreter makes
    of it, and has the interpreter's values at the root afterwards. -/
theorem Assembler.assemble_laid {a : Assembler} {block : Block} (hrooted : Rooted a.tree)
    (hlaid : Laid a.target a.tree block) (hfailure : a.failure = none)
    (hassembled : a.assembled = false) :
    a.assemble.answer =
        orRefuse ((Block.exec a.target block ⟨[[]], []⟩).map Run.words) ∧
      ∀ r, Block.exec a.target block ⟨[[]], []⟩ = .ok r →
        ∀ name, Statement.isIdentifier name →
          a.assemble.after.valueOf? name = .ok ((r.env.find? name).map Symbol.value) := by
  have hassemble : a.assemble = a.unroll := by
    unfold Assembler.assemble
    rw [hfailure, hassembled]
    rfl
  rw [hassemble]
  unfold Assembler.unroll
  rcases Assembler.unroll_cases hrooted hlaid with
    ⟨w, r, hrun, hexec, hsim, hkept⟩ | ⟨d, w, hrun, hexec, -⟩
  · rw [hrun, hexec]
    refine ⟨congrArg Except.ok hsim.words.symm, ?_⟩
    intro r' hr' name hname
    cases hr'
    have hsize : 0 < w.tree.size := by
      rw [ScopeTree.size_of_skeleton hkept.skeleton]
      exact hrooted.nonempty
    rw [valueOf?_root rfl hsize (hlaid.parent_root hkept.skeleton) name,
      hsim.find?_root hlaid hname]
  · rw [hrun, hexec]
    refine ⟨rfl, fun r hr => ?_⟩
    cases hr

/-- For every target and every text that a fresh session accepts: assembling
    gives the words or the error that the interpreter gives, and after a success
    every identifier has its value in the interpreter's last environment. -/
theorem assemble_eq_interpret (target : Target) (text : String) (n : Nat)
    (h : ((Assembler.new target).parseSource text).answer = .ok n) :
    ((Assembler.new target).parseSource text).after.assemble.answer =
        orRefuse ((interpret target (Text.numbered text)).map Run.words) ∧
      ∀ r, interpret target (Text.numbered text) = .ok r →
        ∀ name, Statement.isIdentifier name →
          ((Assembler.new target).parseSource text).after.assemble.after.valueOf? name =
            .ok ((r.env.find? name).map Symbol.value) := by
  unfold Assembler.parseSource at h ⊢
  rcases Assembler.parse_cases (Text.numbered text) (Healthy.new target).rooted with
    ⟨_, t, s, -, hafter, hgrows, hheader, hrooted⟩ | ⟨d, t, hanswer, -, -⟩
  · rcases Laid.empty.growsAll hgrows hheader with ⟨block, hlines, hlaid⟩
    have hblock : Block.ofLines (Text.numbered text) = .ok block := by
      unfold Block.ofLines Outline.empty
      rw [hlines]
      rfl
    have hinterpret : interpret target (Text.numbered text) =
        Block.exec target block ⟨[[]], []⟩ := by
      unfold interpret
      rw [hblock]
      rfl
    rw [hafter, hinterpret]
    exact Assembler.assemble_laid hrooted hlaid rfl rfl
  · rw [hanswer] at h
    cases h

-- Two trips would be due with fixed bounds, but there are three, of three words each.
theorem assemble_sampleText :
    ((Assembler.new sampleTarget).parseSource sampleText).answer = .ok 11 ∧
      ((Assembler.new sampleTarget).parseSource sampleText).after.assemble.answer =
        orRefuse ((interpret sampleTarget (Text.numbered sampleText)).map Run.words) ∧
      ((interpret sampleTarget (Text.numbered sampleText)).map fun r => r.words.length) =
        .ok 9 := by
  have hparse : ((Assembler.new sampleTarget).parseSource sampleText).answer = .ok 11 := by
    decide +kernel
  exact ⟨hparse, (assemble_eq_interpret sampleTarget sampleText 11 hparse).1, by decide +kernel⟩

end UnrollAsm
