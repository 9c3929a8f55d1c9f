import Mathlib.Algebra.Group.Nat.Defs
import Mathlib.Data.List.Forall2
import UnrollAsm.Proofs.Statement.Names
import UnrollAsm.Proofs.Target

/-!
# Which Descriptions Are Accepted

A description of a target is a table of options and of sections, and whether it
is accepted can be said without the order in which it is read. The widths have
to leave room for a cache line, the wildcard has to fit in a place, a handful of
options must be numbers, and every section must be a table that can be read in
both directions, with machine ids that fit in their field or mnemonics that name
operations. `Source.Valid` lists these conditions, and reading succeeds exactly
if they hold.

The widths are numbers of the user's choice and stand in shifts. They are checked
before anything is shifted by them, so every shift is by fewer than sixteen bits,
whatever the description says.

## Main definitions

* `ReadsAs`, `Source.Gives`: A text or an option is a number.
* `Source.Lists`: The entries of a section, with their values as numbers.
* `Orderly`: The entries of a table can be read in both directions, and fit.
* `Source.Valid`: The conditions on a description.
* `Target.Reflects`: The target has what its description says.

## Theorems

* `Target.readLayout_eq_ok`, `Target.readWildcard_eq_ok`,
  `Target.readCache_eq_ok`, `Target.readTable_eq_ok`: When each part of a
  description is accepted, and as what.
* `Target.ofSource_eq_ok`: When a whole description is.
* `Target.exists_reflects`: A valid description describes a target.
* `ofSource_valid`: Validation is sound and complete.
-/

namespace UnrollAsm

/-- The text is an unsigned 32-bit number, apart from blanks around it: digits,
    which a plus sign may precede. -/
def ReadsAs (text : String) (n : Nat) : Prop :=
  ∃ sign digits, Text.trimList text.toList = sign ++ digits ∧ (sign = [] ∨ sign = ['+']) ∧
    digits ≠ [] ∧ (∀ c ∈ digits, c.isDigit = true) ∧ Text.digitsValue digits = n ∧ n < 2 ^ 32

/-- The option is there and is a number. -/
def Source.Gives (s : Source) (key : String) (n : Nat) : Prop :=
  ∃ text, s.value? key = some text ∧ ReadsAs text n

/-- The entries of a section in their order, with their values as numbers. -/
def Source.Lists (s : Source) (heading : String) (entries : List (String × Nat)) : Prop :=
  List.Forall₂ (fun given e => given.1 = e.1 ∧ ReadsAs given.2 e.2) (s.entries heading) entries

/-- The entries of a table: neither column repeats anything, arithmetic mnemonics
    name operations, and all other machine ids fit in their field. -/
structure Orderly (layout : Layout) (cls : InstructionClass) (entries : List (String × Nat)) :
    Prop where
  mnemonics : (entries.map Prod.fst).Nodup
  ids : (entries.map Prod.snd).Nodup
  operations : cls = .arithmetic →
    ∀ e ∈ entries, e.1 ∈ ["ADD", "SUB", "MUL", "ADDI", "SUBI", "MULI"]
  fits : cls ≠ .arithmetic → ∀ e ∈ entries, e.2 ≤ 2 ^ layout.opcodeBits - 1

/-- The options that have to be numbers, apart from the widths. -/
def sizeOptions : List String :=
  ["VCGRA_Property.Available_Memory", "VCGRA_Property.Num_Dic_Lines",
    "VCGRA_Property.Num_Dic_Places", "VCGRA_Property.Num_Doc_Lines",
    "VCGRA_Property.Num_Doc_Places"]

/-- The description gives the fields the widths of a layout, and everything in it
    goes with them. -/
structure Source.Valid (s : Source) (layout : Layout) : Prop where
  opcodeBits : s.Gives "Assembler_Property.OpCodeSize" layout.opcodeBits
  placeBits : s.Gives "Assembler_Property.PlaceSize" layout.placeBits
  opcode : 1 ≤ layout.opcodeBits
  room : layout.opcodeBits + layout.placeBits < 16
  wildcard : ∀ text, s.value? "Assembler_Property.WildcardPlace" = some text →
    ∃ n, ReadsAs text n ∧ n ≤ 2 ^ layout.placeBits - 1
  sizes : ∀ key ∈ sizeOptions, ∃ n, s.Gives key n
  tables : ∀ cls : InstructionClass, ∃ entries, s.Lists cls.heading entries ∧
    Orderly layout cls entries

/-- The target has what its description says, and the greatest place as the
    wildcard if the description has none. -/
structure Target.Reflects (t : Target) (s : Source) : Prop where
  valid : s.Valid t.layout
  wildcard : ∀ text, s.value? "Assembler_Property.WildcardPlace" = some text →
    ReadsAs text t.wildcard
  anyPlace : s.value? "Assembler_Property.WildcardPlace" = none →
    t.wildcard = 2 ^ t.layout.placeBits - 1
  memory : s.Gives "VCGRA_Property.Available_Memory" t.memory
  dicLines : s.Gives "VCGRA_Property.Num_Dic_Lines" t.dic.lines
  dicPlaces : s.Gives "VCGRA_Property.Num_Dic_Places" t.dic.places
  docLines : s.Gives "VCGRA_Property.Num_Doc_Lines" t.doc.lines
  docPlaces : s.Gives "VCGRA_Property.Num_Doc_Places" t.doc.places
  names : t.dic.name = "Dic" ∧ t.doc.name = "Doc"
  output : t.output = s.value? "General.Output"
  classes : ∀ cls, (t.table cls).cls = cls
  tables : ∀ cls : InstructionClass, s.Lists cls.heading (t.table cls).entries

/-! ## Numbers -/

theorem unsigned32?_eq_some {text : String} {n : Nat} :
    Text.unsigned32? (Text.trimList text.toList) = some n ↔ ReadsAs text n := by
  unfold Text.unsigned32? ReadsAs
  generalize Text.trimList text.toList = cs
  simp only [Option.filter_eq_some_iff, Text.natural?_eq_some, decide_eq_true_eq]
  constructor
  · split
    · rintro ⟨⟨hne, hdigits, hvalue⟩, hlt⟩
      exact ⟨['+'], _, rfl, Or.inr rfl, hne, hdigits, hvalue, hlt⟩
    · rintro ⟨⟨hne, hdigits, hvalue⟩, hlt⟩
      exact ⟨[], cs, rfl, Or.inl rfl, hne, hdigits, hvalue, hlt⟩
  · rintro ⟨sign, digits, rfl, rfl | rfl, hne, hdigits, hvalue, hlt⟩
    · -- A plus sign is not a digit, so none is taken off.
      rw [List.nil_append]
      split
      · rename_i rest
        have hplus := hdigits '+' List.mem_cons_self
        cases hplus
      · exact ⟨⟨hne, hdigits, hvalue⟩, hlt⟩
    · exact ⟨⟨hne, hdigits, hvalue⟩, hlt⟩

theorem unsignedOption_eq_ok {key text : String} {n : Nat} :
    unsignedOption key text = .ok n ↔ ReadsAs text n := by
  rw [← unsigned32?_eq_some]
  unfold unsignedOption
  cases Text.unsigned32? (Text.trimList text.toList) with
  | none => simp only [reduceCtorEq]
  | some m => simp only [Except.ok.injEq, Option.some.injEq]

theorem Source.number_eq_ok {s : Source} {key : String} {n : Nat} :
    s.number key = .ok n ↔ s.Gives key n := by
  unfold Source.number Source.Gives
  cases s.value? key with
  | none => simp only [reduceCtorEq, false_and, exists_false]
  | some text => simp only [unsignedOption_eq_ok, Option.some.injEq, exists_eq_left']

-- A text is at most one number.
theorem ReadsAs.unique {text : String} {m n : Nat} (h : ReadsAs text m) (h' : ReadsAs text n) :
    m = n := by
  rw [← unsigned32?_eq_some] at h h'
  rw [h] at h'
  exact Option.some.inj h'

namespace Target

/-! ## Widths, wildcard and caches -/

theorem readLayout_eq_ok {s : Source} {layout : Layout} :
    readLayout s = .ok layout ↔
      s.Gives "Assembler_Property.OpCodeSize" layout.opcodeBits ∧
        s.Gives "Assembler_Property.PlaceSize" layout.placeBits ∧
        1 ≤ layout.opcodeBits ∧ layout.opcodeBits + layout.placeBits < 16 := by
  have husable : ∀ l : Layout, l.isUsable = true ↔
      1 ≤ l.opcodeBits ∧ l.opcodeBits + l.placeBits < 16 := by
    intro l
    unfold Layout.isUsable Layout.lineShift Layout.halfBits
    rw [Bool.and_eq_true, decide_eq_true_eq, decide_eq_true_eq, Nat.succ_le_iff]
  unfold readLayout
  simp only [bind_eq_ok, Source.number_eq_ok]
  constructor
  · rintro ⟨opcodeBits, hopcode, placeBits, hplace, h⟩
    split at h
    · rename_i hfits
      cases h
      exact ⟨hopcode, hplace, (husable _).1 hfits⟩
    · cases h
  · rintro ⟨hopcode, hplace, hfits⟩
    refine ⟨_, hopcode, _, hplace, ?_⟩
    rw [if_pos ((husable layout).2 hfits)]
    rfl

theorem placeMask_eq (layout : Layout) : layout.placeMask = 2 ^ layout.placeBits - 1 := by
  unfold Layout.placeMask
  rw [Nat.one_shiftLeft]

theorem opcodeMask_eq (layout : Layout) : layout.opcodeMask = 2 ^ layout.opcodeBits - 1 := by
  unfold Layout.opcodeMask
  rw [Nat.one_shiftLeft]

theorem readWildcard_eq_ok {s : Source} {layout : Layout} {wildcard : Nat} :
    readWildcard s layout = .ok wildcard ↔
      (∀ text, s.value? "Assembler_Property.WildcardPlace" = some text →
        ReadsAs text wildcard) ∧
      (s.value? "Assembler_Property.WildcardPlace" = none →
        wildcard = 2 ^ layout.placeBits - 1) ∧
      wildcard ≤ 2 ^ layout.placeBits - 1 := by
  -- What is left after the number has been read.
  have hcheck : ∀ n : Nat, (if n ≤ 2 ^ layout.placeBits - 1 then pure n
      else throw (.wildcardTooWide n layout.placeBits) : Except ConfigCause Nat) = .ok wildcard ↔
        n = wildcard ∧ wildcard ≤ 2 ^ layout.placeBits - 1 := by
    intro n
    split
    · rename_i hle
      constructor
      · intro h
        cases h
        exact ⟨rfl, hle⟩
      · rintro ⟨rfl, -⟩
        rfl
    · rename_i hle
      constructor
      · intro h
        cases h
      · rintro ⟨rfl, h⟩
        exact absurd h hle
  unfold readWildcard
  rw [placeMask_eq]
  cases s.value? "Assembler_Property.WildcardPlace" with
  | none =>
      dsimp only
      rw [pure_bind, hcheck]
      constructor
      · rintro ⟨rfl, hle⟩
        exact ⟨fun text h => (by cases h), fun _ => rfl, hle⟩
      · rintro ⟨-, hdefault, hle⟩
        exact ⟨(hdefault rfl).symm, hle⟩
  | some text =>
      dsimp only
      rw [bind_eq_ok]
      simp only [hcheck, unsignedOption_eq_ok]
      constructor
      · rintro ⟨n, hn, rfl, hle⟩
        refine ⟨fun text' h => ?_, fun h => (by cases h), hle⟩
        cases h
        exact hn
      · rintro ⟨hreads, -, hle⟩
        exact ⟨_, hreads text rfl, rfl, hle⟩

theorem readCache_eq_ok {s : Source} {name : String} {cache : Cache} :
    readCache s name = .ok cache ↔
      cache.name = name ∧ s.Gives s!"VCGRA_Property.Num_{name}_Lines" cache.lines ∧
        s.Gives s!"VCGRA_Property.Num_{name}_Places" cache.places := by
  unfold readCache
  simp only [bind_eq_ok, Source.number_eq_ok]
  constructor
  · rintro ⟨lines, hlines, places, hplaces, h⟩
    cases h
    exact ⟨rfl, hlines, hplaces⟩
  · rintro ⟨rfl, hlines, hplaces⟩
    exact ⟨_, hlines, _, hplaces, rfl⟩

/-! ## Tables -/

theorem isSome_ofMnemonic? (mnemonic : String) :
    (Arithmetic.ofMnemonic? mnemonic).isSome ↔
      mnemonic ∈ ["ADD", "SUB", "MUL", "ADDI", "SUBI", "MULI"] := by
  unfold Arithmetic.ofMnemonic?
  simp only [List.find?_isSome, decide_eq_true_eq]
  simp only [Arithmetic.all, List.mem_cons, List.not_mem_nil, or_false, exists_eq_or_imp,
    exists_eq_left, Arithmetic.mnemonic, eq_comm]

/-- An entry is checked against its class. -/
theorem checkEntry_eq_ok {layout : Layout} {cls : InstructionClass} {mnemonic : String}
    {id : Nat} :
    checkEntry layout cls mnemonic id = .ok () ↔
      (cls = .arithmetic → mnemonic ∈ ["ADD", "SUB", "MUL", "ADDI", "SUBI", "MULI"]) ∧
        (cls ≠ .arithmetic → id ≤ 2 ^ layout.opcodeBits - 1) := by
  unfold checkEntry
  rw [← isSome_ofMnemonic?, ← opcodeMask_eq]
  by_cases hcls : cls = .arithmetic
  · rw [if_pos hcls]
    by_cases hop : (Arithmetic.ofMnemonic? mnemonic).isSome = true
    · rw [if_pos hop]
      exact ⟨fun _ => ⟨fun _ => hop, fun hother => absurd hcls hother⟩, fun _ => rfl⟩
    · rw [if_neg hop]
      exact ⟨fun h => (by cases h), fun h => absurd (h.1 hcls) hop⟩
  · rw [if_neg hcls]
    by_cases hid : id ≤ layout.opcodeMask
    · rw [if_pos hid]
      exact ⟨fun _ => ⟨fun harith => absurd harith hcls, fun _ => hid⟩, fun _ => rfl⟩
    · rw [if_neg hid]
      exact ⟨fun h => (by cases h), fun h => absurd (h.2 hcls) hid⟩

theorem clashes_iff {table : MnemonicTable} {mnemonic : String} {id : Nat} :
    table.clashes mnemonic id = true ↔
      mnemonic ∈ table.entries.map Prod.fst ∨ id ∈ table.entries.map Prod.snd := by
  unfold MnemonicTable.clashes
  simp only [List.any_eq_true, Bool.or_eq_true, decide_eq_true_eq, List.mem_map]
  constructor
  · rintro ⟨e, he, h | h⟩
    · exact Or.inl ⟨e, he, h⟩
    · exact Or.inr ⟨e, he, h⟩
  · rintro (⟨e, he, h⟩ | ⟨e, he, h⟩)
    · exact ⟨e, he, Or.inl h⟩
    · exact ⟨e, he, Or.inr h⟩

end Target

/-- One more entry keeps a table orderly exactly if both of its columns are new,
    and it fits its class. -/
theorem Orderly.snoc {layout : Layout} {cls : InstructionClass} {entries : List (String × Nat)}
    (h : Orderly layout cls entries) (mnemonic : String) (id : Nat) :
    Orderly layout cls (entries ++ [(mnemonic, id)]) ↔
      (mnemonic ∉ entries.map Prod.fst ∧ id ∉ entries.map Prod.snd) ∧
        Target.checkEntry layout cls mnemonic id = .ok () := by
  have hcolumn : ∀ {α : Type} (l : List α) (a : α), l.Nodup → ((l ++ [a]).Nodup ↔ a ∉ l) := by
    intro α l a hl
    rw [(List.perm_append_singleton a l).nodup_iff, List.nodup_cons]
    exact ⟨And.left, fun ha => ⟨ha, hl⟩⟩
  rw [Target.checkEntry_eq_ok]
  constructor
  · rintro ⟨hmnemonics, hids, hops, hfits⟩
    rw [List.map_append] at hmnemonics hids
    refine ⟨⟨(hcolumn _ _ h.mnemonics).1 hmnemonics, (hcolumn _ _ h.ids).1 hids⟩, ?_, ?_⟩
    · exact fun hcls => hops hcls _ (List.mem_append_right _ List.mem_cons_self)
    · exact fun hcls => hfits hcls _ (List.mem_append_right _ List.mem_cons_self)
  · rintro ⟨⟨hmnemonic, hid⟩, hop, hfits⟩
    refine ⟨?_, ?_, fun hcls e he => ?_, fun hcls e he => ?_⟩
    · rw [List.map_append]
      exact (hcolumn _ _ h.mnemonics).2 hmnemonic
    · rw [List.map_append]
      exact (hcolumn _ _ h.ids).2 hid
    · rcases List.mem_append.1 he with he | he
      · exact h.operations hcls e he
      · cases List.mem_singleton.1 he
        exact hop hcls
    · rcases List.mem_append.1 he with he | he
      · exact h.fits hcls e he
      · cases List.mem_singleton.1 he
        exact hfits hcls

-- A part of an orderly table is orderly.
theorem Orderly.front {layout : Layout} {cls : InstructionClass}
    {entries rest : List (String × Nat)} (h : Orderly layout cls (entries ++ rest)) :
    Orderly layout cls entries where
  mnemonics := by
    have hnodup := h.mnemonics
    rw [List.map_append] at hnodup
    exact (List.nodup_append.1 hnodup).1
  ids := by
    have hnodup := h.ids
    rw [List.map_append] at hnodup
    exact (List.nodup_append.1 hnodup).1
  operations hcls e he := h.operations hcls e (List.mem_append_left _ he)
  fits hcls e he := h.fits hcls e (List.mem_append_left _ he)

namespace Target

/-- One entry of a section is accepted exactly if it is a number and keeps the
    table orderly. -/
theorem readEntry_eq_ok {layout : Layout} {table table' : MnemonicTable}
    {given : String × String} (h : Orderly layout table.cls table.entries) :
    readEntry layout table given = .ok table' ↔
      ∃ id, ReadsAs given.2 id ∧ table' = ⟨table.cls, table.entries ++ [(given.1, id)]⟩ ∧
        Orderly layout table.cls (table.entries ++ [(given.1, id)]) := by
  unfold readEntry
  simp only [bind_eq_ok, unsignedOption_eq_ok]
  refine exists_congr fun id => and_congr_right fun _ => ?_
  rw [h.snoc]
  unfold MnemonicTable.insert
  by_cases hclash : table.clashes given.1 id = true
  · rw [if_pos hclash]
    rw [clashes_iff] at hclash
    constructor
    · rintro ⟨_, -, hinsert⟩
      cases hinsert
    · rintro ⟨-, ⟨hmnemonic, hid⟩, -⟩
      rcases hclash with hclash | hclash
      · exact absurd hclash hmnemonic
      · exact absurd hclash hid
  · rw [if_neg hclash]
    rw [clashes_iff, not_or] at hclash
    constructor
    · rintro ⟨_, hcheck, hinsert⟩
      cases hinsert
      exact ⟨rfl, hclash, hcheck⟩
    · rintro ⟨rfl, -, hcheck⟩
      exact ⟨(), hcheck, rfl⟩

/-- Entries in a row: they are appended in their order. -/
theorem foldlM_readEntry_eq_ok {layout : Layout} {givens : List (String × String)}
    {table table' : MnemonicTable} (h : Orderly layout table.cls table.entries) :
    givens.foldlM (readEntry layout) table = .ok table' ↔
      ∃ added, List.Forall₂ (fun given e => given.1 = e.1 ∧ ReadsAs given.2 e.2) givens added ∧
        table' = ⟨table.cls, table.entries ++ added⟩ ∧
        Orderly layout table.cls (table.entries ++ added) := by
  induction givens generalizing table with
  | nil =>
      rw [List.foldlM_nil]
      constructor
      · intro hfold
        cases hfold
        exact ⟨[], .nil, by rw [List.append_nil], by rwa [List.append_nil]⟩
      · rintro ⟨added, hadded, rfl, -⟩
        cases hadded
        rw [List.append_nil]
        rfl
  | cons given rest ih =>
      rw [List.foldlM_cons, bind_eq_ok]
      constructor
      · rintro ⟨next, hentry, hrest⟩
        rcases (readEntry_eq_ok h).1 hentry with ⟨id, hid, rfl, hnext⟩
        rcases (ih hnext).1 hrest with ⟨added, hadded, rfl, hall⟩
        simp only [List.append_assoc, List.singleton_append] at hall ⊢
        exact ⟨(given.1, id) :: added, .cons ⟨rfl, hid⟩ hadded, rfl, hall⟩
      · rintro ⟨_, hadded, htable, hall⟩
        rcases hadded with _ | ⟨hfirst, hrest⟩
        rename_i e added
        rcases e with ⟨mnemonic, id⟩
        rcases hfirst with ⟨hname, hid⟩
        cases hname
        rw [← List.singleton_append, ← List.append_assoc] at htable hall
        have hnext : Orderly layout table.cls (table.entries ++ [(given.1, id)]) := hall.front
        exact ⟨⟨table.cls, table.entries ++ [(given.1, id)]⟩,
          (readEntry_eq_ok h).2 ⟨id, hid, rfl, hnext⟩,
          (ih hnext).2 ⟨added, hrest, htable, hall⟩⟩

/-- A section is accepted exactly if its entries make an orderly table. -/
theorem readTable_eq_ok {s : Source} {layout : Layout} {cls : InstructionClass}
    {table : MnemonicTable} :
    readTable s layout cls = .ok table ↔
      table.cls = cls ∧ s.Lists cls.heading table.entries ∧ Orderly layout cls table.entries := by
  have hempty : Orderly layout cls [] :=
    ⟨.nil, .nil, fun _ e he => (by cases he), fun _ e he => (by cases he)⟩
  unfold readTable
  rw [foldlM_readEntry_eq_ok (by exact hempty)]
  simp only [MnemonicTable.empty, List.nil_append]
  constructor
  · rintro ⟨entries, hlists, rfl, horderly⟩
    exact ⟨rfl, hlists, horderly⟩
  · rintro ⟨rfl, hlists, horderly⟩
    exact ⟨table.entries, hlists, rfl, horderly⟩

/-! ## Whole descriptions -/

/-- Each part of a target is read from the description on its own, but for the
    widths, which everything else is checked against. -/
theorem ofSource_iff {s : Source} {t : Target} :
    ofSource s = .ok t ↔
      readLayout s = .ok t.layout ∧ readWildcard s t.layout = .ok t.wildcard ∧
        s.number "VCGRA_Property.Available_Memory" = .ok t.memory ∧
        readCache s "Dic" = .ok t.dic ∧ readCache s "Doc" = .ok t.doc ∧
        t.output = s.value? "General.Output" ∧
        ∀ cls, readTable s t.layout cls = .ok (t.table cls) := by
  unfold ofSource
  simp only [bind_eq_ok]
  constructor
  · rintro ⟨layout, hlayout, wildcard, hwildcard, memory, hmemory, dic, hdic, doc, hdoc, noOperand,
      hnone, oneOperand, hone, twoOperand, htwo, threeOperand, hthree, arithmetic, harith, h⟩
    cases h
    refine ⟨hlayout, hwildcard, hmemory, hdic, hdoc, rfl, fun cls => ?_⟩
    cases cls <;> assumption
  · rintro ⟨hlayout, hwildcard, hmemory, hdic, hdoc, houtput, htables⟩
    refine ⟨_, hlayout, _, hwildcard, _, hmemory, _, hdic, _, hdoc, _, htables _, _, htables _,
      _, htables _, _, htables _, _, htables _, ?_⟩
    rw [← houtput]
    -- The tables have been read one by one.
    refine congrArg (fun table => Except.ok { t with table }) (funext fun cls => ?_)
    cases cls <;> rfl

/-- The tables of an accepted target are orderly. -/
theorem orderly_of_ofSource {s : Source} {t : Target} (h : ofSource s = .ok t)
    (cls : InstructionClass) : Orderly t.layout cls (t.table cls).entries :=
  (readTable_eq_ok.1 ((ofSource_iff.1 h).2.2.2.2.2.2 cls)).2.2

theorem entries_unique {s : Source} {heading : String} {entries entries' : List (String × Nat)}
    (h : s.Lists heading entries) (h' : s.Lists heading entries') : entries = entries' := by
  unfold Source.Lists at h h'
  generalize s.entries heading = givens at h h'
  induction h generalizing entries' with
  | nil =>
      cases h'
      rfl
  | cons hfirst _ ih =>
      rcases h' with _ | ⟨hfirst', hrest'⟩
      rw [ih hrest', Prod.ext (hfirst.1.symm.trans hfirst'.1) (hfirst.2.unique hfirst'.2)]

/-- A description is accepted as a target exactly if the target reflects it. -/
theorem ofSource_eq_ok {s : Source} {t : Target} : ofSource s = .ok t ↔ t.Reflects s := by
  rw [ofSource_iff, readLayout_eq_ok, readWildcard_eq_ok, Source.number_eq_ok, readCache_eq_ok,
    readCache_eq_ok]
  simp only [readTable_eq_ok]
  constructor
  · rintro ⟨⟨hopcode, hplace, hone, hroom⟩, ⟨hgiven, hdefault, hwild⟩, hmemory,
      ⟨hdic, hdicLines, hdicPlaces⟩, ⟨hdoc, hdocLines, hdocPlaces⟩, houtput, htables⟩
    refine ⟨⟨hopcode, hplace, hone, hroom, fun text htext => ⟨_, hgiven text htext, hwild⟩, ?_,
      fun cls => ⟨_, (htables cls).2⟩⟩, hgiven, hdefault, hmemory, hdicLines, hdicPlaces,
      hdocLines, hdocPlaces, ⟨hdic, hdoc⟩, houtput, fun cls => (htables cls).1,
      fun cls => (htables cls).2.1⟩
    simp only [sizeOptions, List.forall_mem_cons]
    exact ⟨⟨_, hmemory⟩, ⟨_, hdicLines⟩, ⟨_, hdicPlaces⟩, ⟨_, hdocLines⟩, ⟨_, hdocPlaces⟩,
      fun _ hkey => by cases hkey⟩
  · intro h
    have hv := h.valid
    refine ⟨⟨hv.opcodeBits, hv.placeBits, hv.opcode, hv.room⟩, ⟨h.wildcard, h.anyPlace, ?_⟩,
      h.memory, ⟨h.names.1, h.dicLines, h.dicPlaces⟩, ⟨h.names.2, h.docLines, h.docPlaces⟩,
      h.output, fun cls => ⟨h.classes cls, h.tables cls, ?_⟩⟩
    · cases hgiven : s.value? "Assembler_Property.WildcardPlace" with
      | none => exact Nat.le_of_eq (h.anyPlace hgiven)
      | some text =>
          rcases hv.wildcard text hgiven with ⟨n, hn, hle⟩
          rw [(h.wildcard text hgiven).unique hn]
          exact hle
    · rcases hv.tables cls with ⟨entries, hlists, horderly⟩
      rw [entries_unique (h.tables cls) hlists]
      exact horderly

/-- Everything that a valid description leaves open is determined by it. -/
theorem exists_reflects {s : Source} {layout : Layout} (h : s.Valid layout) :
    ∃ t : Target, t.Reflects s := by
  have hsize : ∀ key ∈ sizeOptions, ∃ n, s.Gives key n := h.sizes
  simp only [sizeOptions, List.forall_mem_cons] at hsize
  rcases hsize with ⟨⟨memory, hmemory⟩, ⟨dicLines, hdicLines⟩, ⟨dicPlaces, hdicPlaces⟩,
    ⟨docLines, hdocLines⟩, ⟨docPlaces, hdocPlaces⟩, -⟩
  choose entries hlists _ using h.tables
  have hwildcard : ∃ wildcard, (∀ text, s.value? "Assembler_Property.WildcardPlace" = some text →
        ReadsAs text wildcard) ∧ (s.value? "Assembler_Property.WildcardPlace" = none →
          wildcard = 2 ^ layout.placeBits - 1) := by
    cases hgiven : s.value? "Assembler_Property.WildcardPlace" with
    | none => exact ⟨_, fun _ h => (by cases h), fun _ => rfl⟩
    | some text =>
        rcases h.wildcard text hgiven with ⟨n, hn, -⟩
        refine ⟨n, fun text' h => ?_, fun h => (by cases h)⟩
        cases h
        exact hn
  rcases hwildcard with ⟨wildcard, hgiven, hdefault⟩
  exact ⟨⟨layout, wildcard, memory, s.value? "General.Output", ⟨"Dic", dicLines, dicPlaces⟩,
    ⟨"Doc", docLines, docPlaces⟩, fun cls => ⟨cls, entries cls⟩⟩, h, hgiven, hdefault, hmemory,
    hdicLines, hdicPlaces, hdocLines, hdocPlaces, ⟨rfl, rfl⟩, rfl, fun _ => rfl, hlists⟩

end Target

/-- **Validation is sound and complete.** A description is accepted exactly if it
    is valid. What is read then has exactly what the description says; what is
    refused is refused for the description, and with nothing having been shifted
    by more than a word is wide. -/
theorem ofSource_valid (s : Source) :
    ((∃ t, Target.ofSource s = .ok t) ↔ ∃ layout, s.Valid layout) ∧
      (∀ t, Target.ofSource s = .ok t → t.Reflects s) ∧
      ((¬ ∃ layout, s.Valid layout) → ∃ cause, Target.ofSource s = .error cause ∧
        (Cause.config cause).kind = .config) ∧
      ∀ layout, Target.readLayout s = .ok layout →
        layout.opcodeBits < 16 ∧ layout.placeBits < 16 := by
  have hiff : (∃ t, Target.ofSource s = .ok t) ↔ ∃ layout, s.Valid layout := by
    constructor
    · rintro ⟨t, ht⟩
      exact ⟨_, (Target.ofSource_eq_ok.1 ht).valid⟩
    · rintro ⟨layout, hvalid⟩
      rcases Target.exists_reflects hvalid with ⟨t, ht⟩
      exact ⟨t, Target.ofSource_eq_ok.2 ht⟩
  refine ⟨hiff, fun t => Target.ofSource_eq_ok.1, fun hinvalid => ?_, fun layout hlayout => ?_⟩
  · cases hsource : Target.ofSource s with
    | error cause => exact ⟨cause, rfl, rfl⟩
    | ok t => exact absurd (hiff.1 ⟨t, hsource⟩) hinvalid
  · rcases Target.readLayout_eq_ok.1 hlayout with ⟨-, -, -, hroom⟩
    omega

end UnrollAsm
