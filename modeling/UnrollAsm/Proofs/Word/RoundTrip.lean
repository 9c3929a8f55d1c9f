import Mathlib.Algebra.Group.Int.Defs
import Mathlib.Algebra.Group.Nat.Defs
import UnrollAsm.Proofs.Target
import UnrollAsm.Word.Encode

/-!
# What a Word Remembers

A three-operand word is packed from an address, a line, a place and a machine id,
and this file says what is found when it is taken apart again. Address and
machine id always come back. Of the place only the bits come back for which the
layout has room; the others are merged into the line, which sits right above it.

So a word loses nothing exactly if its place fits in the place field. That is not
checked anywhere: a place is compared with the number of places in the cache, the
packed half with sixteen bits, and the number of places with nothing. Hence the
words of a cache lose nothing exactly if the cache has no more places than the
field can tell apart, or no lines at all.

## Main definitions

* `Fields.Shows`: The fields are the operands that went in.
* `Lossless`: All words on a cache show their operands.
* `Separating`: Different operands on a cache have different words.

## Theorems

* `Encode.line_pack`, `Encode.place_pack`, `Encode.id_pack`: The fields of a packed half.
* `decode_encodeThree`: The fields of an encoded word.
* `encodeThree_lossless`: Words lose nothing exactly if places fit their field.
-/

namespace UnrollAsm

/-- The fields of a word are the operands and the machine id that went in. -/
structure Fields.Shows (f : Fields) (address line place : Int32) (id : Nat) : Prop where
  address : (f.address : Int) = address.toInt
  line : (f.line : Int) = line.toInt
  place : (f.place : Int) = place.toInt
  machineId : f.machineId = id

namespace Encode

/-! ## The checks -/

theorem nonNegative_eq_ok {role : FieldRole} {v : Int32} {n : Nat}
    (h : nonNegative role v = .ok n) : (n : Int) = v.toInt := by
  unfold nonNegative at h
  split at h
  · cases h
  · rename_i hneg
    cases h
    have hlt : ¬ v.toInt < 0 := by
      intro hlt
      refine hneg (Int32.lt_iff_toInt_lt.2 ?_)
      simpa using hlt
    omega

theorem below_eq_ok {role : FieldRole} {limit : Nat} {v : Int32} {n : Nat}
    (h : below role limit v = .ok n) : (n : Int) = v.toInt ∧ n < limit := by
  unfold below at h
  rcases exists_of_bind_eq_ok h with ⟨m, hm, h⟩
  split at h
  · rename_i hlt
    cases h
    exact ⟨nonNegative_eq_ok hm, hlt⟩
  · cases h

theorem toNat_of_le {n : Nat} (h : n ≤ halfMask) : n.toUInt16.toNat = n := by
  unfold halfMask at h
  rw [Nat.toUInt16_eq, UInt16.toNat_ofNat']
  exact Nat.mod_eq_of_lt (by omega)

theorem addressHalf_eq_ok {memory : Nat} {v : Int32} {a : UInt16}
    (h : addressHalf memory v = .ok a) : (a.toNat : Int) = v.toInt := by
  unfold addressHalf at h
  rcases exists_of_bind_eq_ok h with ⟨n, hn, h⟩
  split at h
  · cases h
  · split at h
    · cases h
    · rename_i hle
      cases h
      rw [toNat_of_le (Nat.le_of_not_lt hle)]
      exact nonNegative_eq_ok hn

theorem instructionHalf_eq_ok {packed : Nat} {half : UInt16}
    (h : instructionHalf packed = .ok half) : half.toNat = packed := by
  unfold instructionHalf at h
  split at h
  · cases h
  · rename_i hle
    cases h
    exact toNat_of_le (Nat.le_of_not_lt hle)

/-! ## The packed half -/

section Pack

variable {l : Layout} {id : Nat} (hid : id < 2 ^ l.opcodeBits) (line place : Nat)

include hid

-- Below the machine id, line and place are one number.
theorem pack_shiftRight :
    pack l line place id >>> l.opcodeBits = (line <<< l.placeBits) ||| place := by
  unfold pack Layout.lineShift Layout.placeShift
  rw [Nat.shiftRight_or_distrib, Nat.shiftRight_or_distrib, Nat.shiftRight_eq_zero id _ hid,
    Nat.or_zero, Nat.shiftLeft_shiftRight, Nat.add_comm l.opcodeBits l.placeBits,
    Nat.shiftLeft_add, Nat.shiftLeft_shiftRight]

theorem line_pack :
    pack l line place id >>> l.lineShift = line ||| (place >>> l.placeBits) := by
  unfold Layout.lineShift
  rw [Nat.shiftRight_add, pack_shiftRight hid, Nat.shiftRight_or_distrib,
    Nat.shiftLeft_shiftRight]

theorem place_pack :
    (pack l line place id >>> l.placeShift) &&& l.placeMask = place % 2 ^ l.placeBits := by
  unfold Layout.placeShift Layout.placeMask
  rw [pack_shiftRight hid, Nat.one_shiftLeft, Nat.and_two_pow_sub_one_eq_mod,
    Nat.or_mod_two_pow, Nat.shiftLeft_eq, Nat.mul_mod_left, Nat.zero_or]

theorem id_pack : pack l line place id &&& l.opcodeMask = id := by
  unfold pack Layout.lineShift Layout.placeShift Layout.opcodeMask
  rw [Nat.one_shiftLeft, Nat.and_two_pow_sub_one_eq_mod, Nat.or_mod_two_pow, Nat.or_mod_two_pow,
    Nat.mod_eq_of_lt hid, Nat.shiftLeft_eq, Nat.shiftLeft_eq, Nat.mul_mod_left, Nat.pow_add,
    Nat.mul_comm (2 ^ l.opcodeBits), ← Nat.mul_assoc, Nat.mul_mod_left, Nat.zero_or, Nat.zero_or]

end Pack

/-! ## Values that pass the checks -/

theorem nonNegative_of_toInt {role : FieldRole} {v : Int32} {n : Nat} (hv : v.toInt = n) :
    nonNegative role v = .ok n := by
  have hneg : ¬ v < 0 := by
    intro hneg
    have hlt : v.toInt < 0 := by simpa using Int32.lt_iff_toInt_lt.1 hneg
    omega
  unfold nonNegative
  rw [if_neg hneg, hv]
  rfl

theorem below_of_lt {role : FieldRole} {limit n : Nat} {v : Int32} (hv : v.toInt = n)
    (hlt : n < limit) : below role limit v = .ok n := by
  unfold below
  rw [nonNegative_of_toInt hv]
  simp only [bind, Except.bind]
  rw [if_pos hlt]
  rfl

end Encode

open Encode

section ThreeOperand

variable {target : Target} {cache : Cache} {id : Nat} {address line place : Int32}
  {w : MachineWord}

-- What a word is made of, with the checks that its operands have passed.
theorem encodeThree_eq_ok (h : encodeThree target cache id address line place = .ok w) :
    ∃ m n : Nat, (m : Int) = line.toInt ∧ m < cache.lines ∧
      (n : Int) = place.toInt ∧ n < cache.places ∧
      (w.address.toNat : Int) = address.toInt ∧
      w.instruction.toNat = pack target.layout m n id := by
  unfold encodeThree at h
  rcases exists_of_bind_eq_ok h with ⟨a, ha, h⟩
  rcases exists_of_bind_eq_ok h with ⟨m, hm, h⟩
  rcases exists_of_bind_eq_ok h with ⟨n, hn, h⟩
  rcases exists_of_bind_eq_ok h with ⟨half, hhalf, h⟩
  cases h
  rcases below_eq_ok hm with ⟨hline, hlines⟩
  rcases below_eq_ok hn with ⟨hplace, hplaces⟩
  exact ⟨m, n, hline, hlines, hplace, hplaces, addressHalf_eq_ok ha, instructionHalf_eq_ok hhalf⟩

/-- The fields of a word. The bits of the place that its field has no room for
    end up in the line. -/
theorem decode_encodeThree (hid : id < 2 ^ target.layout.opcodeBits)
    (h : encodeThree target cache id address line place = .ok w) :
    ∃ m n : Nat, (m : Int) = line.toInt ∧ m < cache.lines ∧
      (n : Int) = place.toInt ∧ n < cache.places ∧
      (w.address.toNat : Int) = address.toInt ∧
      w.decode target.layout =
        ⟨w.address.toNat, m ||| (n >>> target.layout.placeBits),
          n % 2 ^ target.layout.placeBits, id⟩ := by
  rcases encodeThree_eq_ok h with ⟨m, n, hm, hlines, hn, hplaces, ha, hpack⟩
  refine ⟨m, n, hm, hlines, hn, hplaces, ha, ?_⟩
  unfold MachineWord.decode
  simp only [hpack, line_pack hid, place_pack hid, id_pack hid]

/-- A word shows its operands exactly if its place fits in the place field. -/
theorem shows_iff (hid : id < 2 ^ target.layout.opcodeBits)
    (h : encodeThree target cache id address line place = .ok w) :
    (w.decode target.layout).Shows address line place id ↔
      place.toInt < 2 ^ target.layout.placeBits := by
  rcases decode_encodeThree hid h with ⟨m, n, hm, -, hn, -, ha, hdecode⟩
  have hpow : ((2 ^ target.layout.placeBits : Nat) : Int) = 2 ^ target.layout.placeBits := by
    push_cast
    rfl
  rw [hdecode, ← hn, ← hpow, Int.ofNat_lt]
  constructor
  · intro hshows
    -- The place field holds less than the field has room for.
    have hplace := hshows.place
    rw [← hn, Int.ofNat_inj] at hplace
    rw [← hplace]
    exact Nat.mod_lt _ (Nat.two_pow_pos _)
  · intro hlt
    -- No bit of the place is left over for the line.
    refine ⟨ha, ?_, ?_, rfl⟩
    · rw [Nat.shiftRight_eq_zero n _ hlt, Nat.or_zero, hm]
    · rw [Nat.mod_eq_of_lt hlt, hn]

end ThreeOperand

/-- Every word on a cache shows the operands that it was encoded from. -/
def Lossless (target : Target) (cache : Cache) (id : Nat) : Prop :=
  ∀ address line place w, encodeThree target cache id address line place = .ok w →
    (w.decode target.layout).Shows address line place id

/-- A word on a cache has been encoded from one triple of operands only. -/
def Separating (target : Target) (cache : Cache) (id : Nat) : Prop :=
  ∀ address line place address' line' place' w,
    encodeThree target cache id address line place = .ok w →
    encodeThree target cache id address' line' place' = .ok w →
    address = address' ∧ line = line' ∧ place = place'

section Bounds

variable {target : Target} {cache : Cache} {id : Nat}

theorem Lossless.separating (h : Lossless target cache id) : Separating target cache id := by
  intro address line place address' line' place' w hw hw'
  have hshows := h _ _ _ _ hw
  have hshows' := h _ _ _ _ hw'
  refine ⟨Int32.toInt_inj.1 ?_, Int32.toInt_inj.1 ?_, Int32.toInt_inj.1 ?_⟩
  · rw [← hshows.address, hshows'.address]
  · rw [← hshows.line, hshows'.line]
  · rw [← hshows.place, hshows'.place]

-- A cache with a single line tells its places apart even beyond the field.
theorem separating_of_lines_le_one (hid : id < 2 ^ target.layout.opcodeBits)
    (h : cache.lines ≤ 1) : Separating target cache id := by
  intro address line place address' line' place' w hw hw'
  rcases encodeThree_eq_ok hw with ⟨m, n, hm, hlines, hn, -, ha, hpack⟩
  rcases encodeThree_eq_ok hw' with ⟨m', n', hm', hlines', hn', -, ha', hpack'⟩
  -- Both lines are the first, so nothing but the place is above the machine id.
  have hzero : m = 0 := by omega
  have hzero' : m' = 0 := by omega
  have hplaces : n = n' := by
    have hshift := pack_shiftRight hid m n
    rw [← hpack, hpack', pack_shiftRight hid, hzero, hzero'] at hshift
    simpa using hshift.symm
  refine ⟨Int32.toInt_inj.1 ?_, Int32.toInt_inj.1 ?_, Int32.toInt_inj.1 ?_⟩
  · rw [← ha, ha']
  · rw [← hm, ← hm', hzero, hzero']
  · rw [← hn, ← hn', hplaces]

/-- Values that are small enough for all checks are encoded. -/
theorem encodeThree_of_lt {m n : Nat} {line place : Int32} (hm : line.toInt = m)
    (hlines : m < cache.lines) (hn : place.toInt = n) (hplaces : n < cache.places)
    (hpack : pack target.layout m n id ≤ halfMask) :
    encodeThree target cache id 0 line place =
      .ok ⟨0, (pack target.layout m n id).toUInt16⟩ := by
  have haddress : addressHalf target.memory 0 = .ok 0 := by
    unfold addressHalf
    rw [nonNegative_of_toInt (n := 0) rfl]
    rfl
  unfold encodeThree
  rw [haddress, below_of_lt hm hlines, below_of_lt hn hplaces]
  simp only [bind, Except.bind, instructionHalf]
  rw [if_neg (Nat.not_lt.2 hpack)]
  rfl

section Overflow

variable (husable : target.layout.isUsable = true) (hid : id < 2 ^ target.layout.opcodeBits)

include husable

theorem lineShift_lt : target.layout.opcodeBits + target.layout.placeBits < 16 := by
  unfold Layout.isUsable Layout.lineShift Layout.halfBits at husable
  simp only [Bool.and_eq_true, decide_eq_true_eq] at husable
  exact husable.2

-- The first place that the field has no room for is the value of an operand.
theorem exists_overflowing_place :
    ∃ place : Int32, place.toInt = ((2 ^ target.layout.placeBits : Nat) : Int) := by
  have hbits : target.layout.placeBits < 16 := by
    have := lineShift_lt husable
    omega
  have hpow : 2 ^ target.layout.placeBits < 2 ^ 16 := Nat.pow_lt_pow_right (by omega) hbits
  generalize 2 ^ target.layout.placeBits = n at hpow
  refine ⟨.ofInt n, Int32.toInt_ofInt_of_le ?_ ?_⟩
  · omega
  · omega

include hid

-- It is packed like the next line's first place, within the sixteen bits.
theorem pack_overflow :
    pack target.layout 0 (2 ^ target.layout.placeBits) id = pack target.layout 1 0 id ∧
      pack target.layout 1 0 id ≤ halfMask := by
  have hshift := lineShift_lt husable
  refine ⟨?_, ?_⟩
  · unfold pack Layout.lineShift Layout.placeShift
    rw [Nat.zero_shiftLeft, Nat.zero_shiftLeft, Nat.zero_or, Nat.or_zero, Nat.shiftLeft_eq,
      Nat.one_shiftLeft, ← Nat.pow_add, Nat.add_comm]
  · -- The line's lowest bit is one of the sixteen, and the machine id is below it.
    unfold pack Layout.lineShift Layout.placeShift halfMask
    rw [Nat.zero_shiftLeft, Nat.or_zero, Nat.one_shiftLeft]
    have hline : 2 ^ (target.layout.opcodeBits + target.layout.placeBits) < 2 ^ 16 :=
      Nat.pow_lt_pow_right (by omega) hshift
    have hfield : id < 2 ^ 16 :=
      Nat.lt_trans hid (Nat.pow_lt_pow_right (by omega) (by omega))
    have hor := Nat.or_lt_two_pow hline hfield
    omega

/-- Beyond the field there is a word for it, and it is also the word for the
    next line if there is one. -/
theorem exists_overflowing_word (hlines : 0 < cache.lines)
    (hplaces : 2 ^ target.layout.placeBits < cache.places) :
    ∃ place w, place.toInt = ((2 ^ target.layout.placeBits : Nat) : Int) ∧
      encodeThree target cache id 0 0 place = .ok w ∧
      (1 < cache.lines → encodeThree target cache id 0 1 0 = .ok w) := by
  rcases exists_overflowing_place husable with ⟨place, hplace⟩
  rcases pack_overflow husable hid with ⟨hsame, hhalf⟩
  refine ⟨place, ⟨0, (pack target.layout 1 0 id).toUInt16⟩, hplace, ?_, fun hmore => ?_⟩
  · rw [← hsame] at hhalf ⊢
    exact encodeThree_of_lt rfl hlines hplace hplaces hhalf
  · exact encodeThree_of_lt rfl hmore rfl (Nat.zero_lt_of_lt hplaces) hhalf

end Overflow

section Exact

variable (husable : target.layout.isUsable = true) (hid : id < 2 ^ target.layout.opcodeBits)

include husable hid

/-- Words on a cache lose nothing exactly if its places fit in their field, or
    it has no lines. -/
theorem lossless_iff :
    Lossless target cache id ↔
      cache.lines = 0 ∨ cache.places ≤ 2 ^ target.layout.placeBits := by
  constructor
  · intro h
    rcases Nat.eq_zero_or_pos cache.lines with hlines | hlines
    · exact Or.inl hlines
    · refine Or.inr (Nat.le_of_not_lt fun hplaces => ?_)
      rcases exists_overflowing_word husable hid hlines hplaces with ⟨place, w, hplace, hw, -⟩
      -- This word would show a place that does not fit.
      have hlt := (shows_iff hid hw).1 (h _ _ _ _ hw)
      rw [hplace] at hlt
      push_cast at hlt
      exact Int.lt_irrefl _ hlt
  · intro h address line place w hw
    refine (shows_iff hid hw).2 ?_
    rcases encodeThree_eq_ok hw with ⟨m, n, -, hlines, hn, hplaces, -⟩
    rcases h with h | h
    · omega
    · have hlt : n < 2 ^ target.layout.placeBits := Nat.lt_of_lt_of_le hplaces h
      rw [← hn]
      exact_mod_cast hlt

/-- Different operands on a cache have different words exactly if its places fit
    in their field, or it has one line at most. -/
theorem separating_iff :
    Separating target cache id ↔
      cache.lines ≤ 1 ∨ cache.places ≤ 2 ^ target.layout.placeBits := by
  constructor
  · intro h
    rcases Nat.lt_or_ge 1 cache.lines with hlines | hlines
    · refine Or.inr (Nat.le_of_not_lt fun hplaces => ?_)
      rcases exists_overflowing_word husable hid (Nat.zero_lt_of_lt hlines) hplaces with
        ⟨place, w, -, hw, hw'⟩
      -- The first line and the second have one word.
      exact absurd (h _ _ _ _ _ _ _ hw (hw' hlines)).2.1 (by decide)
    · exact Or.inl hlines
  · intro h
    rcases h with h | h
    · exact separating_of_lines_le_one hid h
    · exact ((lossless_iff husable hid).2 (Or.inr h)).separating

end Exact

end Bounds

/-- A machine id that a table lists fits in its field. -/
theorem Target.Accepted.id_lt {target : Target} (h : target.Accepted) {cls : InstructionClass}
    (hcls : cls ≠ .arithmetic) {e : String × Nat} (he : e ∈ (target.table cls).entries) :
    e.2 < 2 ^ target.layout.opcodeBits := by
  have hle := h.fits cls hcls e he
  have hpos := Nat.two_pow_pos target.layout.opcodeBits
  unfold Layout.opcodeMask at hle
  rw [Nat.one_shiftLeft] at hle
  omega

/-- A word shows its operands exactly if its place fits in the place field. So no
    word on a cache loses anything exactly if the places of the cache fit there,
    and then line and place are those of the cache again. -/
theorem encodeThree_lossless {s : Source} {target : Target}
    (hsource : Target.ofSource s = .ok target) (cache : Cache) {mnemonic : String} {id : Nat}
    (hid : (mnemonic, id) ∈ (target.table .threeOperand).entries) :
    (∀ address line place w, encodeThree target cache id address line place = .ok w →
      ((w.decode target.layout).Shows address line place id ↔
        place.toInt < 2 ^ target.layout.placeBits)) ∧
    (Lossless target cache id ↔
      cache.lines = 0 ∨ cache.places ≤ 2 ^ target.layout.placeBits) ∧
    (Separating target cache id ↔
      cache.lines ≤ 1 ∨ cache.places ≤ 2 ^ target.layout.placeBits) ∧
    (cache.places ≤ 2 ^ target.layout.placeBits →
      ∀ address line place w, encodeThree target cache id address line place = .ok w →
        (w.decode target.layout).line < cache.lines ∧
        (w.decode target.layout).place < cache.places) := by
  have haccepted := Target.accepted_of_ofSource hsource
  have hfits : id < 2 ^ target.layout.opcodeBits := haccepted.id_lt (by decide) hid
  have hlossless : Lossless target cache id ↔ _ := lossless_iff haccepted.usable hfits
  refine ⟨fun _ _ _ _ => shows_iff hfits, hlossless, separating_iff haccepted.usable hfits,
    fun hplaces address line place w hw => ?_⟩
  have hshows := hlossless.2 (Or.inr hplaces) _ _ _ _ hw
  rcases encodeThree_eq_ok hw with ⟨m, n, hm, hlt, hn, hlt', -⟩
  have hline := hshows.line
  have hplace := hshows.place
  omega

/-- A description whose caches have eight places in a line, while two bits are
    all that a place gets. -/
def crowdedLines : Document where
  entries :=
    [⟨"Assembler_Property", "OpCodeSize", "4"⟩, ⟨"Assembler_Property", "PlaceSize", "2"⟩,
     ⟨"VCGRA_Property", "Available_Memory", "1024"⟩,
     ⟨"VCGRA_Property", "Num_Dic_Lines", "4"⟩, ⟨"VCGRA_Property", "Num_Dic_Places", "8"⟩,
     ⟨"VCGRA_Property", "Num_Doc_Lines", "2"⟩, ⟨"VCGRA_Property", "Num_Doc_Places", "4"⟩,
     ⟨"ThreeOperator", "DIC", "7"⟩, ⟨"ThreeOperator", "DOC", "8"⟩]

theorem crowdedLines_lose :
    ∃ target, Target.ofSource crowdedLines.source = .ok target ∧
      ("DIC", 7) ∈ (target.table .threeOperand).entries ∧
      ¬ Lossless target target.dic 7 ∧ ¬ Separating target target.dic 7 ∧
      Lossless target target.doc 7 := by
  have hdata : (Target.ofSource crowdedLines.source).toOption.map
      (fun t => (t.layout, t.dic, t.doc, (t.table .threeOperand).entries)) =
        some (⟨4, 2⟩, ⟨"Dic", 4, 8⟩, ⟨"Doc", 2, 4⟩, [("DIC", 7), ("DOC", 8)]) := by
    decide +kernel
  cases hsource : Target.ofSource crowdedLines.source with
  | error cause =>
      rw [hsource] at hdata
      cases hdata
  | ok target =>
      rw [hsource] at hdata
      simp only [Except.toOption, Option.map_some, Option.some.injEq, Prod.mk.injEq] at hdata
      rcases hdata with ⟨hlayout, hdic, hdoc, hentries⟩
      have hid : ("DIC", 7) ∈ (target.table .threeOperand).entries := by
        rw [hentries]
        decide
      have hdicWords := encodeThree_lossless hsource target.dic hid
      have hdocWords := encodeThree_lossless hsource target.doc hid
      rw [hlayout, hdic] at hdicWords
      rw [hlayout, hdoc] at hdocWords
      refine ⟨target, rfl, hid, ?_⟩
      rw [hdic, hdoc]
      refine ⟨?_, ?_, ?_⟩
      · exact fun h => absurd (hdicWords.2.1.1 h) (by decide)
      · exact fun h => absurd (hdicWords.2.2.1.1 h) (by decide)
      · exact hdocWords.2.1.2 (by decide)

end UnrollAsm
