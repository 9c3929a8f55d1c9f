import UnrollAsm.Program.Evaluate
import UnrollAsm.Proofs.Target.Validation
import UnrollAsm.Proofs.Word.RoundTrip

/-!
# Which Operands Have a Word

An operand is compared with the cache or the memory that it addresses, and then
the packed half as a whole is compared with its sixteen bits. A half that is too
wide is refused for its size, which says nothing of the field that is to blame.
Machine id and place are kept inside their fields by the checks on a target, so
only the line can make a half too wide, and it does so exactly if the bits above
the other two fields cannot hold it.

Hence the operands that have a word can be told one by one, without packing
anything: a line is below the number of lines and below a power of two, an
address is up to the size of the memory and up to the greatest number of sixteen
bits, and a place is below the number of places. Taking the word apart gives them
back.

Places have no such check. What is said of commands with three operands is said
of caches whose places fit in their field.

## Main definitions

* `Layout.LineFits`, `AddressFits`, `Cache.PlaceFits`: The operands that
  can stand in a word.
* `Encodes`: A result is a word with given fields, provided that operands fit.

## Theorems

* `Encode.pack_le_iff`: When a half has room for its line.
* `encodeOne_eq_ok_iff`, `encodeTwo_eq_ok_iff`, `encodeThree_eq_ok_iff`: The words
  that encoding leads to.
* `encoders_exact`: Each encoder accepts the operands that fit, and they come back.
-/

namespace UnrollAsm

/-- The line is one of the cache, and the bits above place and machine id hold it. -/
def Layout.LineFits (l : Layout) (cache : Cache) (line : Int32) : Prop :=
  0 ≤ line.toInt ∧
    line.toInt < min (cache.lines : Int) (2 ^ (16 - l.opcodeBits - l.placeBits))

/-- The address is not beyond the memory, and sixteen bits hold it. -/
def AddressFits (memory : Nat) (address : Int32) : Prop :=
  0 ≤ address.toInt ∧ address.toInt ≤ min (memory : Int) 65535

/-- The place is one of the cache. -/
def Cache.PlaceFits (cache : Cache) (place : Int32) : Prop :=
  0 ≤ place.toInt ∧ place.toInt < cache.places

instance (l : Layout) (cache : Cache) (line : Int32) : Decidable (l.LineFits cache line) :=
  inferInstanceAs (Decidable (_ ∧ _))

instance (memory : Nat) (address : Int32) : Decidable (AddressFits memory address) :=
  inferInstanceAs (Decidable (_ ∧ _))

instance (cache : Cache) (place : Int32) : Decidable (cache.PlaceFits place) :=
  inferInstanceAs (Decidable (_ ∧ _))

/-- The result is a word with the given fields exactly if the operands fit, and a
    range error on the line of the command otherwise. -/
structure Encodes (layout : Layout) (result : Except RangeCause MachineWord) (fits : Prop)
    (fields : Fields) : Prop where
  accepts : (∃ w, result = .ok w) ↔ fits
  decodes : ∀ w, result = .ok w → w.decode layout = fields
  refuses : ∀ line f, ScopeTree.onLine line result = .error f →
    ∃ d : Diagnostic, f = .refused d ∧ d.what.kind = .range ∧ d.line = some line

namespace Encode

/-! ## The checks -/

theorem below_eq_ok_iff {role : FieldRole} {limit n : Nat} {v : Int32} :
    below role limit v = .ok n ↔ v.toInt = n ∧ n < limit := by
  constructor
  · intro h
    rcases below_eq_ok h with ⟨hn, hlt⟩
    exact ⟨hn.symm, hlt⟩
  · rintro ⟨hn, hlt⟩
    exact below_of_lt hn hlt

theorem instructionHalf_eq_ok_iff {packed : Nat} {half : UInt16} :
    instructionHalf packed = .ok half ↔ half.toNat = packed := by
  constructor
  · exact instructionHalf_eq_ok
  · rintro rfl
    have hle : half.toNat ≤ halfMask := Nat.le_of_lt_succ half.toNat_lt
    unfold instructionHalf
    rw [if_neg (Nat.not_lt.2 hle), Nat.toUInt16_eq, UInt16.ofNat_toNat]

theorem addressHalf_eq_ok_iff {memory : Nat} {v : Int32} {a : UInt16} :
    addressHalf memory v = .ok a ↔ v.toInt = a.toNat ∧ a.toNat ≤ memory := by
  constructor
  · intro h
    have hv := addressHalf_eq_ok h
    refine ⟨hv.symm, ?_⟩
    unfold addressHalf at h
    rcases exists_of_bind_eq_ok h with ⟨n, hn, h⟩
    have hn' := nonNegative_eq_ok hn
    split at h
    · cases h
    · omega
  · rintro ⟨hv, hle⟩
    have hhalf : a.toNat ≤ halfMask := Nat.le_of_lt_succ a.toNat_lt
    unfold addressHalf
    rw [nonNegative_of_toInt hv]
    simp only [bind, Except.bind]
    rw [if_neg (Nat.not_lt.2 hle), if_neg (Nat.not_lt.2 hhalf), Nat.toUInt16_eq,
      UInt16.ofNat_toNat]
    rfl

/-! ## Room for the line -/

section Room

variable {l : Layout} {id place : Nat} (hid : id < 2 ^ l.opcodeBits)
  (hplace : place < 2 ^ l.placeBits)

include hid hplace

/-- A half is not too wide exactly if the bits above place and machine id hold
    the line. -/
theorem pack_le_iff (hroom : l.opcodeBits + l.placeBits < 16) (line : Nat) :
    pack l line place id ≤ halfMask ↔ line < 2 ^ (16 - l.opcodeBits - l.placeBits) := by
  have hline : pack l line place id / 2 ^ (l.opcodeBits + l.placeBits) = line := by
    have hshift := line_pack hid line place
    rw [Nat.shiftRight_eq_zero place _ hplace, Nat.or_zero] at hshift
    rw [← Nat.shiftRight_eq_div_pow]
    exact hshift
  -- All sixteen bits are those of the line and those below it.
  have hbits : 2 ^ 16 =
      2 ^ (16 - l.opcodeBits - l.placeBits) * 2 ^ (l.opcodeBits + l.placeBits) := by
    rw [← Nat.pow_add]
    congr 1
    omega
  have hmask : pack l line place id ≤ halfMask ↔ pack l line place id < 2 ^ 16 :=
    Nat.lt_succ_iff.symm
  rw [hmask, hbits, ← Nat.div_lt_iff_lt_mul (Nat.two_pow_pos _), hline]

theorem decode_of_pack {w : MachineWord} {line : Nat}
    (h : w.instruction.toNat = pack l line place id) :
    w.decode l = ⟨w.address.toNat, line, place, id⟩ := by
  unfold MachineWord.decode
  simp only [h, line_pack hid, place_pack hid, id_pack hid, Nat.mod_eq_of_lt hplace,
    Nat.shiftRight_eq_zero place _ hplace, Nat.or_zero]

end Room

end Encode

open Encode

/-! ## Encoders -/

section Encoders

variable {target : Target} {layout : Layout} {cache : Cache} {id : Nat}
  {address line place : Int32} {w : MachineWord}

theorem encodeNone_eq_ok_iff :
    encodeNone id = .ok w ↔ w.address = 0 ∧ w.instruction.toNat = id := by
  unfold encodeNone
  simp only [bind_eq_ok, instructionHalf_eq_ok_iff]
  constructor
  · rintro ⟨half, hhalf, h⟩
    cases h
    exact ⟨rfl, hhalf⟩
  · rintro ⟨haddress, hhalf⟩
    refine ⟨_, hhalf, ?_⟩
    rw [← haddress]
    rfl

theorem encodeOne_eq_ok_iff :
    encodeOne layout cache id line = .ok w ↔ w.address = 0 ∧
      ∃ m : Nat, line.toInt = m ∧ m < cache.lines ∧
        w.instruction.toNat = pack layout m 0 id := by
  unfold encodeOne
  simp only [bind_eq_ok, below_eq_ok_iff, instructionHalf_eq_ok_iff]
  constructor
  · rintro ⟨m, ⟨hm, hlt⟩, half, hhalf, h⟩
    cases h
    exact ⟨rfl, m, hm, hlt, hhalf⟩
  · rintro ⟨haddress, m, hm, hlt, hhalf⟩
    refine ⟨m, ⟨hm, hlt⟩, _, hhalf, ?_⟩
    rw [← haddress]
    rfl

theorem encodeTwo_eq_ok_iff :
    encodeTwo target cache id address line = .ok w ↔
      (address.toInt = w.address.toNat ∧ w.address.toNat ≤ target.memory) ∧
      ∃ m : Nat, line.toInt = m ∧ m < cache.lines ∧
        w.instruction.toNat = pack target.layout m target.wildcard id := by
  unfold encodeTwo
  simp only [bind_eq_ok, addressHalf_eq_ok_iff, below_eq_ok_iff, instructionHalf_eq_ok_iff]
  constructor
  · rintro ⟨a, ha, m, ⟨hm, hlt⟩, half, hhalf, h⟩
    cases h
    exact ⟨ha, m, hm, hlt, hhalf⟩
  · rintro ⟨ha, m, hm, hlt, hhalf⟩
    exact ⟨_, ha, m, ⟨hm, hlt⟩, _, hhalf, rfl⟩

theorem encodeThree_eq_ok_iff :
    encodeThree target cache id address line place = .ok w ↔
      (address.toInt = w.address.toNat ∧ w.address.toNat ≤ target.memory) ∧
      ∃ n : Nat, place.toInt = n ∧ n < cache.places ∧
      ∃ m : Nat, line.toInt = m ∧ m < cache.lines ∧
        w.instruction.toNat = pack target.layout m n id := by
  unfold encodeThree
  simp only [bind_eq_ok, addressHalf_eq_ok_iff, below_eq_ok_iff, instructionHalf_eq_ok_iff]
  constructor
  · rintro ⟨a, ha, m, ⟨hm, hlt⟩, n, ⟨hn, hlt'⟩, half, hhalf, h⟩
    cases h
    exact ⟨ha, n, hn, hlt', m, hm, hlt, hhalf⟩
  · rintro ⟨ha, n, hn, hlt', m, hm, hlt, hhalf⟩
    exact ⟨_, ha, m, ⟨hm, hlt⟩, n, ⟨hn, hlt'⟩, _, hhalf, rfl⟩

end Encoders

/-! ## Operands that fit -/

theorem exists_address {memory : Nat} {address : Int32} :
    (∃ a : UInt16, address.toInt = a.toNat ∧ a.toNat ≤ memory) ↔
      AddressFits memory address := by
  unfold AddressFits
  constructor
  · rintro ⟨a, ha, hle⟩
    have hlt := a.toNat_lt
    omega
  · rintro ⟨hnonneg, hle⟩
    have hhalf : address.toInt.toNat ≤ halfMask := by
      unfold halfMask
      omega
    refine ⟨address.toInt.toNat.toUInt16, ?_⟩
    rw [toNat_of_le hhalf]
    omega

section Line

variable {l : Layout} {cache : Cache} {id place : Nat} {line : Int32}

theorem exists_half (hroom : l.opcodeBits + l.placeBits < 16) (hid : id < 2 ^ l.opcodeBits)
    (hplace : place < 2 ^ l.placeBits) :
    (∃ half : UInt16, ∃ m : Nat, line.toInt = m ∧ m < cache.lines ∧
      half.toNat = pack l m place id) ↔ l.LineFits cache line := by
  have hpow : ((2 ^ (16 - l.opcodeBits - l.placeBits) : Nat) : Int) =
      2 ^ (16 - l.opcodeBits - l.placeBits) := by
    push_cast
    rfl
  unfold Layout.LineFits
  rw [← hpow]
  constructor
  · rintro ⟨half, m, hm, hlines, hhalf⟩
    have hbits := (pack_le_iff hid hplace hroom m).1 (hhalf ▸ Nat.le_of_lt_succ half.toNat_lt)
    omega
  · rintro ⟨hnonneg, hlt⟩
    have hbits := (pack_le_iff hid hplace hroom line.toInt.toNat).2 (by omega)
    exact ⟨(pack l line.toInt.toNat place id).toUInt16, line.toInt.toNat, by omega, by omega,
      toNat_of_le hbits⟩

end Line

-- What an encoder complains about becomes a range error on the line of the command.
theorem onLine_eq_error {result : Except RangeCause MachineWord} {line : Nat} {f : Failure}
    (h : ScopeTree.onLine line result = .error f) :
    ∃ d : Diagnostic, f = .refused d ∧ d.what.kind = .range ∧ d.line = some line := by
  unfold ScopeTree.onLine at h
  cases result with
  | ok w => cases h
  | error cause =>
      cases h
      exact ⟨_, rfl, rfl, rfl⟩

/-- The wildcard of a target fits in the place field. -/
theorem Target.wildcard_lt {s : Source} {target : Target}
    (hsource : Target.ofSource s = .ok target) :
    target.wildcard < 2 ^ target.layout.placeBits := by
  have hle := (Target.readWildcard_eq_ok.1 (Target.ofSource_iff.1 hsource).2.1).2.2
  have hpos := Nat.two_pow_pos target.layout.placeBits
  omega

section Exact

variable {s : Source} {target : Target} (hsource : Target.ofSource s = .ok target)
  (cache : Cache) {id : Nat} (hid : id < 2 ^ target.layout.opcodeBits)

include hsource hid

theorem encodes_none : Encodes target.layout (encodeNone id) True ⟨0, 0, 0, id⟩ where
  accepts := by
    have hroom := lineShift_lt (Target.accepted_of_ofSource hsource).usable
    have hwide : id ≤ halfMask := by
      have hlt : id < 2 ^ 16 := Nat.lt_trans hid (Nat.pow_lt_pow_right (by omega) (by omega))
      unfold halfMask
      omega
    refine iff_true_intro ⟨⟨0, id.toUInt16⟩, encodeNone_eq_ok_iff.2 ⟨rfl, ?_⟩⟩
    exact toNat_of_le hwide
  decodes w hw := by
    rcases encodeNone_eq_ok_iff.1 hw with ⟨haddress, hhalf⟩
    have hpack : w.instruction.toNat = pack target.layout 0 0 id := by
      unfold pack
      rw [hhalf, Nat.zero_shiftLeft, Nat.zero_shiftLeft, Nat.zero_or, Nat.zero_or]
    rw [decode_of_pack hid (Nat.two_pow_pos _) hpack, haddress]
    rfl
  refuses _ _ := onLine_eq_error

theorem encodes_one (line : Int32) :
    Encodes target.layout (encodeOne target.layout cache id line)
      (target.layout.LineFits cache line) ⟨0, line.toInt.toNat, 0, id⟩ where
  accepts := by
    have hroom := lineShift_lt (Target.accepted_of_ofSource hsource).usable
    simp only [encodeOne_eq_ok_iff]
    rw [← exists_half hroom hid (Nat.two_pow_pos _)]
    constructor
    · rintro ⟨w, -, hhalf⟩
      exact ⟨_, hhalf⟩
    · rintro ⟨half, hhalf⟩
      exact ⟨⟨0, half⟩, rfl, hhalf⟩
  decodes w hw := by
    rcases encodeOne_eq_ok_iff.1 hw with ⟨haddress, m, hm, -, hhalf⟩
    rw [decode_of_pack hid (Nat.two_pow_pos _) hhalf, haddress, hm]
    rfl
  refuses _ _ := onLine_eq_error

theorem encodes_two (address line : Int32) :
    Encodes target.layout (encodeTwo target cache id address line)
      (AddressFits target.memory address ∧ target.layout.LineFits cache line)
      ⟨address.toInt.toNat, line.toInt.toNat, target.wildcard, id⟩ where
  accepts := by
    have hroom := lineShift_lt (Target.accepted_of_ofSource hsource).usable
    simp only [encodeTwo_eq_ok_iff]
    rw [← exists_address, ← exists_half hroom hid (Target.wildcard_lt hsource)]
    constructor
    · rintro ⟨w, ha, hhalf⟩
      exact ⟨⟨_, ha⟩, _, hhalf⟩
    · rintro ⟨⟨a, ha⟩, half, hhalf⟩
      exact ⟨⟨a, half⟩, ha, hhalf⟩
  decodes w hw := by
    rcases encodeTwo_eq_ok_iff.1 hw with ⟨⟨ha, -⟩, m, hm, -, hhalf⟩
    rw [decode_of_pack hid (Target.wildcard_lt hsource) hhalf, ha, hm]
    rfl
  refuses _ _ := onLine_eq_error

theorem encodes_three (hplaces : cache.places ≤ 2 ^ target.layout.placeBits)
    (address line place : Int32) :
    Encodes target.layout (encodeThree target cache id address line place)
      (AddressFits target.memory address ∧ target.layout.LineFits cache line ∧
        cache.PlaceFits place)
      ⟨address.toInt.toNat, line.toInt.toNat, place.toInt.toNat, id⟩ where
  accepts := by
    have hroom := lineShift_lt (Target.accepted_of_ofSource hsource).usable
    unfold Cache.PlaceFits
    simp only [encodeThree_eq_ok_iff]
    constructor
    · rintro ⟨w, ha, n, hn, hlt, hhalf⟩
      have hline := (exists_half hroom hid (Nat.lt_of_lt_of_le hlt hplaces)).1 ⟨_, hhalf⟩
      exact ⟨exists_address.1 ⟨_, ha⟩, hline, by omega, by omega⟩
    · rintro ⟨haddress, hline, hnonneg, hlt⟩
      have hplace : place.toInt.toNat < 2 ^ target.layout.placeBits := by omega
      rcases exists_address.2 haddress with ⟨a, ha⟩
      rcases (exists_half hroom hid hplace).2 hline with ⟨half, hhalf⟩
      exact ⟨⟨a, half⟩, ha, place.toInt.toNat, by omega, by omega, hhalf⟩
  decodes w hw := by
    rcases encodeThree_eq_ok_iff.1 hw with ⟨⟨ha, -⟩, n, hn, hlt, m, hm, -, hhalf⟩
    rw [decode_of_pack hid (Nat.lt_of_lt_of_le hlt hplaces) hhalf, ha, hm, hn]
    rfl
  refuses _ _ := onLine_eq_error

end Exact

/-- **Encoders accept exactly the operands that fit.** For every target that has
    been read, every cache and every machine id that fits in its field: commands
    without operands always have a word, and the others exactly if each operand is
    within its bounds, where places have to fit in their field. A word shows what
    went into it, and what has no word is a range error. -/
theorem encoders_exact {s : Source} {target : Target}
    (hsource : Target.ofSource s = .ok target) (cache : Cache) {id : Nat}
    (hid : id ≤ 2 ^ target.layout.opcodeBits - 1) :
    Encodes target.layout (encodeNone id) True ⟨0, 0, 0, id⟩ ∧
    (∀ line, Encodes target.layout (encodeOne target.layout cache id line)
      (target.layout.LineFits cache line) ⟨0, line.toInt.toNat, 0, id⟩) ∧
    (∀ address line, Encodes target.layout (encodeTwo target cache id address line)
      (AddressFits target.memory address ∧ target.layout.LineFits cache line)
      ⟨address.toInt.toNat, line.toInt.toNat, target.wildcard, id⟩) ∧
    (cache.places ≤ 2 ^ target.layout.placeBits → ∀ address line place,
      Encodes target.layout (encodeThree target cache id address line place)
        (AddressFits target.memory address ∧ target.layout.LineFits cache line ∧
          cache.PlaceFits place)
        ⟨address.toInt.toNat, line.toInt.toNat, place.toInt.toNat, id⟩) := by
  have hpos := Nat.two_pow_pos target.layout.opcodeBits
  have hlt : id < 2 ^ target.layout.opcodeBits := by omega
  exact ⟨encodes_none hsource hlt, encodes_one hsource cache hlt, encodes_two hsource cache hlt,
    encodes_three hsource cache hlt⟩

/-- A description with more lines and more memory than a word can tell apart, and
    with as many places as the place field can. -/
def roomyCaches : Document where
  entries :=
    [⟨"Assembler_Property", "OpCodeSize", "4"⟩, ⟨"Assembler_Property", "PlaceSize", "4"⟩,
     ⟨"VCGRA_Property", "Available_Memory", "100000"⟩,
     ⟨"VCGRA_Property", "Num_Dic_Lines", "5000"⟩,
     ⟨"VCGRA_Property", "Num_Dic_Places", "16"⟩,
     ⟨"VCGRA_Property", "Num_Doc_Lines", "2"⟩, ⟨"VCGRA_Property", "Num_Doc_Places", "4"⟩]

-- The last operands that fit, with the first that do not.
theorem encoders_exact_roomyCaches :
    ∃ target, Target.ofSource roomyCaches.source = .ok target ∧
      15 ≤ 2 ^ target.layout.opcodeBits - 1 ∧
      target.dic.places ≤ 2 ^ target.layout.placeBits ∧
      (∃ w, encodeOne target.layout target.dic 15 255 = .ok w) ∧
      (¬ ∃ w, encodeOne target.layout target.dic 15 256 = .ok w) ∧
      (∃ w, encodeTwo target target.dic 15 65535 255 = .ok w ∧
        w.decode target.layout = ⟨65535, 255, 15, 15⟩) ∧
      (¬ ∃ w, encodeTwo target target.dic 15 65536 255 = .ok w) ∧
      (∃ w, encodeThree target target.dic 15 65535 255 15 = .ok w ∧
        w.decode target.layout = ⟨65535, 255, 15, 15⟩) ∧
      ¬ ∃ w, encodeThree target target.dic 15 65535 255 16 = .ok w := by
  have hdata : (Target.ofSource roomyCaches.source).toOption.map
      (fun t => (t.layout, t.wildcard, t.memory, t.dic)) =
        some (⟨4, 4⟩, 15, 100000, ⟨"Dic", 5000, 16⟩) := by
    decide +kernel
  cases hsource : Target.ofSource roomyCaches.source with
  | error cause =>
      rw [hsource] at hdata
      cases hdata
  | ok target =>
      rw [hsource] at hdata
      simp only [Except.toOption, Option.map_some, Option.some.injEq, Prod.mk.injEq] at hdata
      rcases hdata with ⟨hlayout, hwildcard, hmemory, hdic⟩
      have hid : 15 ≤ 2 ^ target.layout.opcodeBits - 1 := by
        rw [hlayout]
        decide
      have hplaces : target.dic.places ≤ 2 ^ target.layout.placeBits := by
        rw [hlayout, hdic]
        decide
      rcases encoders_exact hsource target.dic hid with ⟨-, hone, htwo, hthree⟩
      replace hthree := hthree hplaces
      rw [hlayout, hdic] at hone
      rw [hlayout, hdic, hmemory, hwildcard] at htwo
      rw [hlayout, hdic, hmemory] at hthree
      rcases (htwo 65535 255).accepts.2 (by decide) with ⟨w, hw⟩
      rcases (hthree 65535 255 15).accepts.2 (by decide) with ⟨w', hw'⟩
      refine ⟨target, rfl, hid, hplaces, ?_⟩
      rw [hlayout, hdic]
      refine ⟨(hone 255).accepts.2 (by decide), ?_, ⟨w, hw, (htwo _ _).decodes w hw⟩, ?_,
        ⟨w', hw', (hthree _ _ _).decodes w' hw'⟩, ?_⟩
      · exact fun h => absurd ((hone 256).accepts.1 h) (by decide)
      · exact fun h => absurd ((htwo 65536 255).accepts.1 h) (by decide)
      · exact fun h => absurd ((hthree 65535 255 16).accepts.1 h) (by decide)

end UnrollAsm
