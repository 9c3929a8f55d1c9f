import UnrollAsm.Target.Document
import UnrollAsm.Target.Mnemonics
import UnrollAsm.Word.Basic

/-!
# Targets

The hardware a program is assembled for: the widths of the fields in a machine
word, the size of the shared memory, the two caches, and the mnemonics with
their machine ids. A target is read from a description once, up front, and
everything in it is checked there: after that the widths leave room for a cache
line, the wildcard fits in a place, and every machine id fits in its field.

The options are read in a fixed order, so of several mistakes in a description
the first in that order is reported.

## Main definitions

* `Cache`: The size of a cache.
* `Target`: The hardware a program is assembled for.
* `Target.ofSource`: Reads a target from a description.
* `Target.parse`: Reads a target from a document.
* `Target.resolve?`: The class and machine id of a mnemonic.
* `Target.cache`: The cache that limits the operands of a command.
-/

namespace UnrollAsm

/-- A cache with its numbers of lines and of places in a line. -/
structure Cache where
  name : String
  lines : Nat
  places : Nat
  deriving DecidableEq, Repr

/-- The hardware a program is assembled for. -/
structure Target where
  layout : Layout
  /-- The place that stands for any place. -/
  wildcard : Nat
  /-- The greatest address in shared memory. -/
  memory : Nat
  /-- Where the listing goes unless the user says otherwise. -/
  output : Option String
  dic : Cache
  doc : Cache
  table : InstructionClass → MnemonicTable

/-- Reads the text of an option as an unsigned number. -/
def unsignedOption (key text : String) : Except ConfigCause Nat :=
  match Text.unsigned32? (Text.trimList text.toList) with
  | some n => .ok n
  | none => .error (.notUnsigned key text)

/-- Reads an option that has to be there. -/
def Source.number (s : Source) (key : String) : Except ConfigCause Nat :=
  match s.value? key with
  | some text => unsignedOption key text
  | none => .error (.missing key)

namespace Target

/-- Reads the widths of the fields. -/
def readLayout (s : Source) : Except ConfigCause Layout := do
  let opcodeBits ← s.number "Assembler_Property.OpCodeSize"
  let placeBits ← s.number "Assembler_Property.PlaceSize"
  let layout : Layout := ⟨opcodeBits, placeBits⟩
  if layout.isUsable then return layout
  else throw (.noRoomForLine opcodeBits placeBits)

/-- Reads the place that stands for any place: the greatest one unless the
    description says otherwise. -/
def readWildcard (s : Source) (layout : Layout) : Except ConfigCause Nat := do
  let wildcard ← match s.value? "Assembler_Property.WildcardPlace" with
    | some text => unsignedOption "Assembler_Property.WildcardPlace" text
    | none => pure layout.placeMask
  if wildcard ≤ layout.placeMask then return wildcard
  else throw (.wildcardTooWide wildcard layout.placeBits)

/-- Reads the size of a cache. -/
def readCache (s : Source) (name : String) : Except ConfigCause Cache := do
  let lines ← s.number s!"VCGRA_Property.Num_{name}_Lines"
  let places ← s.number s!"VCGRA_Property.Num_{name}_Places"
  return ⟨name, lines, places⟩

/-- Checks an entry of a mnemonic table beyond its being a number: arithmetic
    mnemonics are fixed, and other machine ids have to fit in their field. -/
def checkEntry (layout : Layout) (cls : InstructionClass) (mnemonic : String) (id : Nat) :
    Except ConfigCause Unit :=
  if cls = .arithmetic then
    if (Arithmetic.ofMnemonic? mnemonic).isSome then .ok ()
    else .error (.notArithmetic mnemonic)
  else
    if id ≤ layout.opcodeMask then .ok ()
    else .error (.idTooWide s!"{cls.heading}.{mnemonic}" id layout.opcodeBits)

/-- Reads one entry into a mnemonic table. -/
def readEntry (layout : Layout) (table : MnemonicTable) (entry : String × String) :
    Except ConfigCause MnemonicTable := do
  let (mnemonic, text) := entry
  let id ← unsignedOption s!"{table.cls.heading}.{mnemonic}" text
  checkEntry layout table.cls mnemonic id
  table.insert mnemonic id

/-- Reads the mnemonic table of a class. -/
def readTable (s : Source) (layout : Layout) (cls : InstructionClass) :
    Except ConfigCause MnemonicTable :=
  (s.entries cls.heading).foldlM (readEntry layout) (.empty cls)

/-- Reads a target from its description. -/
def ofSource (s : Source) : Except ConfigCause Target := do
  let layout ← readLayout s
  let wildcard ← readWildcard s layout
  let memory ← s.number "VCGRA_Property.Available_Memory"
  let dic ← readCache s "Dic"
  let doc ← readCache s "Doc"
  let noOperand ← readTable s layout .noOperand
  let oneOperand ← readTable s layout .oneOperand
  let twoOperand ← readTable s layout .twoOperand
  let threeOperand ← readTable s layout .threeOperand
  let arithmetic ← readTable s layout .arithmetic
  return {
    layout, wildcard, memory, dic, doc
    output := s.value? "General.Output"
    table := fun
      | .noOperand => noOperand
      | .oneOperand => oneOperand
      | .twoOperand => twoOperand
      | .threeOperand => threeOperand
      | .arithmetic => arithmetic }

/-- Reads a target from the text of a document. -/
def parse (text : String) : Except Diagnostic Target := do
  let document ← Document.parse text
  (ofSource document.source).mapError fun cause => .general (.config cause)

/-- The class and the machine id of a mnemonic, from the first table that lists
    it. -/
def resolve? (t : Target) (mnemonic : String) : Option (InstructionClass × Nat) :=
  InstructionClass.all.findSome? fun cls => ((t.table cls).machineId? mnemonic).map (cls, ·)

/-- The caches, in the order in which table positions select them. -/
def caches (t : Target) : List Cache :=
  [t.dic, t.doc]

/-- The cache that limits the operands of a command: the first entry of a table
    addresses one cache, the second the other. -/
def cache (t : Target) (cls : InstructionClass) (id : Nat) : Except ConfigCause Cache :=
  match (t.table cls).position? id with
  | none => .error (.unlisted id cls)
  | some position =>
    match t.caches[position]? with
    | some cache => .ok cache
    | none => .error (.noCache (position + 1) cls)

end Target

end UnrollAsm
