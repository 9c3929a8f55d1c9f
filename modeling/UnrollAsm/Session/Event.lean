import UnrollAsm.Report.Listing
import UnrollAsm.Report.Tables

/-!
# Events

What a session has to tell about its course, kept as data. Each event has a
level of detail and a wording; a listener chooses the level up to which events
are worth hearing. An event is put in words only if somebody listens. Some events
show tables, which are left to a drawing: if it breaks off, the event has no words
at all.

## Main definitions

* `Level`: The five levels of detail.
* `Event`, `Event.level`, `Event.message?`: What happened.
* `Event.tables`: The tables that an event shows.
* `Event.isHeardAt`: The event is worth hearing at a level.
* `Event.isTellable`: Telling the event does not fail.
* `worded`: The events worth hearing at a level, in words.
-/

namespace UnrollAsm

/-- Levels of detail, from the least to the most talkative. -/
inductive Level where
  | error
  | warn
  | info
  | debug
  | trace
  deriving DecidableEq, Repr

namespace Level

/-- All levels, from the least to the most talkative. -/
def all : List Level := [error, warn, info, debug, trace]

/-- The number of a level, counted from one. -/
def rank : Level → Nat
  | error => 1
  | warn => 2
  | info => 3
  | debug => 4
  | trace => 5

/-- The name of a level. -/
def label : Level → String
  | error => "ERROR"
  | warn => "WARN"
  | info => "INFO"
  | debug => "DEBUG"
  | trace => "TRACE"

end Level

/-- Something that happened in a session. -/
inductive Event where
  /-- A line has been read as a statement. -/
  | statementRead (line : Nat) (statement : Statement)
  | loopOpened (line : Nat) (body : ScopeId) (bounds : Bounds)
  | loopClosed (line : Nat) (body : ScopeId)
  /-- All lines have been read. -/
  | programRead (statements scopes symbols : Nat)
  | treeBuilt (tree : ScopeTree)
  /-- Assembly was refused because of an earlier error. -/
  | assemblyRefused
  /-- The program was assembled before. -/
  | assembledBefore
  | wordEmitted (word : EmittedWord)
  | folded (line : Nat) (op : Arithmetic) (target : Address) (value : Int32)
  | variableReset (line : Nat) (target : Address) (value : Int32)
  | loopEntered (body : ScopeId) (bounds : Bounds) (trips : Nat)
  | tripStarted (body : ScopeId) (trip : Nat) (index : Int32)
  | loopLeft (body : ScopeId) (trips : Nat)
  | programAssembled (words : Nat)
  | disassembled (table : Grid)
  | symbolsSettled (table : Grid)
  | instructionsCleared (count : Nat)
  /-- The directory of the output did not exist. -/
  | directoryCreated (path : String)
  /-- The output existed already. -/
  | fileReplaced (path : String)
  | listingWritten (words : Nat) (path : String)
  deriving DecidableEq, Repr

namespace Event

/-- The level of detail of an event. -/
def level : Event → Level
  | assemblyRefused | assembledBefore | fileReplaced _ => .warn
  | programRead .. | programAssembled _ | directoryCreated _ | listingWritten .. => .info
  | loopOpened .. | loopClosed .. | wordEmitted _ | loopEntered .. | loopLeft ..
  | instructionsCleared _ => .debug
  | statementRead .. | treeBuilt _ | folded .. | variableReset .. | tripStarted ..
  | disassembled _ | symbolsSettled _ => .trace

/-- The tables that an event shows. -/
def tables : Event → List Grid
  | treeBuilt tree => tree.scopeTables
  | disassembled table | symbolsSettled table => [table]
  | _ => []

/-- The wording of an event, unless one of its tables cannot be drawn. -/
def message? (drawing : Drawing) : Event → Option String
  | statementRead line statement =>
    some s!"{Text.padStart 4 (toString line)}: {statement.outline}"
  | loopOpened line body bounds =>
    some s!"Line {line}: opened {body.label} with bounds {bounds.text}"
  | loopClosed line body => some s!"Line {line}: closed {body.label}"
  | programRead statements scopes symbols =>
    some s!"Parsed {statements} statements into {scopes} scopes holding {symbols} symbols"
  | treeBuilt tree => (tree.text? drawing).map ("Scope tree:\n" ++ ·)
  | assemblyRefused => some "Refusing to assemble after an earlier error"
  | assembledBefore => some "The program has already been assembled"
  | wordEmitted word =>
    some s!"{word.word.text} <- line {word.source.number}: {word.source.text}"
  | folded line op target value =>
    some s!"Line {line}: {op.mnemonic} folded into {target.text} = {Text.decimal value}"
  | variableReset line target value =>
    some s!"Line {line}: {target.text} reset to {Text.decimal value}"
  | loopEntered body bounds trips =>
    some s!"Entering {body.label} {bounds.text} ({trips} trips with fixed bounds)"
  | tripStarted body trip index =>
    some s!"{body.label} trip {trip} at index {Text.decimal index}"
  | loopLeft body trips => some s!"Leaving {body.label} after {trips} trips"
  | programAssembled words => some s!"Assembled {words} machine words"
  | disassembled table => (table.render? drawing).map ("Disassembly:\n" ++ ·)
  | symbolsSettled table => (table.render? drawing).map ("Symbols after assembly:\n" ++ ·)
  | instructionsCleared count => some s!"Cleared {count} instructions"
  | directoryCreated path => some s!"Creating output directory `{path}`"
  | fileReplaced path => some s!"File `{path}` will be replaced"
  | listingWritten words path => some s!"Wrote {words} machine words to `{path}`"

/-- The event is worth hearing at a level. Without a level nobody listens. -/
def isHeardAt (level : Option Level) (event : Event) : Bool :=
  level.any fun level => event.level.rank ≤ level.rank

/-- The event can be told to whoever listens at a level: it has words, or is
    not heard anyway. -/
def isTellable (drawing : Drawing) (level : Option Level) (event : Event) : Bool :=
  !event.isHeardAt level || (event.message? drawing).isSome

end Event

/-- The events that are worth hearing at a level, in words. -/
def worded (drawing : Drawing) (level : Level) (events : List Event) :
    List (Level × String) :=
  events.filterMap fun event =>
    if event.isHeardAt (some level) then (event.message? drawing).map (event.level, ·)
    else none

end UnrollAsm
