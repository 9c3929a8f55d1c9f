import UnrollAsm.Files.FileSystem

/-!
# Disks

A disk as a value: directories and files under their locations, and a working
directory. A path is followed segment by segment, and every segment needs a
directory to stand in, even one that names nothing; hence a slash behind the
name of a file is a mistake.

Names and paths have a greatest length. A path that is too long is refused
before it is followed, whereas a name that is too long is noticed only when it
is looked up.

There are no links, so a location is the only name of what stands there.

## Main definitions

* `Location`, `Node`, `Disk`: What stands where.
* `Disk.follow`, `Disk.resolve`: The location that a path leads to.
* `Disk.placeOf`: Where a path to something new leads.
* The operations of `FileSystem` on a disk.
-/

namespace UnrollAsm

/-- The greatest number of bytes in a name. -/
def maxName : Nat := 255

/-- The greatest number of bytes in a path. -/
def maxPath : Nat := 4095

/-- The names on the way from the root. -/
abbrev Location := List String

/-- A directory, or a file with its content. -/
inductive Node where
  | directory
  | file (content : ByteArray)

/-- The node is a directory. -/
def Node.isDirectory : Node → Bool
  | directory => true
  | file _ => false

/-- Directories and files under their locations, the root apart. -/
structure Disk where
  working : Location
  nodes : List (Location × Node)

namespace Disk

/-- What stands at a location. The root is always a directory. -/
def node? (d : Disk) (l : Location) : Option Node :=
  if l = [] then some .directory else (d.nodes.find? fun entry => entry.1 = l).map Prod.snd

/-- The disk with something at a location. -/
def put (d : Disk) (l : Location) (node : Node) : Disk :=
  if d.nodes.any fun entry => entry.1 = l then
    { d with nodes := d.nodes.map fun entry => if entry.1 = l then (l, node) else entry }
  else { d with nodes := d.nodes ++ [(l, node)] }

/-- Follows segments from a location. -/
def follow (d : Disk) (l : Location) : List String → Except FileError Location
  | [] => .ok l
  | segment :: rest =>
    match d.node? l with
    | none => .error .notFound
    | some (.file _) => .error .notDirectory
    | some .directory =>
      if Path.isFiller segment then d.follow l rest
      else if segment = ".." then d.follow l.dropLast rest
      else if segment.utf8ByteSize > maxName then .error .nameTooLong
      else if (d.node? (l ++ [segment])).isSome then d.follow (l ++ [segment]) rest
      else .error .notFound

/-- Refuses a path that no disk can follow. -/
def accept (p : Path) : Except FileError Unit :=
  if p.hasNul then .error .nulInName
  else if p.text.utf8ByteSize > maxPath then .error .nameTooLong
  else if p.isEmpty then .error .notFound
  else .ok ()

/-- The location at which a path starts. -/
def origin (d : Disk) (p : Path) : Location :=
  if p.anchor = .root then [] else d.working

/-- The location that a path leads to. -/
def resolve (d : Disk) (p : Path) : Except FileError Location := do
  accept p
  d.follow (d.origin p) p.segments

/-- Where a path to something new leads. -/
inductive Place where
  /-- To a directory that is there in any case. -/
  | settled
  /-- To a name in a directory. The name may have a slash behind it. -/
  | entry (parent : Location) (name : String) (slash : Bool)

/-- Where a path to something new leads. -/
def placeOf (d : Disk) (p : Path) : Except FileError Place := do
  accept p
  let reversed := p.segments.reverse
  match reversed.dropWhile (· = "") with
  | [] => return .settled
  | last :: before =>
    let parent ← d.follow (d.origin p) before.reverse
    match d.node? parent with
    | some .directory =>
      if last = "." ∨ last = ".." then return .settled
      else return .entry parent last (reversed.head? = some "")
    | _ => throw .notDirectory

/-- What stands at a path. -/
def info (d : Disk) (p : Path) : Except FileError FileInfo := do
  match d.node? (← d.resolve p) with
  | some .directory => return .directory
  | some (.file content) => return .file content.size
  | none => throw .notFound

/-- The content of a file. -/
def read (d : Disk) (p : Path) : Except FileError ByteArray := do
  match d.node? (← d.resolve p) with
  | some (.file content) => return content
  | some .directory => throw .isDirectory
  | none => throw .notFound

/-- The disk with a new directory. -/
def createDirectory (d : Disk) (p : Path) : Except FileError Disk := do
  match ← d.placeOf p with
  | .settled => throw .alreadyExists
  | .entry parent name _ =>
    if name.utf8ByteSize > maxName then throw .nameTooLong
    else if (d.node? (parent ++ [name])).isSome then throw .alreadyExists
    else return d.put (parent ++ [name]) .directory

/-- The disk with a new file, or with new content of a file. -/
def write (d : Disk) (p : Path) (content : ByteArray) : Except FileError Disk := do
  match ← d.placeOf p with
  | .settled => throw .isDirectory
  | .entry parent name slash =>
    if slash then throw .isDirectory
    else if name.utf8ByteSize > maxName then throw .nameTooLong
    else if (d.node? (parent ++ [name])).any Node.isDirectory then throw .isDirectory
    else return d.put (parent ++ [name]) (.file content)

/-- A change of the disk, or an error that leaves it alone. -/
def change (step : Disk → Except FileError Disk) : StateM Disk (Except FileError Unit) := do
  match step (← get) with
  | .ok d =>
    set d
    return .ok ()
  | .error e => return .error e

instance : FileSystem (StateM Disk) where
  info p := do return (← get).info p
  read p := do return (← get).read p
  createDirectory p := change fun d => d.createDirectory p
  write p content := change fun d => d.write p content

end Disk

end UnrollAsm
