import UnrollAsm.Text.Lines

/-!
# Paths

A path is a starting point and the segments after it, divided by slashes.
Nothing is dropped when a path is read, so its text comes back as it was. Empty
segments and single dots name nothing and are passed over, except that a path
may start with a dot.

## Main definitions

* `Path`, `Path.parse`, `Path.text`: A path and its text.
* `Path.parent?`: The path without its last component.
* `Path.fileName?`, `Path.extension?`: Parts of the last component.

## Theorems

* `Path.weight_of_parent?`: A parent is shorter than its child.
-/

namespace UnrollAsm

/-- Where a path starts. -/
inductive Anchor where
  /-- In the working directory. -/
  | here
  /-- In the working directory, with a dot in front. -/
  | dot
  /-- At the root. -/
  | root
  deriving DecidableEq, Repr

/-- A starting point and the segments after it. -/
structure Path where
  anchor : Anchor
  segments : List String
  deriving DecidableEq, Repr

namespace Path

/-- The stretches between the slashes of a text. -/
def split (cs : List Char) : List String :=
  match Text.cut '/' cs with
  | (ended, tail) => (ended ++ [tail]).map String.ofList

/-- Reads a path. -/
def parse (text : String) : Path :=
  match text.toList with
  | ['.'] => ⟨.dot, []⟩
  | '.' :: '/' :: rest => ⟨.dot, split rest⟩
  | '/' :: rest => ⟨.root, split rest⟩
  | cs => ⟨.here, split cs⟩

/-- The text of a path. -/
def text (p : Path) : String :=
  let body := "/".intercalate p.segments
  match p.anchor with
  | .here => body
  | .dot => if p.segments.isEmpty then "." else "./" ++ body
  | .root => "/" ++ body

/-- The path has no text at all. -/
def isEmpty (p : Path) : Bool :=
  p.anchor = .here && p.segments.all (· = "") && p.segments.length ≤ 1

/-- The text of the path holds the character that ends names. -/
def hasNul (p : Path) : Bool :=
  p.text.toList.any (· = '\x00')

/-- The segment names nothing. -/
def isFiller (segment : String) : Bool :=
  segment = "" || segment = "."

/-- The last component that is not passed over, with the segments in front of
    it in reverse. -/
def unsnoc (p : Path) : Option (List String × String) :=
  match p.segments.reverse.dropWhile isFiller with
  | [] => none
  | last :: before => some (before.dropWhile isFiller, last)

/-- The path without its last component. The root and the empty path have no
    parent, and the parent of a lone dot is the empty path. -/
def parent? (p : Path) : Option Path :=
  match p.unsnoc with
  | some (before, _) => some ⟨p.anchor, before.reverse⟩
  | none => if p.anchor = .dot then some ⟨.here, []⟩ else none

/-- The last component, if it is a name. -/
def fileName? (p : Path) : Option String :=
  match p.unsnoc with
  | some (_, last) => if last = ".." then none else some last
  | none => none

/-- What follows the last dot of a file name, unless the name starts with that
    dot. -/
def extensionOf? (name : String) : Option String :=
  let reversed := name.toList.reverse
  match reversed.dropWhile (· ≠ '.') with
  | _ :: _ :: _ => some (String.ofList (reversed.takeWhile (· ≠ '.')).reverse)
  | _ => none

/-- The extension of the last component. -/
def extension? (p : Path) : Option String :=
  p.fileName?.bind extensionOf?

/-- A measure of a path that its parent falls short of. -/
def weight (p : Path) : Nat :=
  p.segments.length + if p.anchor = .dot then 1 else 0

/-- What is left in front of the last component has fewer segments. -/
theorem length_of_unsnoc {p : Path} {before : List String} {last : String}
    (h : p.unsnoc = some (before, last)) : before.length < p.segments.length := by
  unfold unsnoc at h
  split at h
  · cases h
  · rename_i x xs hx
    cases h
    have hdrop := (List.dropWhile_sublist (p := isFiller) (l := p.segments.reverse)).length_le
    have hrest := (List.dropWhile_sublist (p := isFiller) (l := xs)).length_le
    rw [hx] at hdrop
    simp only [List.length_cons, List.length_reverse] at hdrop
    omega

/-- A parent weighs less than its child. -/
theorem weight_of_parent? {p q : Path} (h : p.parent? = some q) : q.weight < p.weight := by
  unfold parent? at h
  split at h
  · rename_i before last hu
    cases h
    have := length_of_unsnoc hu
    simp only [weight, List.length_reverse]
    omega
  · split at h
    · rename_i hdot
      cases h
      simp [weight, hdot]
    · cases h

end Path

end UnrollAsm
