import UnrollAsm.Files.Disk
import UnrollAsm.Proofs.Outcome
import Mathlib.Data.List.TakeWhile
import Mathlib.Logic.Relation

/-!
# Changes of a Disk

What the operations on a disk do to it. An operation that fails changes
nothing. Creating a directory puts one where nothing was, and writing a file
puts one where no directory was; after either, the path leads to what was put.

The effects are told location by location. `StaysAt` says of a location that
what stands there has stayed, and it leaves room for one thing only: a new
directory in a free place, reached by a path of a given kind. A path that led
somewhere leads there still, since directories stay, and nothing disappears.

Creating a directory with all that is missing above it is a recursion over the
path, and it may stop half-way. The directories made until then lie on the path
or above it, however it ends.

## Main definitions

* `Path.Above`: A path is the parent of another, or above its parent.
* `Disk.Enters`: Where one segment of a path leads.
* `Disk.Keeps`: Directories stay, and nothing disappears.
* `Disk.StaysAt`, `Disk.Grown`: What has stayed, at a location and everywhere.
* `Disk.Written`: What has stayed after a file was written.
* `Disk.OnlyGrows`: An action that only adds directories.

## Theorems

* `Disk.node?_put`: What stands on a disk after a change.
* `Disk.Keeps.resolve`: Paths lead where they led.
* `Disk.extension_of_resolve`: A location has the extension of the path to it.
* `Disk.createDirectory_grown`, `Disk.write_ok`: The effects of the operations.
* `Disk.OnlyGrows.createDirectories`: The effect of creating what is missing.
-/

namespace UnrollAsm

namespace Path

/-- The path `q` is the parent of `p`, or above the parent. -/
def Above (q p : Path) : Prop :=
  Relation.TransGen (fun child parent : Path => child.parent? = some parent) p q

/-- The last segment that is not passed over, between what is in front of it
    and what is passed over. -/
theorem segments_of_dropWhile {pass : String → Bool} {segments before : List String}
    {last : String} (h : segments.reverse.dropWhile pass = last :: before) :
    pass last = false ∧ ∃ after, segments = before.reverse ++ last :: after ∧
      ∀ s ∈ after, pass s = true := by
  have hlast := List.head?_dropWhile_not pass segments.reverse
  rw [h] at hlast
  refine ⟨by simpa using hlast, (segments.reverse.takeWhile pass).reverse, ?_, ?_⟩
  · have hsplit := congrArg List.reverse
      (List.takeWhile_append_dropWhile (p := pass) (l := segments.reverse))
    rw [h, List.reverse_append, List.reverse_cons, List.append_assoc, List.singleton_append,
      List.reverse_reverse] at hsplit
    exact hsplit.symm
  · intro s hs
    exact List.mem_takeWhile_imp (List.mem_reverse.mp hs)

/-- The last segment that is not passed over, if it is a name. -/
theorem segments_of_fileName? {p : Path} {name : String} (h : p.fileName? = some name) :
    name ≠ ".." ∧ isFiller name = false ∧ ∃ before after, p.segments = before ++ name :: after ∧
      ∀ s ∈ after, isFiller s = true := by
  unfold fileName? unsnoc at h
  split at h
  · rename_i before last hu
    split at hu
    · cases hu
    · rename_i x xs hx
      cases hu
      rcases segments_of_dropWhile hx with ⟨hpass, after, hsegments, hafter⟩
      split at h
      · cases h
      · rename_i hdots
        cases h
        exact ⟨hdots, hpass, _, after, hsegments, hafter⟩
  · cases h

end Path

namespace Disk

variable {d d' : Disk} {p : Path} {l l' : Location} {segments : List String}

/-! ## What stands where -/

@[simp] theorem node?_root (d : Disk) : d.node? [] = some .directory := rfl

theorem node?_of_ne_root (hl : l ≠ []) :
    d.node? l = (d.nodes.find? fun entry => entry.1 = l).map Prod.snd := if_neg hl

@[simp] theorem working_put (d : Disk) (l : Location) (node : Node) :
    (d.put l node).working = d.working := by
  unfold put
  split <;> rfl

-- Replaced entries keep their locations, so a search finds what it found before.
theorem find?_replaced (nodes : List (Location × Node)) (l l' : Location) (node : Node) :
    (nodes.map fun entry => if entry.1 = l then (l, node) else entry).find?
        (fun entry => entry.1 = l') =
      (nodes.find? fun entry => entry.1 = l').map
        fun entry => if entry.1 = l then (l, node) else entry := by
  have hsame : (fun entry : Location × Node =>
      decide ((if entry.1 = l then (l, node) else entry).1 = l')) =
      fun entry => decide (entry.1 = l') := by
    funext entry
    by_cases h : entry.1 = l
    · rw [if_pos h, h]
    · rw [if_neg h]
  rw [List.find?_map, Function.comp_def, hsame]

/-- After a change something else stands at one location. -/
theorem node?_put (hl : l ≠ []) (node : Node) (l' : Location) :
    (d.put l node).node? l' = if l' = l then some node else d.node? l' := by
  by_cases hroot : l' = []
  · subst hroot
    rw [if_neg (Ne.symm hl), node?_root, node?_root]
  rw [node?_of_ne_root hroot, node?_of_ne_root hroot]
  unfold put
  split
  · rename_i hthere
    rw [find?_replaced]
    rcases hfound : d.nodes.find? fun entry => entry.1 = l' with _ | found
    · rw [hfound]
      split
      · rename_i h
        rw [h, List.find?_eq_none] at hfound
        rcases List.any_eq_true.mp hthere with ⟨entry, hmem, hentry⟩
        exact absurd hentry (hfound entry hmem)
      · rfl
    · have hat : found.1 = l' := by simpa using List.find?_some hfound
      rw [hfound, Option.map_some, hat]
      split <;> rfl
  · rename_i hthere
    have hfree : d.nodes.find? (fun entry => entry.1 = l) = none := by
      rw [List.find?_eq_none]
      intro entry hmem hentry
      exact hthere (List.any_eq_true.mpr ⟨entry, hmem, hentry⟩)
    rw [List.find?_append]
    split
    · rename_i h
      rw [h, hfree, Option.none_or, List.find?_cons_of_pos (by simp)]
      rfl
    · rename_i h
      rw [List.find?_cons_of_neg (by simpa using Ne.symm h), List.find?_nil, Option.or_none]

/-! ## Following paths -/

/-- One segment leads from a directory to a location. -/
inductive Enters (d : Disk) (l : Location) : String → Location → Prop where
  | filler {segment : String} (h : Path.isFiller segment = true) : Enters d l segment l
  | up : Enters d l ".." l.dropLast
  | name {segment : String} (hfiller : Path.isFiller segment = false) (hdots : segment ≠ "..")
      (hsize : segment.utf8ByteSize ≤ maxName) (hthere : (d.node? (l ++ [segment])).isSome) :
      Enters d l segment (l ++ [segment])

/-- Segments lead somewhere if the first one does, and the rest from there. -/
theorem follow_cons_eq_ok {segment : String} {rest : List String} :
    d.follow l (segment :: rest) = .ok l' ↔
      d.node? l = some .directory ∧ ∃ m, d.Enters l segment m ∧ d.follow m rest = .ok l' := by
  constructor
  · intro h
    unfold follow at h
    split at h
    · cases h
    · cases h
    · rename_i hdirectory
      refine ⟨hdirectory, ?_⟩
      split_ifs at h with hfiller hdots hsize hthere
      · exact ⟨l, .filler hfiller, h⟩
      · subst hdots
        exact ⟨_, .up, h⟩
      · exact ⟨_, .name (by simpa using hfiller) hdots (Nat.le_of_not_lt hsize) hthere, h⟩
  · rintro ⟨hdirectory, m, hm, h⟩
    unfold follow
    rw [hdirectory]
    cases hm with
    | filler hfiller => exact (if_pos hfiller).trans h
    | up => exact h
    | name hfiller hdots hsize hthere =>
        dsimp only
        rw [if_neg (by simp [hfiller]), if_neg hdots, if_neg (Nat.not_lt.mpr hsize), if_pos hthere]
        exact h

theorem follow_append {front back : List String} :
    d.follow l (front ++ back) = .ok l' ↔
      ∃ m, d.follow l front = .ok m ∧ d.follow m back = .ok l' := by
  induction front generalizing l with
  | nil =>
      constructor
      · exact fun h => ⟨l, rfl, h⟩
      · rintro ⟨m, hm, h⟩
        cases hm
        exact h
  | cons segment rest ih =>
      simp only [List.cons_append, follow_cons_eq_ok, ih]
      constructor
      · rintro ⟨hdirectory, m, hm, k, hk, h⟩
        exact ⟨k, ⟨hdirectory, m, hm, hk⟩, h⟩
      · rintro ⟨k, ⟨hdirectory, m, hm, hk⟩, h⟩
        exact ⟨hdirectory, m, hm, k, hk, h⟩

/-- Segments that are passed over lead nowhere else. -/
theorem eq_of_follow_fillers (hfillers : ∀ s ∈ segments, Path.isFiller s = true)
    (h : d.follow l segments = .ok l') : l' = l := by
  induction segments with
  | nil =>
      cases h
      rfl
  | cons segment rest ih =>
      rcases follow_cons_eq_ok.mp h with ⟨-, m, hm, h⟩
      have hfiller := hfillers segment List.mem_cons_self
      cases hm with
      | filler => exact ih (fun s hs => hfillers s (List.mem_cons_of_mem _ hs)) h
      | up => exact absurd hfiller (by decide)
      | name hname => exact absurd (hname.symm.trans hfiller) (by decide)

theorem follow_fillers (hdirectory : d.node? l = some .directory)
    (hfillers : ∀ s ∈ segments, Path.isFiller s = true) : d.follow l segments = .ok l := by
  induction segments with
  | nil => rfl
  | cons segment rest ih =>
      have hrest := ih fun s hs => hfillers s (List.mem_cons_of_mem _ hs)
      exact follow_cons_eq_ok.mpr
        ⟨hdirectory, l, .filler (hfillers segment List.mem_cons_self), hrest⟩

/-- A location has the extension of the path that leads there. -/
theorem extension_of_resolve {extension : String} (hp : p.extension? = some extension)
    (h : d.resolve p = .ok l) : ∃ name, l.getLast? = some name ∧
      Path.extensionOf? name = some extension := by
  rcases Option.bind_eq_some_iff.mp hp with ⟨name, hname, hextension⟩
  rcases Path.segments_of_fileName? hname with ⟨hdots, hfiller, before, after, hsegments, hafter⟩
  rcases exists_of_bind_eq_ok h with ⟨u, -, hfollow⟩
  rw [hsegments, follow_append] at hfollow
  rcases hfollow with ⟨m, -, hfollow⟩
  rcases follow_cons_eq_ok.mp hfollow with ⟨-, k, hk, hfollow⟩
  have hl := eq_of_follow_fillers hafter hfollow
  cases hk with
  | filler h => exact absurd (hfiller.symm.trans h) (by decide)
  | up => exact absurd rfl hdots
  | name => exact ⟨name, by rw [hl, List.getLast?_concat], hextension⟩

/-! ## What has stayed -/

/-- Directories stay directories, and nothing disappears. -/
structure Keeps (d d' : Disk) : Prop where
  working : d'.working = d.working
  directory : ∀ l, d.node? l = some .directory → d'.node? l = some .directory
  isSome : ∀ l, (d.node? l).isSome → (d'.node? l).isSome

namespace Keeps

theorem origin (h : Keeps d d') (p : Path) : d'.origin p = d.origin p := by
  unfold Disk.origin
  rw [h.working]

theorem enters (h : Keeps d d') {segment : String} (hl : d.Enters l segment l') :
    d'.Enters l segment l' := by
  cases hl with
  | filler hfiller => exact .filler hfiller
  | up => exact .up
  | name hfiller hdots hsize hthere => exact .name hfiller hdots hsize (h.isSome _ hthere)

theorem follow (h : Keeps d d') (hl : d.follow l segments = .ok l') :
    d'.follow l segments = .ok l' := by
  induction segments generalizing l with
  | nil => exact hl
  | cons segment rest ih =>
      rcases follow_cons_eq_ok.mp hl with ⟨hdirectory, m, hm, hrest⟩
      exact follow_cons_eq_ok.mpr ⟨h.directory l hdirectory, m, h.enters hm, ih hrest⟩

/-- Paths lead where they led. -/
theorem resolve (h : Keeps d d') (hp : d.resolve p = .ok l) : d'.resolve p = .ok l := by
  rcases exists_of_bind_eq_ok hp with ⟨u, haccept, hfollow⟩
  unfold Disk.resolve
  rw [haccept, h.origin p]
  exact h.follow hfollow

end Keeps

/-- What stands at a location has stayed there, but a directory may have
    appeared in a free place that one of the paths `way` leads to. -/
def StaysAt (way : Path → Prop) (d d' : Disk) (l : Location) : Prop :=
  d'.node? l = d.node? l ∨
    d.node? l = none ∧ d'.node? l = some .directory ∧ ∃ q, way q ∧ d'.resolve q = .ok l

/-- Nothing has changed but for new directories that the paths `way` lead to. -/
structure Grown (way : Path → Prop) (d d' : Disk) : Prop where
  working : d'.working = d.working
  stays : ∀ l, StaysAt way d d' l

/-- At one location, where no directory was, a file stands with the content.
    Nothing else has changed but for new directories that the paths `way` lead
    to. -/
structure Written (way : Path → Prop) (place : Location) (content : ByteArray) (d d' : Disk) :
    Prop where
  working : d'.working = d.working
  free : d.node? place ≠ some .directory
  file : d'.node? place = some (.file content)
  stays : ∀ l, l ≠ place → StaysAt way d d' l

variable {way : Path → Prop}

namespace StaysAt

theorem file {content : ByteArray} (h : StaysAt way d d' l)
    (hl : d.node? l = some (.file content)) : d'.node? l = some (.file content) := by
  rcases h with hsame | ⟨hfree, -⟩
  · rw [hsame, hl]
  · rw [hfree] at hl
    cases hl

theorem directory (h : StaysAt way d d' l) (hl : d.node? l = some .directory) :
    d'.node? l = some .directory := by
  rcases h with hsame | ⟨-, hnew, -⟩
  · rw [hsame, hl]
  · exact hnew

theorem isSome (h : StaysAt way d d' l) (hl : (d.node? l).isSome) : (d'.node? l).isSome := by
  rcases h with hsame | ⟨-, hnew, -⟩
  · rw [hsame]
    exact hl
  · rw [hnew]
    rfl

-- A path that leads to what is new still leads there later.
theorem trans {d₁ d₂ d₃ : Disk} (h : StaysAt way d₁ d₂ l) (hkeeps : Keeps d₂ d₃)
    (h' : StaysAt way d₂ d₃ l) : StaysAt way d₁ d₃ l := by
  rcases h with hsame | ⟨hfree, hnew, q, hq, hresolve⟩
  · rcases h' with hsame' | ⟨hfree', hnew', hway⟩
    · exact Or.inl (hsame'.trans hsame)
    · exact Or.inr ⟨hsame.symm.trans hfree', hnew', hway⟩
  · exact Or.inr ⟨hfree, h'.directory hnew, q, hq, hkeeps.resolve hresolve⟩

end StaysAt

namespace Grown

theorem refl (way : Path → Prop) (d : Disk) : Grown way d d :=
  ⟨rfl, fun _ => Or.inl rfl⟩

theorem keeps (h : Grown way d d') : Keeps d d' :=
  ⟨h.working, fun l => (h.stays l).directory, fun l => (h.stays l).isSome⟩

theorem trans {d₁ d₂ d₃ : Disk} (h : Grown way d₁ d₂) (h' : Grown way d₂ d₃) :
    Grown way d₁ d₃ :=
  ⟨h'.working.trans h.working, fun l => (h.stays l).trans h'.keeps (h'.stays l)⟩

end Grown

theorem Written.keeps {place : Location} {content : ByteArray}
    (h : Written way place content d d') : Keeps d d' := by
  refine ⟨h.working, fun l hl => ?_, fun l hl => ?_⟩
  · have hplace : l ≠ place := fun heq => h.free (heq ▸ hl)
    exact (h.stays l hplace).directory hl
  · by_cases hplace : l = place
    · rw [hplace, h.file]
      rfl
    · exact (h.stays l hplace).isSome hl

/-! ## Single operations -/

theorem keeps_putDirectory (hl : l ≠ []) : Keeps d (d.put l .directory) := by
  refine ⟨working_put d l _, fun k hk => ?_, fun k hk => ?_⟩
  · rw [node?_put hl]
    split
    · rfl
    · exact hk
  · rw [node?_put hl]
    split
    · rfl
    · exact hk

/-- A path leads to a directory and a name in it: the segments `before` lead to
    the directory, and those `after` the name are passed over. -/
structure Approaches (d : Disk) (p : Path) (parent : Location) (name : String)
    (before after : List String) : Prop where
  accepted : accept p = .ok ()
  segments : p.segments = before ++ name :: after
  leads : d.follow (d.origin p) before = .ok parent
  directory : d.node? parent = some .directory
  notFiller : Path.isFiller name = false
  notUp : name ≠ ".."
  fillers : ∀ s ∈ after, Path.isFiller s = true

/-- A place in a directory comes with the way there. Only a slash can stand
    behind the name. -/
theorem placeOf_eq_entry {parent : Location} {name : String} {slash : Bool}
    (h : d.placeOf p = .ok (.entry parent name slash)) :
    ∃ before after, d.Approaches p parent name before after ∧ (slash = false → after = []) := by
  rcases exists_of_bind_eq_ok h with ⟨u, haccept, h⟩
  dsimp only at h
  split at h
  · cases h
  rename_i last before hlast
  rcases exists_of_bind_eq_ok h with ⟨m, hfollow, h⟩
  split at h
  · rename_i hdirectory
    split at h
    · cases h
    rename_i hdots
    cases h
    rcases Path.segments_of_dropWhile hlast with ⟨hpass, after, hsegments, hafter⟩
    refine ⟨before.reverse, after, ⟨haccept, hsegments, hfollow, hdirectory, ?_,
      fun hup => hdots (Or.inr hup), fun s hs => ?_⟩, fun hslash => ?_⟩
    · simpa [Path.isFiller, hpass] using fun hdot => hdots (Or.inl hdot)
    · simp [Path.isFiller, of_decide_eq_true (hafter s hs)]
    · rcases List.eq_nil_or_concat after with hnil | ⟨front, s, rfl⟩
      · exact hnil
      · have hs := of_decide_eq_true (hafter s (by simp))
        simp [hsegments, hs] at hslash
  · cases h

/-- Once something stands at the place, the path leads there. A slash behind
    the name asks for a directory. -/
theorem resolve_of_placeOf {parent : Location} {name : String} {slash : Bool} {node : Node}
    (h : d.placeOf p = .ok (.entry parent name slash)) (hkeeps : Keeps d d')
    (hsize : name.utf8ByteSize ≤ maxName) (hnode : d'.node? (parent ++ [name]) = some node)
    (hslash : slash = true → node = .directory) : d'.resolve p = .ok (parent ++ [name]) := by
  rcases placeOf_eq_entry h with ⟨before, after, hway, hnone⟩
  have hrest : d'.follow (parent ++ [name]) after = .ok (parent ++ [name]) := by
    cases slash with
    | false =>
        rw [hnone rfl]
        rfl
    | true =>
        rw [hslash rfl] at hnode
        exact follow_fillers hnode hway.fillers
  have henters : d'.Enters parent name (parent ++ [name]) :=
    .name hway.notFiller hway.notUp hsize (by rw [hnode]; rfl)
  have hname : d'.follow parent (name :: after) = .ok (parent ++ [name]) :=
    follow_cons_eq_ok.mpr ⟨hkeeps.directory _ hway.directory, _, henters, hrest⟩
  unfold resolve
  rw [hway.accepted, hkeeps.origin p, hway.segments]
  exact follow_append.mpr ⟨parent, hkeeps.follow hway.leads, hname⟩

/-- A new directory stands where nothing stood, and its path leads there. -/
theorem createDirectory_grown (hp : way p) (h : d.createDirectory p = .ok d') :
    Grown way d d' := by
  rcases exists_of_bind_eq_ok h with ⟨place, hplace, h⟩
  cases place with
  | settled => cases h
  | entry parent name slash =>
      dsimp only at h
      split_ifs at h with hsize hthere
      cases h
      have hroot : parent ++ [name] ≠ [] := List.concat_ne_nil _ _
      have hkeeps : Keeps d (d.put (parent ++ [name]) .directory) := keeps_putDirectory hroot
      have hnode : (d.put (parent ++ [name]) .directory).node? (parent ++ [name]) =
          some .directory := by
        rw [node?_put hroot, if_pos rfl]
      have hresolve := resolve_of_placeOf hplace hkeeps (Nat.le_of_not_lt hsize) hnode fun _ => rfl
      refine ⟨hkeeps.working, fun l => ?_⟩
      by_cases hl : l = parent ++ [name]
      · subst hl
        exact Or.inr ⟨by simpa using hthere, hnode, p, hp, hresolve⟩
      · exact Or.inl (by rw [node?_put hroot, if_neg hl])

/-- A file stands where no directory stood, with the content that was written,
    and its path leads there. Nothing else has changed. -/
theorem write_ok {content : ByteArray} (h : d.write p content = .ok d') :
    ∃ place, d'.resolve p = .ok place ∧ Written way place content d d' := by
  rcases exists_of_bind_eq_ok h with ⟨place, hplace, h⟩
  cases place with
  | settled => cases h
  | entry parent name slash =>
      dsimp only at h
      split_ifs at h with hslash hsize hthere
      cases h
      have hroot : parent ++ [name] ≠ [] := List.concat_ne_nil _ _
      have hfree : d.node? (parent ++ [name]) ≠ some .directory := by
        intro hdirectory
        rw [hdirectory] at hthere
        exact hthere rfl
      have hnode : (d.put (parent ++ [name]) (.file content)).node? (parent ++ [name]) =
          some (.file content) := by
        rw [node?_put hroot, if_pos rfl]
      have hwritten : Written way (parent ++ [name]) content d
          (d.put (parent ++ [name]) (.file content)) :=
        ⟨working_put _ _ _, hfree, hnode, fun l hl => Or.inl (by rw [node?_put hroot, if_neg hl])⟩
      have hresolve := resolve_of_placeOf hplace hwritten.keeps (Nat.le_of_not_lt hsize) hnode
        fun hs => absurd hs hslash
      exact ⟨_, hresolve, hwritten⟩

/-- A file is written after the disk has grown. -/
theorem Written.of_grown {d₁ : Disk} {place : Location} {content : ByteArray}
    (hgrown : Grown way d d₁) (h : Written way place content d₁ d') :
    Written way place content d d' := by
  refine ⟨h.working.trans hgrown.working, fun hl => h.free ((hgrown.stays _).directory hl),
    h.file, fun l hl => ?_⟩
  exact (hgrown.stays l).trans h.keeps (h.stays l hl)

/-! ## Files at paths -/

theorem info_file {size : Nat} (h : d.info p = .ok (.file size)) :
    ∃ l content, d.resolve p = .ok l ∧ d.node? l = some (.file content) ∧ content.size = size := by
  rcases exists_of_bind_eq_ok h with ⟨l, hl, h⟩
  split at h
  · cases h
  · rename_i content hnode
    cases h
    exact ⟨l, content, hl, hnode, rfl⟩
  · cases h

/-- A path leads to the same content if what stands at its location has stayed. -/
theorem Keeps.read (h : Keeps d d') (hl : d.resolve p = .ok l)
    (hsame : d'.node? l = d.node? l) : d'.read p = d.read p := by
  unfold Disk.read
  rw [h.resolve hl, hl]
  dsimp only [bind, Except.bind]
  rw [hsame]

/-! ## Directories and what is missing above them -/

theorem run_change (step : Disk → Except FileError Disk) (d : Disk) :
    (change step).run d = match step d with
      | .ok d' => (.ok (), d')
      | .error e => (.error e, d) := by
  unfold change
  simp only [StateT.run_bind, StateT.run_get, pure_bind]
  cases step d <;> rfl

/-- Whatever the disk, an action only adds directories that the paths `way`
    lead to. -/
def OnlyGrows {α : Type} (way : Path → Prop) (action : StateM Disk α) : Prop :=
  ∀ d, Grown way d (action.run d).2

namespace OnlyGrows

variable {α β : Type}

theorem pure (a : α) : OnlyGrows way (pure a) := fun d => Grown.refl way d

theorem bind {action : StateM Disk α} {next : α → StateM Disk β} (h : OnlyGrows way action)
    (hnext : ∀ a, OnlyGrows way (next a)) : OnlyGrows way (action >>= next) :=
  fun d => (h d).trans (hnext (action.run d).1 (action.run d).2)

theorem info (p : Path) : OnlyGrows way (FileSystem.info p : StateM Disk _) :=
  fun d => Grown.refl way d

theorem isDirectory (p : Path) : OnlyGrows way (FileSystem.isDirectory p : StateM Disk _) := by
  refine bind (info p) fun found => ?_
  split
  · exact pure _
  · exact pure _

theorem createDirectory (hp : way p) :
    OnlyGrows way (FileSystem.createDirectory p : StateM Disk _) := by
  intro d
  change Grown way d ((change fun d => d.createDirectory p).run d).2
  rw [run_change]
  rcases hcreate : d.createDirectory p with e | d'
  · exact Grown.refl way d
  · exact createDirectory_grown hp hcreate

theorem ensureDirectory (hp : way p) :
    OnlyGrows way (FileSystem.ensureDirectory p : StateM Disk _) := by
  refine bind (createDirectory hp) fun outcome => ?_
  split
  · exact pure _
  · exact bind (isDirectory p) fun there => pure _

/-- The directories that are created lie on the path or above it, even if the
    creation stops half-way. The induction follows the path upwards. -/
theorem createDirectories (hway : ∀ q r, way q → q.parent? = some r → way r) (hp : way p) :
    OnlyGrows way (FileSystem.createDirectories p : StateM Disk _) := by
  induction hweight : p.weight using Nat.strong_induction_on generalizing p with
  | _ weight ih =>
    rw [FileSystem.createDirectories]
    split
    · exact pure _
    · refine bind (createDirectory hp) fun outcome => ?_
      split
      · exact pure _
      · split
        · exact pure _
        · rename_i parent hparent
          have hlt : parent.weight < weight := hweight ▸ Path.weight_of_parent? hparent
          refine bind (ih parent.weight hlt (hway p parent hp hparent) rfl) fun above => ?_
          split
          · exact ensureDirectory hp
          · exact pure _
      · exact bind (isDirectory p) fun there => pure _

end OnlyGrows

end Disk

end UnrollAsm
