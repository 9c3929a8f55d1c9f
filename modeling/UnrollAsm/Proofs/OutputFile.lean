import UnrollAsm.CommandLine.Job
import UnrollAsm.Proofs.Files.Disk
import UnrollAsm.Proofs.Report.Drawing
import UnrollAsm.Proofs.Report.Listing

/-!
# The Output File

A job changes the disk in two places. It may make directories for its output,
after the target has been accepted and before the source is read; and it writes
the listing, after everything else has gone well. So a job that fails leaves
every file as it was, and one that succeeds has written a single file. That
file is neither of the inputs, because its name has another extension.

Each action of a job has a promise: what holds of its result and of the disk,
or of the disk if it fails. The promises are put together in the order of the
actions. What a job notes on the way plays no part in them.

## Main definitions

* `JobM.exec`: The outcome of an action and the disk that it leaves.
* `JobM.Meets`: What holds after an action, whether it succeeds or fails.
* `Job.Cleared`: The inputs, the target and the name of the output are in order.
* `Job.Spares`, `Job.Delivers`: What a failed job and a successful one leave.

## Theorems

* `JobM.Meets.bind`: Two promises in a row.
* `Job.prepareOutput_meets`: The disk only grows on the way to the output.
* `Disk.IsInput.read_written`: Writing the output keeps the inputs.
* `output_only_on_success`: The effect of a job on the disk.
-/

namespace UnrollAsm

/-! ## Running the actions of a job -/

namespace JobM

variable {α β : Type}

/-- The outcome of an action of a job, what has been noted, and the disk that it
    leaves. -/
def exec (act : JobM (StateM Disk) α) (log : Array Event) (d : Disk) :
    (Except JobError α × Array Event) × Disk :=
  (act.run.run log).run d

/-- Actions in a row: the second is skipped after a failure. -/
theorem exec_bind (act : JobM (StateM Disk) α) (f : α → JobM (StateM Disk) β)
    (log : Array Event) (d : Disk) : (act >>= f).exec log d = match act.exec log d with
      | ((.ok a, log'), d') => (f a).exec log' d'
      | ((.error e, log'), d') => ((.error e, log'), d') := by
  unfold exec
  simp only [ExceptT.run_bind, StateT.run_bind]
  generalize (act.run.run log).run d = out
  rcases out with ⟨⟨e | a, log'⟩, d'⟩
  · rfl
  · rfl

/-- What holds after an action on a disk, whatever has been noted before:
    `done` of its result and the disk, or `failed` of the disk that a failure
    leaves behind. -/
structure Meets (act : JobM (StateM Disk) α) (d : Disk) (done : α → Disk → Prop)
    (failed : Disk → Prop) : Prop where
  ends : ∀ log, match act.exec log d with
    | ((.ok a, _), d') => done a d'
    | ((.error _, _), d') => failed d'

namespace Meets

variable {act : JobM (StateM Disk) α} {d : Disk} {done done' : α → Disk → Prop}
  {failed failed' : Disk → Prop}

/-- A promise may be weakened. -/
theorem mono (h : act.Meets d done failed) (hdone : ∀ a d', done a d' → done' a d')
    (hfailed : ∀ d', failed d' → failed' d') : act.Meets d done' failed' := by
  refine ⟨fun log => ?_⟩
  have hrun := h.ends log
  generalize act.exec log d = out at hrun ⊢
  rcases out with ⟨⟨e | a, log'⟩, d'⟩
  · exact hfailed d' hrun
  · exact hdone a d' hrun

/-- Two promises in a row. -/
theorem bind {f : α → JobM (StateM Disk) β} {done' : β → Disk → Prop}
    (h : act.Meets d done failed) (hf : ∀ a d', done a d' → (f a).Meets d' done' failed')
    (hfailed : ∀ d', failed d' → failed' d') : (act >>= f).Meets d done' failed' := by
  refine ⟨fun log => ?_⟩
  have hrun := h.ends log
  rw [exec_bind]
  generalize act.exec log d = out at hrun ⊢
  rcases out with ⟨⟨e | a, log'⟩, d'⟩
  · exact hfailed d' hrun
  · exact (hf a d' hrun).ends log'

theorem pure {a : α} (h : done a d) : (pure a : JobM (StateM Disk) α).Meets d done failed :=
  ⟨fun _ => h⟩

theorem throw {e : JobError} (h : failed d) :
    (throw e : JobM (StateM Disk) α).Meets d done failed :=
  ⟨fun _ => h⟩

-- A failure skips what follows.
theorem throwBind {e : JobError} {f : α → JobM (StateM Disk) β} {done : β → Disk → Prop}
    (h : failed d) : ((MonadExcept.throw e : JobM (StateM Disk) α) >>= f).Meets d done failed :=
  ⟨fun _ => h⟩

theorem note {events : List Event} {done : Unit → Disk → Prop} (h : done () d) :
    (Job.note events : JobM (StateM Disk) Unit).Meets d done failed :=
  ⟨fun _ => h⟩

theorem noteBind {events : List Event} {f : Unit → JobM (StateM Disk) β}
    {done : β → Disk → Prop} (h : (f ()).Meets d done failed) :
    ((Job.note events : JobM (StateM Disk) Unit) >>= f).Meets d done failed :=
  ⟨fun _ => h.ends _⟩

theorem query {operation : StateM Disk α} (h : done (operation.run d).1 (operation.run d).2) :
    (Job.query operation).Meets d done failed :=
  ⟨fun _ => h⟩

theorem file {name : FileError → JobError} {operation : StateM Disk (Except FileError α)}
    (hdone : ∀ a d', operation.run d = (.ok a, d') → done a d')
    (hfailed : ∀ e d', operation.run d = (.error e, d') → failed d') :
    (Job.file name operation).Meets d done failed := by
  have hquery : (Job.query operation).Meets d (fun r d' => operation.run d = (r, d')) failed :=
    query rfl
  refine hquery.bind (fun r d' hrun => ?_) fun _ h => h
  cases r with
  | error e => exact throw (hfailed e d' hrun)
  | ok a => exact pure (hdone a d' hrun)

end Meets

end JobM

/-! ## What a job leaves behind -/

/-- A regular file with the right extension stands at the path, and it is not
    empty. -/
def Disk.IsInput (d : Disk) (p : Path) (extension : String) : Prop :=
  p.extension? = some extension ∧ ∃ size, size ≠ 0 ∧ d.info p = .ok (.file size)

/-- A source text is read in a new session and assembled into words. -/
def Target.Assembles (target : Target) (source : String) (words : List EmittedWord) : Prop :=
  (∃ count, ((Assembler.new target).parseSource source).answer = .ok count) ∧
    ((Assembler.new target).parseSource source).after.assemble.answer = .ok words

namespace Job

/-- Both inputs are in order, the target has been accepted, and the output has
    the right extension. -/
structure Cleared (options : Options) (d : Disk) (target : Target) (output : Path) : Prop where
  source : d.IsInput options.file "asm"
  config : d.IsInput options.config "cfg"
  accepted : ∃ text, d.read options.config = .ok text.toUTF8 ∧ Target.parse text = .ok target
  chosen : (options.output <|> target.output.map Path.parse) = some output
  extension : output.extension? = some "vmc"

/-- A failed job leaves the disk as it was, except that a job that was cleared
    may have made directories above the output. -/
def Spares (options : Options) (d d' : Disk) : Prop :=
  d' = d ∨ ∃ target output, Cleared options d target output ∧
    Disk.Grown (fun q => q.Above output) d d'

/-- A job that succeeds leaves the listing of the words at the place of the
    output. Everything else has stayed, but for new directories above the
    output. -/
structure Delivers (options : Options) (d d' : Disk) (target : Target) (output : Path)
    (words : List EmittedWord) (place : Location) : Prop where
  cleared : Cleared options d target output
  assembled : ∃ text, d.read options.file = .ok text.toUTF8 ∧ target.Assembles text words
  leads : d'.resolve output = .ok place
  written : Disk.Written (fun q => q.Above output) place (listing words).toUTF8 d d'
  source : d'.read options.file = d.read options.file
  config : d'.read options.config = d.read options.config

end Job

/-! ## Inputs -/

namespace Disk

variable {d d' : Disk} {p : Path} {extension : String} {way : Path → Prop}

theorem IsInput.exists_file (h : d.IsInput p extension) :
    ∃ l content, d.resolve p = .ok l ∧ d.node? l = some (.file content) := by
  rcases h with ⟨-, size, -, hinfo⟩
  rcases info_file hinfo with ⟨l, content, hl, hnode, -⟩
  exact ⟨l, content, hl, hnode⟩

theorem IsInput.read_grown (h : d.IsInput p extension) (hgrown : Grown way d d') :
    d'.read p = d.read p := by
  rcases h.exists_file with ⟨l, content, hl, hnode⟩
  exact hgrown.keeps.read hl (((hgrown.stays l).file hnode).trans hnode.symm)

/-- An input is not written over by an output with another extension. -/
theorem IsInput.read_written {output : Path} {place : Location} {content : ByteArray}
    (h : d.IsInput p extension) (hwritten : Written way place content d d')
    (hplace : d'.resolve output = .ok place) {extension' : String}
    (houtput : output.extension? = some extension') (hne : extension ≠ extension') :
    d'.read p = d.read p := by
  rcases h.exists_file with ⟨l, content, hl, hnode⟩
  have hother : l ≠ place := by
    rintro rfl
    rcases extension_of_resolve h.1 hl with ⟨name, hname, hextension⟩
    rcases extension_of_resolve houtput hplace with ⟨name', hname', hextension'⟩
    rw [hname] at hname'
    cases hname'
    rw [hextension] at hextension'
    exact hne (Option.some.inj hextension')
  exact hwritten.keeps.read hl (((hwritten.stays l hother).file hnode).trans hnode.symm)

-- Bytes that are read as a text are the bytes of the text.
theorem toUTF8_of_fromUTF8? {bytes : ByteArray} {text : String}
    (h : String.fromUTF8? bytes = some text) : text.toUTF8 = bytes := by
  unfold String.fromUTF8? at h
  split at h
  · cases h
    rfl
  · cases h

/-- Reading a text leaves the disk alone, and the text is the content of the
    file. -/
theorem run_readText (d : Disk) (p : Path) : ∃ r : Except FileError String,
    (FileSystem.readText p : StateM Disk _).run d = (r, d) ∧
      ∀ text, r = .ok text → d.read p = .ok text.toUTF8 := by
  have hrun : (FileSystem.read p : StateM Disk _).run d = pure (d.read p, d) := rfl
  unfold FileSystem.readText
  rw [StateT.run_bind, hrun, pure_bind]
  rcases d.read p with e | bytes
  · exact ⟨.error e, rfl, nofun⟩
  · dsimp only
    split
    · rename_i text htext
      refine ⟨.ok text, rfl, ?_⟩
      rintro _ ⟨⟩
      rw [toUTF8_of_fromUTF8? htext]
    · exact ⟨.error .notText, rfl, nofun⟩

end Disk

/-! ## What the actions promise -/

namespace Job

theorem checkInput_meets (path : Path) (extension : String) (d : Disk) :
    (checkInput path extension).Meets d (fun _ d' => d' = d ∧ d.IsInput path extension)
      (fun d' => d' = d) := by
  unfold checkInput
  dsimp only
  split
  · exact JobM.Meets.throwBind rfl
  rename_i hextension
  have hinfo : (file (.cannotOpen path) (FileSystem.info path)).Meets d
      (fun found d' => d' = d ∧ d.info path = .ok found) (fun d' => d' = d) := by
    refine JobM.Meets.file (fun found d' hrun => ?_) fun e d' hrun => ?_
    · rcases Prod.mk.inj hrun with ⟨hfound, hd⟩
      exact ⟨hd.symm, hfound⟩
    · exact (Prod.mk.inj hrun).2.symm
  refine hinfo.bind ?_ fun _ h => h
  rintro found d' ⟨rfl, hfound⟩
  split
  · exact JobM.Meets.throw rfl
  split
  · exact JobM.Meets.throw rfl
  rename_i size hsize
  exact JobM.Meets.pure ⟨rfl, not_not.mp hextension, size, hsize, hfound⟩

theorem file_readText_meets (name : FileError → JobError) (path : Path) (d : Disk) :
    (file name (FileSystem.readText path)).Meets d
      (fun text d' => d' = d ∧ d.read path = .ok text.toUTF8) (fun d' => d' = d) := by
  rcases d.run_readText path with ⟨r, hrun, hread⟩
  refine JobM.Meets.file (fun text d' htext => ?_) fun e d' herror => ?_
  · rcases Prod.mk.inj (hrun.symm.trans htext) with ⟨hr, hd⟩
    exact ⟨hd.symm, hread text hr⟩
  · exact (Prod.mk.inj (hrun.symm.trans herror)).2.symm

theorem readTarget_meets (path : Path) (d : Disk) :
    (readTarget path).Meets d
      (fun target d' => d' = d ∧ ∃ text, d.read path = .ok text.toUTF8 ∧
        Target.parse text = .ok target)
      (fun d' => d' = d) := by
  unfold readTarget
  refine (file_readText_meets .file path d).bind ?_ fun _ h => h
  rintro text d' ⟨rfl, hread⟩
  split
  · rename_i target htarget
    exact JobM.Meets.pure ⟨rfl, text, hread, htarget⟩
  · exact JobM.Meets.throw rfl

theorem query_pathExists_meets (path : Path) (d : Disk) {failed : Disk → Prop} :
    (query (FileSystem.pathExists path)).Meets d (fun _ d' => d' = d) failed :=
  JobM.Meets.query rfl

/-- The output has the right extension, and directories above it may be new. -/
def Prepared (output : Path) (d d' : Disk) : Prop :=
  output.extension? = some "vmc" ∧ Disk.Grown (fun q => q.Above output) d d'

/-- The directory of the output is created, or part of the way to it. -/
theorem file_createDirectories_meets {name : FileError → JobError} {output parent : Path}
    (hparent : output.parent? = some parent) (d : Disk) :
    (file name (FileSystem.createDirectories parent)).Meets d
      (fun _ d' => Disk.Grown (fun q => q.Above output) d d')
      (fun d' => Disk.Grown (fun q => q.Above output) d d') := by
  have hgrows := Disk.OnlyGrows.createDirectories
    (fun q r (hq : q.Above output) hr => Relation.TransGen.tail hq hr)
    (Relation.TransGen.single hparent) d
  refine JobM.Meets.file (fun u d' hrun => ?_) fun e d' hrun => ?_
  · rw [hrun] at hgrows
    exact hgrows
  · rw [hrun] at hgrows
    exact hgrows

/-- Whether or not its directory can be created, the disk only grows above the
    output. -/
theorem prepareOutput_meets (output : Path) (d : Disk) :
    (prepareOutput output).Meets d (fun _ d' => Prepared output d d')
      (fun d' => d' = d ∨ Prepared output d d') := by
  unfold prepareOutput
  dsimp only
  split
  · exact JobM.Meets.throwBind (Or.inl rfl)
  rename_i hextension
  have hvmc := not_not.mp hextension
  -- What comes after the directory only asks and tells.
  have hrest : ∀ d₁, Prepared output d d₁ →
      (query (FileSystem.pathExists output) >>= fun there =>
        if there = true then note [Event.fileReplaced output.text] else pure () :
          JobM (StateM Disk) Unit).Meets d₁ (fun _ d' => Prepared output d d')
        (fun d' => d' = d ∨ Prepared output d d') := by
    intro d₁ hprepared
    refine (query_pathExists_meets output d₁).bind ?_ fun _ h => h
    rintro there d₂ rfl
    split
    · exact JobM.Meets.note hprepared
    · exact JobM.Meets.pure hprepared
  have hthere := hrest d ⟨hvmc, Disk.Grown.refl _ d⟩
  split
  · rename_i parent hparent
    split
    · refine (query_pathExists_meets parent d).bind ?_ fun _ h => h
      rintro there d₁ rfl
      split
      · refine JobM.Meets.noteBind ((file_createDirectories_meets hparent d₁).bind ?_ ?_)
        · exact fun u d₂ hgrown => hrest d₂ ⟨hvmc, hgrown⟩
        · exact fun d₂ hgrown => Or.inr ⟨hvmc, hgrown⟩
      · exact hthere
    · exact hthere
  · exact hthere

/-- An answer that is heard is the answer of the session. -/
theorem reply_meets {α : Type} (drawing : Drawing) (level : Option Level) (source : Path)
    (r : Reply α) (d : Disk) :
    (reply drawing level source r).Meets d (fun a d' => d' = d ∧ r.answer = .ok a)
      (fun d' => d' = d) := by
  unfold reply
  refine JobM.Meets.noteBind ?_
  split
  · rename_i a hanswer
    refine JobM.Meets.pure ⟨rfl, ?_⟩
    unfold Reply.heardAt at hanswer
    split at hanswer
    · exact hanswer
    · cases hanswer
  · exact JobM.Meets.throw rfl
  · exact JobM.Meets.throw rfl

theorem assembleSource_meets (drawing : Drawing) (level : Option Level) (target : Target)
    (path : Path) (d : Disk) :
    (assembleSource drawing level target path).Meets d
      (fun words d' => d' = d ∧ ∃ text, d.read path = .ok text.toUTF8 ∧
        target.Assembles text words)
      (fun d' => d' = d) := by
  unfold assembleSource
  refine (file_readText_meets .file path d).bind ?_ fun _ h => h
  rintro text d' ⟨rfl, hread⟩
  refine (reply_meets drawing level path _ d').bind ?_ fun _ h => h
  rintro count d₁ ⟨rfl, hcount⟩
  refine (reply_meets drawing level path _ d₁).mono ?_ fun _ h => h
  rintro words d₂ ⟨rfl, hwords⟩
  exact ⟨rfl, text, hread, ⟨count, hcount⟩, hwords⟩

theorem file_write_meets {name : FileError → JobError} (way : Path → Prop) (output : Path)
    (content : ByteArray) (d : Disk) :
    (file name (FileSystem.write output content)).Meets d
      (fun _ d' => ∃ place, d'.resolve output = .ok place ∧ Disk.Written way place content d d')
      (fun d' => d' = d) := by
  have hrun : (FileSystem.write output content : StateM Disk _).run d = _ :=
    Disk.run_change (fun d => d.write output content) d
  rcases hwrite : d.write output content with e | d₁
  · rw [hwrite] at hrun
    refine JobM.Meets.file (fun u d' h => ?_) fun e d' h => ?_
    · cases hrun.symm.trans h
    · exact (Prod.mk.inj (hrun.symm.trans h)).2.symm
  · rw [hwrite] at hrun
    refine JobM.Meets.file (fun u d' h => ?_) fun e d' h => ?_
    · cases (Prod.mk.inj (hrun.symm.trans h)).2
      exact Disk.write_ok hwrite
    · cases hrun.symm.trans h

/-! ## The whole job -/

/-- Writing the listing of the words on the disk that has been prepared. -/
theorem delivers_of_written {options : Options} {d d₁ d' : Disk} {target : Target} {output : Path}
    {text : String} {words : List EmittedWord} {place : Location}
    (hcleared : Cleared options d target output)
    (hgrown : Disk.Grown (fun q => q.Above output) d d₁)
    (hread : d₁.read options.file = .ok text.toUTF8) (hwords : target.Assembles text words)
    (hplace : d'.resolve output = .ok place)
    (hwritten : Disk.Written (fun q => q.Above output) place (writtenListing words).toUTF8 d₁ d') :
    Delivers options d d' target output words place := by
  have hwritten := hwritten.of_grown hgrown
  rw [writtenListing_eq] at hwritten
  have hsame := hcleared.source.read_grown hgrown
  exact {
    cleared := hcleared
    assembled := ⟨text, hsame.symm.trans hread, hwords⟩
    leads := hplace
    written := hwritten
    source := hcleared.source.read_written hwritten hplace hcleared.extension (by decide)
    config := hcleared.config.read_written hwritten hplace hcleared.extension (by decide) }

theorem actions_meets (drawing : Drawing) (level : Option Level) (options : Options)
    (d : Disk) :
    (actions drawing level options).Meets d
      (fun _ d' => ∃ target output words place,
        Delivers options d d' target output words place)
      (Spares options d) := by
  unfold actions
  -- Up to the output nothing is changed.
  refine (checkInput_meets options.file "asm" d).bind ?_ fun _ => Or.inl
  rintro u d₁ ⟨rfl, hsource⟩
  refine (checkInput_meets options.config "cfg" d₁).bind ?_ fun _ => Or.inl
  rintro u d₂ ⟨rfl, hconfig⟩
  refine (readTarget_meets options.config d₂).bind ?_ fun _ => Or.inl
  rintro target d ⟨rfl, haccepted⟩
  split
  · exact JobM.Meets.throw (Or.inl rfl)
  rename_i output hchosen
  have hcleared : ∀ d', Prepared output d d' → Cleared options d target output :=
    fun _ h => ⟨hsource, hconfig, haccepted, hchosen, h.1⟩
  have hspares : ∀ d', Prepared output d d' → Spares options d d' :=
    fun d' h => Or.inr ⟨target, output, hcleared d' h, h.2⟩
  refine (prepareOutput_meets output d).bind ?_ ?_
  · rintro u d₁ hprepared
    refine (assembleSource_meets drawing level target options.file d₁).bind ?_ ?_
    · rintro words d' ⟨rfl, text, hread, hwords⟩
      refine (file_write_meets (fun q => q.Above output) output _ d').bind ?_ ?_
      · rintro u d₂ ⟨place, hplace, hwritten⟩
        exact JobM.Meets.note ⟨target, output, words, place, delivers_of_written
          (hcleared d' hprepared) hprepared.2 hread hwords hplace hwritten⟩
      · rintro d₂ rfl
        exact hspares d₂ hprepared
    · rintro d' rfl
      exact hspares d' hprepared
  · rintro d' (rfl | hprepared)
    · exact Or.inl rfl
    · exact hspares d' hprepared

end Job

/-- **A job writes on success only.** Whoever listens, and however tables are drawn: if
    a job fails, nothing that stands on the disk has changed; directories on the way to
    the output may be new, but only if the target was accepted and the output has the
    right extension. If it succeeds, the output holds the listing of the words that the
    source is assembled into, and every other file has stayed. -/
theorem output_only_on_success (drawing : Drawing) (level : Option Level) (options : Options)
    (d d' : Disk) (log : List Event) :
    (∀ e, (Job.run drawing level options : StateM Disk _).run d = ((.error e, log), d') →
      Job.Spares options d d') ∧
    ((Job.run drawing level options : StateM Disk _).run d = ((.ok (), log), d') →
      ∃ target output words place, Job.Delivers options d d' target output words place) := by
  have hmeets := (Job.actions_meets drawing level options d).ends #[]
  have hrun : (Job.run drawing level options : StateM Disk _).run d =
      ((((Job.actions drawing level options).exec #[] d).1.1,
        ((Job.actions drawing level options).exec #[] d).1.2.toList),
        ((Job.actions drawing level options).exec #[] d).2) := rfl
  rw [hrun]
  generalize (Job.actions drawing level options).exec #[] d = out at hmeets
  rcases out with ⟨⟨outcome, noted⟩, d₁⟩
  constructor
  · rintro e ⟨⟩
    exact hmeets
  · rintro ⟨⟩
    exact hmeets

/-- A description of a target with a single mnemonic. -/
def soleMnemonic : String :=
  "[Assembler_Property]\nOpCodeSize=1\nPlaceSize=0\n[VCGRA_Property]\nAvailable_Memory=1\n" ++
    "Num_Dic_Lines=1\nNum_Dic_Places=1\nNum_Doc_Lines=1\nNum_Doc_Places=1\n[NoOperator]\nA=1\n"

/-- The two inputs of a job, and nothing else. -/
def bareDisk : Disk where
  working := []
  nodes := [(["a.asm"], .file "A\n".toUTF8), (["c.cfg"], .file soleMnemonic.toUTF8)]

/-- The output goes to a directory that is missing, as is the one above it. -/
def farOutput : Options where
  file := ⟨.here, ["a.asm"]⟩
  config := ⟨.here, ["c.cfg"]⟩
  output := some ⟨.here, ["b", "c", "o.vmc"]⟩
  level := .warn

/-- A job that succeeds after it has made two directories. -/
theorem output_only_on_success_farOutput : ∃ log d',
    (Job.run .simple none farOutput : StateM Disk _).run bareDisk = ((.ok (), log), d') ∧
      ∃ target output words place,
        Job.Delivers farOutput bareDisk d' target output words place := by
  have hok : ((Job.run .simple none farOutput : StateM Disk _).run bareDisk).1.1.isOk = true := by
    decide +kernel
  rcases hrun : (Job.run .simple none farOutput : StateM Disk _).run bareDisk with
    ⟨⟨e | u, log⟩, d'⟩
  · rw [hrun] at hok
    cases hok
  · exact ⟨log, d', rfl, (output_only_on_success .simple none farOutput bareDisk d' log).2 hrun⟩

end UnrollAsm
