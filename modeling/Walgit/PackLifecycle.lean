import Walgit.SegmentFamilies

/-!
# Resumption of a cut

A cut is made family by family, and a journal has a receipt for each family that is done. After a
crash the journal and the packs in the work directories are all that is left: the cut is planned
anew, and what the receipts name is checked and kept.
-/
namespace Walgit.PackSegments

open Streams

/-- The outputs of one completed family. -/
structure StepReceipt where
  group : String
  kind : PackKind
  outputs : List SegmentOutput
  deriving DecidableEq, Repr

section Resume

/-- The checksum in a receipt is one of the repository's format, in its own spelling. -/
def checkReceiptHash (format : ObjectFormat) (checksum : String) : Except SegmentError Unit :=
  match fromHex checksum with
  | none => .error .gix
  | some oid =>
    if checksum.utf8ByteSize ≠ format.oidLen || oid ≠ checksum then
      .error (.invalid "receipt checksum mismatch")
    else .ok ()

/-- `verify` of a pack against its descriptor; git finds no fault in a pack that it made. -/
def verify (descriptor : PackRef) (file : PackFile) : Except SegmentError Unit :=
  if file.packSize ≠ descriptor.packSize || file.idxSize ≠ descriptor.idxSize then
    .error (.invalid "committed pack/index size mismatch")
  else if file.checksum ≠ descriptor.checksum || file.oids.length ≠ descriptor.objectCount then
    .error (.invalid "committed pack/index inventory mismatch")
  else .ok ()

/-- The output belongs to the family. -/
def inScope (f : Family) (output : SegmentOutput) : Bool :=
  output.group = f.group && output.audience = f.audience &&
    output.dependencies = f.dependencies && output.pack.kind = f.kind

/-- One output of a receipt, behind others with some checksums and some lines. -/
def checkOutput (scratch : Scratch) (plan : SegmentPlan) (f : Family)
    (s : List String × List Line) (output : SegmentOutput) :
    Except SegmentError (List String × List Line) := do
  let checksum := output.pack.checksum
  if !inScope f output || checksum ∈ s.1 then throw (.invalid "receipt scope mismatch")
  checkReceiptHash plan.input.format checksum
  match scratch output.path with
  | none => throw .io
  | some file =>
    if !plan.input.root.isPrefixOf output.path.dir || output.path.stem ≠ "pack-" ++ checksum then
      throw (.invalid "receipt path escaped its attempt")
    if output.pack.hasRev && !file.hasRev then throw .io
    verify output.pack file
    pure (checksum :: s.1, s.2 ++ file.oids.map Line.bare)

/-- One receipt of `resume`. -/
def restoreReceipt (scratch : Scratch) (plan : SegmentPlan) (receipt : StepReceipt) :
    Except SegmentError SegmentPlan := do
  match plan.families.findIdx? fun f => f.group = receipt.group && f.kind = receipt.kind with
  | none => throw (.invalid "receipt family absent from current plan")
  | some index =>
    match plan.families[index]? with
    | none => throw (.invalid "unknown family")
    | some family =>
      if family.completed || receipt.outputs = [] then
        throw (.invalid "duplicate or empty family receipt")
      let (_, actual) ← receipt.outputs.foldlM (checkOutput scratch plan family) ([], [])
      let expected := family.objects.map fun l => Line.bare l.oid
      if differences Line.text expected (sortUnique Line.oid actual) ≠ [] then
        throw (.invalid "receipt does not conserve its planned family")
      pure { plan with
        families := plan.families.set index { family with completed := true }
        outputs := plan.outputs ++ receipt.outputs }

/-- What `clean_old_work` leaves: of old work directories, those entries that have outputs. -/
def keepsPath (plan : SegmentPlan) (path : OutputPath) : Bool :=
  if plan.input.repo.isPrefixOf path.dir then
    match path.dir.drop plan.input.repo.length with
    | [] => true
    | work :: rest =>
      !"segment-work-".toList.isPrefixOf work.toList || plan.input.repo ++ [work] = plan.dir ||
        match rest with
        | [] => false
        | entry :: _ => plan.outputs.any fun output =>
            (plan.input.repo ++ [work, entry]).isPrefixOf output.path.dir
  else true

def cleanOldWork (scratch : Scratch) (plan : SegmentPlan) : Scratch := fun path =>
  if keepsPath plan path then scratch path else none

/-- `resume`; `attempt` makes the name of the new work directory. -/
def resume [Text.CharTables] (git : Git) (attempt : String) (input : MaintenanceInput)
    (selected : List String) (refs : RefsConfig) (resources : Resources) (scratch : Scratch)
    (receipts : List StepReceipt) : Except SegmentError (Scratch × SegmentPlan) := do
  let plan ← planBlocking git attempt input selected refs resources
  let plan ← receipts.foldlM (restoreReceipt scratch) plan
  pure (cleanOldWork scratch plan, plan)

end Resume

/-- An output in the journal. The descriptor is stored encoded. -/
structure OutputReceipt where
  descriptor : PackRef
  path : OutputPath
  exceedsTarget : Bool
  deriving DecidableEq, Repr

structure Receipt where
  group : String
  kind : PackKind
  outputs : List OutputReceipt
  deriving DecidableEq, Repr

/-- What a resumption with the same packs, refs, policy and tuning reads of the journal. -/
structure Journal where
  selected : List String
  receipts : List Receipt
  deriving DecidableEq, Repr

def receipts (journal : Journal) (refs : RefsConfig) : List StepReceipt :=
  journal.receipts.map fun r =>
    let audience := (refs.packfiles.find? r.group).map PackGroupConfig.kind
    ⟨r.group, r.kind, r.outputs.map fun o =>
      ⟨r.group, audience, [], o.descriptor, o.path, o.exceedsTarget⟩⟩

/-- The captured input and the configuration; they are the same in all attempts. -/
structure Job where
  input : MaintenanceInput
  selected : List String
  refs : RefsConfig
  resources : Resources
  tuning : Tuning

/-- What the loop over the families has: the files, the plan and the journal last saved. -/
structure Attempt where
  scratch : Scratch
  plan : SegmentPlan
  journal : Journal

section Loop

variable (git : Git)

/-- The outputs that the journal has for a family. -/
def receiptOf (outputs : List SegmentOutput) (f : Family) : Receipt :=
  ⟨f.group, f.kind, (outputs.filter fun o => o.group = f.group && o.pack.kind = f.kind).map
    fun o => ⟨o.pack, o.path, o.exceedsTarget⟩⟩

/-- One iteration of the loop; a completed family is skipped. -/
def runFamily (tuning : Tuning) (s : Attempt) (family : ℕ) : Except SegmentError Attempt :=
  if (s.plan.families[family]?).any Family.completed then .ok s
  else do
    let (scratch, plan) ← step git tuning s.scratch s.plan family
    pure ⟨scratch, plan, { s.journal with
      receipts := s.journal.receipts ++
        ((s.plan.families[family]?).map (receiptOf plan.outputs)).toList }⟩

/-- The first iterations of the loop. -/
def runFamilies (tuning : Tuning) (count : ℕ) (s : Attempt) : Except SegmentError Attempt :=
  (List.range count).foldlM (runFamily git tuning) s

variable [Text.CharTables] (job : Job)

/-- A plan without a journal. -/
def freshAttempt (attempt : String) : Except SegmentError Attempt := do
  let plan ← planBlocking git attempt job.input job.selected job.refs job.resources
  pure ⟨fun _ => none, plan, ⟨job.selected, []⟩⟩

/-- A plan from the journal and the files that are there. -/
def resumedAttempt (attempt : String) (scratch : Scratch) (journal : Journal) :
    Except SegmentError Attempt := do
  let (scratch, plan) ← resume git attempt job.input journal.selected job.refs job.resources scratch
    (receipts journal job.refs)
  pure ⟨scratch, plan, journal⟩

/-- The files that the saved journal knows are still there; an interrupted step may have left
others. -/
def Survives (scratch disk : Scratch) : Prop :=
  ∀ path file, scratch path = some file → disk path = some file

/-- The states in which a journal is saved: the loop stops anywhere, and after a crash it starts
again from the journal. -/
inductive Reached : Attempt → Prop
  | fresh {attempt : String} {s : Attempt} : freshAttempt git job attempt = .ok s → Reached s
  | families {s s' : Attempt} {count : ℕ} :
      Reached s → runFamilies git job.tuning count s = .ok s' → Reached s'
  | crash {s s' : Attempt} {attempt : String} {disk : Scratch} : Reached s →
      Survives s.scratch disk → resumedAttempt git job attempt disk s.journal = .ok s' → Reached s'

end Loop

end Walgit.PackSegments
