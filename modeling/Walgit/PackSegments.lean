import Walgit.ObjectLinks
import Walgit.Streams

/-!
# Cuts of the object inventory

Maintenance cuts the objects of selected packs into families, the history and the blobs of every
pack group, and packs each family anew. The inventories are files of lines in a work directory;
the files of a group are named after it, next to those of the cut.
-/
namespace Walgit.PackSegments

open ObjectLinks (ObjectDb VerifyError verifyIndexedLinks)
open Streams

/-- A line of an inventory: an oid and, behind a blank, git's path hint. -/
structure Line where
  oid : Oid
  hint : Option String
  deriving DecidableEq, Repr

def Line.text (l : Line) : String :=
  match l.hint with
  | none => l.oid
  | some hint => l.oid ++ " " ++ hint

def Line.bare (oid : Oid) : Line := ⟨oid, none⟩

inductive SegmentError where
  | links (e : VerifyError)
  | groups (e : GroupError)
  /-- An error of the git library. -/
  | gix
  /-- A file that cannot be opened. -/
  | io
  | subprocess
  | invalid (message : String)
  deriving DecidableEq, Repr

structure Resources where
  sortMemoryBytes : ℕ
  deltaMemoryBytes : ℕ
  threads : ℕ
  deriving DecidableEq, Repr

/-- The committed packs and refs, and the directory they were copied to. No pack is copied twice,
and an index has its objects in order, each once. -/
structure MaintenanceInput where
  root : List String
  format : ObjectFormat
  db : ObjectDb
  packs : List PackRef
  refs : RefSnapshot
  distinct : (packs.map PackRef.checksum).Nodup
  indexed : ∀ p ∈ packs, ∀ oids, db.index p.checksum = some oids →
    oids.Pairwise (· < ·) ∧ ∀ oid ∈ oids, fromHex oid = some oid

/-- The repository `maintenance/input`. -/
def MaintenanceInput.repo (input : MaintenanceInput) : List String :=
  input.root ++ ["maintenance", "input.git"]

/-- The path of a pack without its extension. -/
structure OutputPath where
  dir : List String
  stem : String
  deriving DecidableEq, Repr

/-- A pack in the work directory with its index. -/
structure PackFile where
  checksum : String
  packSize : ℕ
  idxSize : ℕ
  hasRev : Bool
  oids : List Oid
  deriving DecidableEq, Repr

abbrev Scratch := OutputPath → Option PackFile

/-- What maintenance reads of the packing configuration. -/
structure Tuning where
  valid : Except String Unit
  targetBytes : ℕ
  deltaBudget : ℕ → ℕ → Except String Unit

/-- What `pack-objects` makes of a list: packs with different names, at least one unless there is
nothing to pack, which have together the objects of the list. -/
structure Packs (lines : List Line) (files : List PackFile) : Prop where
  names : (files.map PackFile.checksum).Nodup
  hashes : ∀ file ∈ files, fromHex file.checksum = some file.checksum
  nonempty : lines ≠ [] → files ≠ []
  objects : ∀ oid, (∃ file ∈ files, oid ∈ file.oids) ↔ ∃ l ∈ lines, l.oid = oid

/-- The git commands: `rev-list --objects` of included and excluded roots, which prints oids in full,
and `pack-objects`. -/
structure Git where
  revList : List Oid → List Oid → Except SegmentError (List Line)
  revList_oids : ∀ included excluded lines, revList included excluded = .ok lines →
    ∀ l ∈ lines, fromHex l.oid = some l.oid
  packObjects : Tuning → Resources → List Line → Except SegmentError (List PackFile)
  packObjects_ok : ∀ tuning resources lines files,
    packObjects tuning resources lines = .ok files → Packs lines files

structure Family where
  group : String
  /-- The retained family has none. -/
  audience : Option PackGroupKind
  dependencies : List String
  kind : PackKind
  objects : List Line
  completed : Bool
  deriving DecidableEq, Repr

structure SegmentOutput where
  group : String
  audience : Option PackGroupKind
  dependencies : List String
  pack : PackRef
  path : OutputPath
  exceedsTarget : Bool
  deriving DecidableEq, Repr

/-- The files `{name}.raw` and `{name}.sorted` of the work directory. -/
structure Work where
  raw : String → List Line
  sorted : String → List Line

namespace Work

def empty : Work := ⟨fun _ => [], fun _ => []⟩

def writeRaw (w : Work) (name : String) (lines : List Line) : Work :=
  { w with raw := Function.update w.raw name lines }

def writeSorted (w : Work) (name : String) (lines : List Line) : Work :=
  { w with sorted := Function.update w.sorted name lines }

@[simp] theorem writeRaw_raw (w : Work) (name : String) (lines : List Line) :
    (w.writeRaw name lines).raw name = lines := Function.update_self ..

/-- `sort --stable --unique --key=1,1` of `{name}.raw`. -/
def sort (w : Work) (name : String) : Work :=
  w.writeSorted name (sortUnique Line.oid (w.raw name))

end Work

structure SegmentPlan where
  input : MaintenanceInput
  selected : List PackRef
  families : List Family
  outputs : List SegmentOutput
  resources : Resources
  dir : List String
  work : Work

section Plan

variable (git : Git)

/-- `append_index`. -/
def indexLines (db : ObjectDb) (checksum : String) : Except SegmentError (List Line) :=
  match db.index checksum with
  | none => .error .gix
  | some oids => .ok (oids.map Line.bare)

/-- The list of a group, in `{group}.sorted`. -/
structure GroupList where
  group : String
  audience : Option PackGroupKind
  dependencies : List String

/-- The loop over the groups: what is written so far, by open writers too. -/
structure Cut where
  work : Work
  fullUnion : List Line
  union : List Line
  lists : List GroupList

/-- `intersect`: the lines of a list whose oids are lines of the inventory. -/
def intersectLines (list selected : List Line) : List Line :=
  intersect Line.oid Line.text list selected

/-- What a group has by its roots; without roots git is not asked. -/
def walkRoots (roots : GroupRoots) : Except SegmentError (List Line) :=
  if roots.included = [] then .ok [] else git.revList roots.included roots.excluded

def planGroup (c : Cut) (g : String × GroupRoots) : Except SegmentError Cut := do
  let raw ← walkRoots git g.2
  let work := c.work.writeRaw g.1 raw
  let full := sortUnique Line.oid (work.raw g.1)
  let list := intersectLines full (work.sorted "indexed")
  pure {
    work := work.writeSorted g.1 list
    fullUnion := c.fullUnion ++ full.map fun l => .bare l.oid
    union := c.union ++ list.map fun l => .bare l.oid
    lists := c.lists ++ [⟨g.1, some g.2.kind, g.2.dependencies⟩] }

/-- A line of `cat-file --batch-check`; an object that is not there is `missing`. -/
structure TypedLine where
  oid : Oid
  kind : String
  rest : String
  deriving DecidableEq, Repr

def objectType : ObjectLinks.Kind → String
  | .commit => "commit"
  | .tree => "tree"
  | .blob => "blob"
  | .tag => "tag"

/-- `%(rest)` is what follows the blanks behind the oid. -/
def catFile (db : ObjectDb) (l : Line) : TypedLine :=
  match db.find l.oid with
  | none => ⟨l.oid, "missing", ""⟩
  | some object => ⟨l.oid, objectType object.kind,
      .ofList ((l.hint.getD "").toList.dropWhile fun c => c = ' ' || c = '\t')⟩

def splitLine (lists : List Line × List Line) (l : TypedLine) :
    Except SegmentError (List Line × List Line) :=
  match fromHex l.oid with
  | none => .error .gix
  | some _ =>
    let line : Line := ⟨l.oid, if l.rest = "" then none else some l.rest⟩
    if l.kind = "blob" then .ok (lists.1, lists.2 ++ [line])
    else if l.kind = "commit" || l.kind = "tree" || l.kind = "tag" then
      .ok (lists.1 ++ [line], lists.2)
    else .error (.invalid "missing or unsupported object while classifying segment")

/-- The lines of history and those of blobs. -/
def splitTypes (lines : List TypedLine) : Except SegmentError (List Line × List Line) :=
  lines.foldlM splitLine ([], [])

/-- The families of one list; an empty one is left out. -/
def typedFamilies (db : ObjectDb) (work : Work) (g : GroupList) :
    Except SegmentError (List Family) := do
  let (history, blobs) ← splitTypes ((work.sorted g.group).map (catFile db))
  pure (([(PackKind.history, history), (.blobs, blobs)].filter fun k => k.2 ≠ []).map fun k =>
    ⟨g.group, g.audience, g.dependencies, k.1, k.2, false⟩)

def selectPack (packs : List PackRef) (checksum : String) : Except SegmentError PackRef :=
  match packs.find? fun p => p.checksum = checksum with
  | none => .error (.invalid "selected input is not committed")
  | some p => .ok p

/-- The cut before its first group: both inventories are written. -/
def inventories (indexed all : List Line) : Work :=
  ((Work.empty.writeRaw "indexed" indexed).sort "indexed" |>.writeRaw "all-indexed" all).sort
    "all-indexed"

/-- The files written behind the loop: the lines of the groups, and what no group has. -/
def Cut.close (c : Cut) : Work :=
  let work := (c.work.writeRaw "groups" c.union).sort "groups"
  let work := work.writeSorted "_retained"
    (onlyFirst Line.text (work.sorted "indexed") (work.sorted "groups"))
  (work.writeRaw "all-groups" c.fullUnion).sort "all-groups"

/-- The lists to cut families from, unless a group has more than the packs. -/
def Cut.retain (c : Cut) : Except SegmentError (List GroupList) :=
  if onlyFirst Line.text (c.close.sorted "all-groups") (c.close.sorted "all-indexed") ≠ [] then
    .error (.invalid "group graph exceeds committed inventory")
  else .ok (c.lists ++ [⟨"_retained", none, []⟩])

/-- The selected packs, the families and the files of `plan_blocking`. What a writer holds reaches
its file when it is flushed. -/
def cutFamilies [Text.CharTables] (input : MaintenanceInput) (selected : List String)
    (refs : RefsConfig) (resources : Resources) :
    Except SegmentError (List PackRef × List Family × Work) := do
  if resources.sortMemoryBytes = 0 then throw (.invalid "positive sort budget required")
  (verifyIndexedLinks input.db input.packs input.refs resources.sortMemoryBytes).mapError .links
  let groups ← (refs.resolveGroups input.refs).mapError .groups
  let selected ← selected.mapM (selectPack input.packs)
  if selected = [] then throw (.invalid "no selected inputs")
  if ¬(selected.map PackRef.checksum).Nodup then throw (.invalid "duplicate selected input")
  let indexed ← selected.mapM fun p => indexLines input.db p.checksum
  let all ← input.packs.mapM fun p => indexLines input.db p.checksum
  let cut ← groups.entries.foldlM (planGroup git)
    ⟨inventories indexed.flatten all.flatten, [], [], []⟩
  let lists ← cut.retain
  let families ← lists.mapM (typedFamilies input.db cut.close)
  pure (selected, families.flatten, cut.close)

/-- `plan_blocking`; `attempt` makes the name of its work directory. -/
def planBlocking [Text.CharTables] (attempt : String) (input : MaintenanceInput)
    (selected : List String) (refs : RefsConfig) (resources : Resources) :
    Except SegmentError SegmentPlan := do
  let (selected, families, work) ← cutFamilies git input selected refs resources
  pure ⟨input, selected, families, [], resources, input.repo ++ ["segment-work-" ++ attempt], work⟩

end Plan

section Steps

variable (git : Git)

def asStrName : PackKind → String
  | .objects => "PACK_KIND_OBJECTS"
  | .history => "PACK_KIND_HISTORY"
  | .blobs => "PACK_KIND_BLOBS"

/-- The hash of an output is one of the repository's format. -/
def checkHash (format : ObjectFormat) (hash : String) : Except SegmentError Oid :=
  match fromHex hash with
  | none => .error .gix
  | some oid =>
    if hash.utf8ByteSize ≠ format.oidLen then
      .error (.invalid "output checksum format mismatch")
    else .ok oid

/-- Where the packs of a family are made. -/
def outputPath (dir : List String) (f : Family) (hash : String) : OutputPath :=
  ⟨dir ++ [f.group ++ "-" ++ asStrName f.kind], "pack-" ++ hash⟩

def segmentOutput (tuning : Tuning) (dir : List String) (f : Family) (file : PackFile) :
    SegmentOutput where
  group := f.group
  audience := f.audience
  dependencies := f.dependencies
  pack := {
    checksum := file.checksum
    packSize := file.packSize
    idxSize := file.idxSize
    objectCount := file.oids.length
    hasRev := file.hasRev
    kind := f.kind }
  path := outputPath dir f file.checksum
  exceedsTarget := tuning.targetBytes < file.packSize

/-- The output of one pack that was made. -/
def stepOutput (tuning : Tuning) (plan : SegmentPlan) (f : Family) (file : PackFile) :
    Except SegmentError SegmentOutput := do
  let _ ← checkHash plan.input.format file.checksum
  pure (segmentOutput tuning plan.dir f file)

/-- The packs that a step leaves in its directory. -/
def Scratch.add (scratch : Scratch) (dir : List String) (f : Family) (files : List PackFile) :
    Scratch :=
  files.foldl (fun s file => Function.update s (outputPath dir f file.checksum) (some file)) scratch

/-- What `step_blocking` checks of the configuration. -/
def checkTuning (tuning : Tuning) (resources : Resources) : Except SegmentError Unit := do
  tuning.valid.mapError .invalid
  if tuning.targetBytes < 1024 * 1024 then throw (.invalid "at least 1 MiB pack target required")
  (tuning.deltaBudget resources.threads resources.deltaMemoryBytes).mapError .invalid

def step (tuning : Tuning) (scratch : Scratch) (plan : SegmentPlan) (family : ℕ) :
    Except SegmentError (Scratch × SegmentPlan) := do
  checkTuning tuning plan.resources
  match plan.families[family]? with
  | none => throw (.invalid "unknown family")
  | some item =>
    if item.completed then pure (scratch, plan)
    else
      let files ← git.packObjects tuning plan.resources item.objects
      let outputs ← files.mapM (stepOutput tuning plan item)
      pure (scratch.add plan.dir item files,
        { plan with
          families := plan.families.set family { item with completed := true }
          outputs := plan.outputs ++ outputs })

/-- `append_index` of an output. -/
def outputLines (scratch : Scratch) (output : SegmentOutput) : Except SegmentError (List Line) :=
  match scratch output.path with
  | none => .error .gix
  | some file => .ok (file.oids.map Line.bare)

structure SegmentedInput where
  input : MaintenanceInput
  outputs : List SegmentOutput
  inventory : List Line

def finish (scratch : Scratch) (plan : SegmentPlan) : Except SegmentError SegmentedInput := do
  if plan.families.any fun f => !f.completed then
    throw (.invalid "cannot finish an incomplete cut")
  let produced ← plan.outputs.mapM (outputLines scratch)
  let work := (plan.work.writeRaw "produced" produced.flatten).sort "produced"
  if differences Line.text (work.sorted "indexed") (work.sorted "produced") ≠ [] then
    throw (.invalid "segmentation did not conserve indexed objects")
  pure ⟨plan.input, plan.outputs, work.sorted "indexed"⟩

end Steps

end Walgit.PackSegments
