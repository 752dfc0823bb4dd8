import Walgit.PackLifecycle

/-!
# Runs of a cut

What a step makes of a family does not depend on the attempt. What a run comes to is therefore the
same from wherever it starts, but for the directories.
-/
namespace Walgit.PackSegments

open Streams

section Paths

theorem asStrName_append {group group' : String} {kind kind' : PackKind}
    (h : group ++ "-" ++ asStrName kind = group' ++ "-" ++ asStrName kind') :
    group = group' ∧ kind = kind' := by
  have hkind : kind = kind' := by
    have hchars := congrArg (fun s => s.toList.reverse) h
    cases kind <;> cases kind' <;> simp [asStrName] at hchars ⊢
  subst hkind
  refine ⟨?_, rfl⟩
  rwa [String.append_left_inj, String.append_left_inj] at h

/-- Packs of different families are in different places, in all attempts. -/
theorem outputPath_inj {repo : List String} {w w' : String} {f f' : Family} {hash hash' : String}
    (h : outputPath (repo ++ [w]) f hash = outputPath (repo ++ [w']) f' hash') :
    w = w' ∧ (f.group, f.kind) = (f'.group, f'.kind) ∧ hash = hash' := by
  simp only [outputPath, OutputPath.mk.injEq, List.append_assoc, List.append_cancel_left_eq,
    List.cons_append, List.nil_append, List.cons.injEq, and_true, String.append_right_inj] at h
  obtain ⟨⟨hdir, hname⟩, hhash⟩ := h
  obtain ⟨hgroup, hkind⟩ := asStrName_append hname
  exact ⟨hdir, by rw [hgroup, hkind], hhash⟩

theorem Scratch.add_of_ne {scratch : Scratch} {dir : List String} {f : Family}
    {files : List PackFile} {path : OutputPath}
    (h : ∀ file ∈ files, path ≠ outputPath dir f file.checksum) :
    scratch.add dir f files path = scratch path := by
  unfold Scratch.add
  induction files generalizing scratch with
  | nil => rfl
  | cons file files ih =>
    rw [List.foldl_cons, ih fun file' hfile' => h file' (List.mem_cons_of_mem file hfile'),
      Function.update_of_ne (h file List.mem_cons_self)]

/-- The packs of a step are where it puts them. -/
theorem Scratch.add_self {scratch : Scratch} {dir : List String} {f : Family}
    {files : List PackFile} (hnames : (files.map PackFile.checksum).Nodup) {file : PackFile}
    (hfile : file ∈ files) :
    scratch.add dir f files (outputPath dir f file.checksum) = some file := by
  induction files generalizing scratch with
  | nil => cases hfile
  | cons first files ih =>
    obtain ⟨hnew, hnames⟩ := List.nodup_cons.mp hnames
    rcases List.mem_cons.mp hfile with rfl | hfile
    · have hother : ∀ other ∈ files,
          outputPath dir f file.checksum ≠ outputPath dir f other.checksum := by
        intro other hother heq
        simp only [outputPath, OutputPath.mk.injEq, String.append_right_inj, true_and] at heq
        exact hnew (heq ▸ List.mem_map_of_mem hother)
      rw [Scratch.add, List.foldl_cons, ← Scratch.add, Scratch.add_of_ne hother,
        Function.update_self]
    · exact ih hnames hfile

end Paths

section Pack

variable (git : Git)

/-- What a step makes of a family. -/
def pack (job : Job) (f : Family) : Except SegmentError (List PackFile) := do
  checkTuning job.tuning job.resources
  let files ← git.packObjects job.tuning job.resources f.objects
  let _ ← files.mapM fun file => checkHash job.input.format file.checksum
  pure files

def Family.complete (f : Family) : Family := { f with completed := true }

variable {git} {job : Job}

theorem pack_ok {f : Family} {files : List PackFile} (h : pack git job f = .ok files) :
    Packs f.objects files ∧ ∀ file ∈ files, file.checksum.utf8ByteSize = job.input.format.oidLen := by
  simp only [pack, Checks.bind_eq_ok, pure, Except.pure] at h
  obtain ⟨_, -, made, hmade, _, hhashes, h⟩ := h
  cases h
  refine ⟨git.packObjects_ok _ _ _ _ hmade, fun file hfile => ?_⟩
  obtain ⟨_, -, hok⟩ := Checks.mapM_ok_mem hhashes hfile
  unfold checkHash at hok
  split at hok
  · cases hok
  · split_ifs at hok with hsize
    exact not_not.mp hsize

/-- The outputs of a step are those of its packs. -/
theorem mapM_stepOutput {plan : SegmentPlan} {f : Family} (files : List PackFile) :
    files.mapM (stepOutput job.tuning plan f) =
      (files.mapM fun file => checkHash plan.input.format file.checksum).map
        fun _ => files.map (segmentOutput job.tuning plan.dir f) := by
  induction files with
  | nil => rfl
  | cons file files ih =>
    simp only [List.mapM_cons, ih, stepOutput]
    cases checkHash plan.input.format file.checksum with
    | error e => rfl
    | ok _ =>
      cases files.mapM fun file => checkHash plan.input.format file.checksum <;> rfl

/-- A step packs its family and fails when that does. -/
theorem step_pending {scratch : Scratch} {plan : SegmentPlan} {family : ℕ} {f : Family}
    (hinput : plan.input = job.input) (hresources : plan.resources = job.resources)
    (hfamily : plan.families[family]? = some f) (hpending : f.completed = false) :
    step git job.tuning scratch plan family = (pack git job f).map fun files =>
      (scratch.add plan.dir f files, { plan with
        families := plan.families.set family f.complete
        outputs := plan.outputs ++ files.map (segmentOutput job.tuning plan.dir f) }) := by
  unfold step pack
  rw [hresources]
  cases checkTuning job.tuning job.resources with
  | error e => rfl
  | ok _ =>
    simp only [hfamily, hpending, Checks.ok_bind, Bool.false_eq_true, if_false]
    cases git.packObjects job.tuning job.resources f.objects with
    | error e => rfl
    | ok files =>
      simp only [Checks.ok_bind, mapM_stepOutput, hinput]
      cases files.mapM fun file => checkHash job.input.format file.checksum <;> rfl

end Pack

section Progress

/-- A family that is done, and where its packs are. -/
structure Made where
  family : Family
  dir : List String
  files : List PackFile

namespace Made

def outputs (tuning : Tuning) (m : Made) : List SegmentOutput :=
  m.files.map (segmentOutput tuning m.dir m.family)

/-- What the journal has of the family. -/
def receipt (tuning : Tuning) (m : Made) : Receipt :=
  ⟨m.family.group, m.family.kind, (m.outputs tuning).map fun o => ⟨o.pack, o.path, o.exceedsTarget⟩⟩

/-- The packs are those of a step, in a work directory of some attempt. -/
structure Valid (git : Git) (job : Job) (m : Made) : Prop where
  packed : pack git job m.family = .ok m.files
  dir : ∃ w, m.dir = job.input.repo ++ [w]

/-- The packs are there. -/
def In (scratch : Scratch) (m : Made) : Prop :=
  ∀ file ∈ m.files, scratch (outputPath m.dir m.family file.checksum) = some file

end Made

/-- What `cutFamilies` returns. -/
abbrev Parts := List PackRef × List Family × Work

/-- The plan when some families are done. -/
def planOf (job : Job) (parts : Parts) (dir : List String) (done : List Made) (rest : List Family) :
    SegmentPlan where
  input := job.input
  selected := parts.1
  families := done.map (fun m => m.family.complete) ++ rest
  outputs := done.flatMap (Made.outputs job.tuning)
  resources := job.resources
  dir := dir
  work := parts.2.2

variable {git : Git} [Text.CharTables] {job : Job} {parts : Parts}

theorem planBlocking_eq (attempt : String) :
    planBlocking git attempt job.input job.selected job.refs job.resources =
      (cutFamilies git job.input job.selected job.refs job.resources).map fun parts =>
        planOf job parts (job.input.repo ++ ["segment-work-" ++ attempt]) [] parts.2.1 := by
  unfold planBlocking
  cases cutFamilies git job.input job.selected job.refs job.resources <;> rfl

/-- The families before any is done. -/
structure Pending (job : Job) (families : List Family) : Prop where
  pending : ∀ f ∈ families, f.completed = false
  nonempty : ∀ f ∈ families, f.objects ≠ []
  ascending : ∀ f ∈ families, Ascending Line.oid f.objects
  distinct : (families.map fun f => (f.group, f.kind)).Nodup
  scope : ∀ f ∈ families,
    f.audience = (job.refs.packfiles.find? f.group).map PackGroupConfig.kind ∧
      (f.dependencies = [] ↔ ∀ group, job.refs.packfiles.find? f.group = some group →
        group.subtract = [])

theorem pending_of_cut
    (h : cutFamilies git job.input job.selected job.refs job.resources = .ok parts) :
    Pending job parts.2.1 := by
  have hplan : planBlocking git "" job.input job.selected job.refs job.resources =
      .ok (planOf job parts (job.input.repo ++ ["segment-work-" ++ ""]) [] parts.2.1) := by
    rw [planBlocking_eq, h]
    rfl
  obtain ⟨lists, -, hwork, hfamilies, -⟩ := plan_families hplan
  have hcuts : ∀ f ∈ parts.2.1, ∃ g ∈ lists, Cuts job.input.db parts.2.2 g f := hfamilies.cuts
  refine ⟨fun f hf => ?_, fun f hf => ?_, fun f hf => (hfamilies.sorted hwork hf).1,
    hfamilies.distinct, fun f hf => plan_scope hplan hf⟩
  · obtain ⟨g, -, hcut⟩ := hcuts f hf
    exact hcut.pending
  · obtain ⟨g, -, hcut⟩ := hcuts f hf
    exact hcut.nonempty

/-- The families that are done, with their packs and receipts, and those that are left. -/
structure Progress (git : Git) (job : Job) (parts : Parts) (done : List Made) (rest : List Family)
    (s : Attempt) : Prop where
  cut : cutFamilies git job.input job.selected job.refs job.resources = .ok parts
  families : parts.2.1 = done.map Made.family ++ rest
  dir : ∃ w, s.plan.dir = job.input.repo ++ [w]
  plan : s.plan = planOf job parts s.plan.dir done rest
  journal : s.journal = ⟨job.selected, done.map (Made.receipt job.tuning)⟩
  valid : ∀ m ∈ done, m.Valid git job
  placed : ∀ m ∈ done, m.In s.scratch

theorem Progress.fresh {attempt : String} {s : Attempt} (h : freshAttempt git job attempt = .ok s) :
    ∃ parts, Progress git job parts [] parts.2.1 s := by
  obtain ⟨plan, hplan, h⟩ := Checks.bind_eq_ok.mp h
  rw [planBlocking_eq, Checks.map_eq_ok] at hplan
  obtain ⟨parts, hcut, rfl⟩ := hplan
  cases h
  exact ⟨parts, hcut, rfl, ⟨_, rfl⟩, rfl, rfl, by simp, by simp⟩

variable {done : List Made} {rest : List Family} {s : Attempt} {f : Family}

omit [Text.CharTables] in
/-- What a new family adds to the outputs is what the journal gets. -/
theorem receiptOf_append {m : Made}
    (hdistinct : ∀ m' ∈ done, (m'.family.group, m'.family.kind) ≠ (m.family.group, m.family.kind)) :
    receiptOf (done.flatMap (Made.outputs job.tuning) ++ m.outputs job.tuning) m.family =
      m.receipt job.tuning := by
  have hold : (done.flatMap (Made.outputs job.tuning)).filter
      (fun o => o.group = m.family.group && o.pack.kind = m.family.kind) = [] := by
    rw [List.filter_eq_nil_iff]
    intro o ho hscope
    obtain ⟨m', hm', ho⟩ := List.mem_flatMap.mp ho
    obtain ⟨file, -, rfl⟩ := List.mem_map.mp ho
    rw [Bool.and_eq_true, decide_eq_true_eq, decide_eq_true_eq] at hscope
    exact hdistinct m' hm' (Prod.ext hscope.1 hscope.2)
  have hnew : (m.outputs job.tuning).filter
      (fun o => o.group = m.family.group && o.pack.kind = m.family.kind) = m.outputs job.tuning := by
    rw [List.filter_eq_self]
    intro o ho
    obtain ⟨file, -, rfl⟩ := List.mem_map.mp ho
    simp [segmentOutput]
  rw [receiptOf, List.filter_append, hold, hnew, List.nil_append, Made.receipt]

theorem Progress.distinct (h : Progress git job parts done rest s) {m : Made} (hm : m ∈ done)
    (hf : f ∈ rest) : (m.family.group, m.family.kind) ≠ (f.group, f.kind) := by
  have hnodup := (pending_of_cut h.cut).distinct
  rw [h.families, List.map_append, List.map_map, List.nodup_append] at hnodup
  exact hnodup.2.2 _ (List.mem_map_of_mem hm) _ (List.mem_map_of_mem hf)

theorem Progress.families_next (h : Progress git job parts done (f :: rest) s) :
    s.plan.families[done.length]? = some f := by
  rw [h.plan]
  simp [planOf]

/-- A completed family is skipped. -/
theorem Progress.skip (h : Progress git job parts done rest s) {family : ℕ}
    (hfamily : family < done.length) : runFamily git job.tuning s family = .ok s := by
  have hdone : s.plan.families[family]? = some (done[family].family.complete) := by
    rw [h.plan, planOf, List.getElem?_append_left (by simpa using hfamily), List.getElem?_map,
      List.getElem?_eq_getElem hfamily]
    rfl
  rw [runFamily, hdone]
  rfl

theorem Progress.skip_all (h : Progress git job parts done rest s) {count : ℕ}
    (hcount : count ≤ done.length) :
    (List.range count).foldlM (runFamily git job.tuning) s = .ok s := by
  induction count with
  | zero => rfl
  | succ count ih =>
    rw [List.range_succ, List.foldlM_append, ih (by omega), Checks.ok_bind, List.foldlM_cons,
      h.skip (by omega)]
    rfl

/-- What the loop has after one more family. -/
def advance (job : Job) (parts : Parts) (done : List Made) (rest : List Family) (scratch : Scratch)
    (m : Made) : Attempt :=
  ⟨scratch.add m.dir m.family m.files, planOf job parts m.dir (done ++ [m]) rest,
    ⟨job.selected, (done ++ [m]).map (Made.receipt job.tuning)⟩⟩

/-- The next family is packed. -/
theorem Progress.runFamily_next (h : Progress git job parts done (f :: rest) s) :
    runFamily git job.tuning s done.length = (pack git job f).map fun files =>
      advance job parts done rest s.scratch ⟨f, s.plan.dir, files⟩ := by
  have hpending := (pending_of_cut h.cut).pending f (by simp [h.families])
  have hinput : s.plan.input = job.input ∧ s.plan.resources = job.resources := by
    rw [h.plan]
    exact ⟨rfl, rfl⟩
  rw [runFamily, h.families_next, step_pending hinput.1 hinput.2 h.families_next hpending]
  simp only [Option.any_some, hpending, Bool.false_eq_true, if_false]
  cases pack git job f with
  | error e => rfl
  | ok files =>
    set m : Made := ⟨f, s.plan.dir, files⟩ with hm
    have hreceipt : receiptOf (done.flatMap (Made.outputs job.tuning) ++ m.outputs job.tuning) f =
        m.receipt job.tuning := receiptOf_append fun m' hm' =>
          h.distinct hm' List.mem_cons_self
    have houtputs : s.plan.outputs = done.flatMap (Made.outputs job.tuning) := by
      rw [h.plan]
      rfl
    have hfamilies : s.plan.families.set done.length f.complete =
        (done ++ [m]).map (fun m => m.family.complete) ++ rest := by
      rw [h.plan]
      simp [planOf, List.set_append_right, hm]
    have hmade : files.map (segmentOutput job.tuning s.plan.dir f) = m.outputs job.tuning := rfl
    simp only [Except.map, Checks.ok_bind, houtputs, hfamilies, hmade, h.journal, Option.map_some,
      Option.toList_some, hreceipt, advance]
    rw [h.plan]
    simp [planOf, pure, Except.pure, hm]

/-- One more family is done. -/
theorem Progress.next (h : Progress git job parts done (f :: rest) s) {files : List PackFile}
    (hfiles : pack git job f = .ok files) :
    Progress git job parts (done ++ [⟨f, s.plan.dir, files⟩]) rest
      (advance job parts done rest s.scratch ⟨f, s.plan.dir, files⟩) := by
  obtain ⟨w, hw⟩ := h.dir
  refine ⟨h.cut, by simp [h.families], ⟨w, hw⟩, rfl, rfl, fun m hm => ?_, fun m hm => ?_⟩
  · rcases List.mem_append.mp hm with hm | hm
    · exact h.valid m hm
    · cases List.mem_singleton.mp hm
      exact ⟨hfiles, w, hw⟩
  · rcases List.mem_append.mp hm with hm | hm
    · intro file hfile
      obtain ⟨w', hw'⟩ := (h.valid m hm).dir
      refine (Scratch.add_of_ne fun file' _ heq => ?_).trans (h.placed m hm file hfile)
      rw [hw', hw] at heq
      exact h.distinct hm List.mem_cons_self (outputPath_inj heq).2.1
    · cases List.mem_singleton.mp hm
      exact fun file hfile => Scratch.add_self (pack_ok hfiles).1.names hfile

/-- The loop may stop anywhere. -/
theorem Progress.runFamilies (h : Progress git job parts done rest s) {count : ℕ} {s' : Attempt}
    (hrun : runFamilies git job.tuning count s = .ok s') :
    ∃ done' rest', Progress git job parts done' rest' s' ∧ count ≤ done'.length := by
  unfold PackSegments.runFamilies at hrun
  induction count generalizing s' with
  | zero =>
    cases hrun
    exact ⟨done, rest, h, Nat.zero_le _⟩
  | succ count ih =>
    rw [List.range_succ, List.foldlM_append, Checks.bind_eq_ok] at hrun
    obtain ⟨mid, hmid, hlast⟩ := hrun
    obtain ⟨done', rest', hprogress, hcount⟩ := ih hmid
    simp only [List.foldlM_cons, List.foldlM_nil, bind_pure] at hlast
    rcases hcount.lt_or_eq with hlt | rfl
    · cases hlast.symm.trans (hprogress.skip hlt)
      exact ⟨done', rest', hprogress, hlt⟩
    · cases rest' with
      | nil =>
        have hnone : mid.plan.families[done'.length]? = none := by
          rw [hprogress.plan]
          simp [planOf]
        rw [runFamily, hnone] at hlast
        obtain ⟨_, hstep, -⟩ := Checks.bind_eq_ok.mp hlast
        obtain ⟨_, -, hstep⟩ := Checks.bind_eq_ok.mp hstep
        rw [hnone] at hstep
        cases hstep
      | cons f rest' =>
        rw [hprogress.runFamily_next, Checks.map_eq_ok] at hlast
        obtain ⟨files, hfiles, rfl⟩ := hlast
        exact ⟨_, _, hprogress.next hfiles, by simp⟩

/-- The rest of the loop packs the families that are left. -/
theorem Progress.run_rest (h : Progress git job parts done rest s) :
    (∃ e, rest.mapM (pack git job) = .error e ∧
      (List.range' done.length rest.length).foldlM (runFamily git job.tuning) s = .error e) ∨
    ∃ made s', rest.mapM (pack git job) = .ok (made.map Made.files) ∧
      (List.range' done.length rest.length).foldlM (runFamily git job.tuning) s = .ok s' ∧
      Progress git job parts (done ++ made) [] s' := by
  induction rest generalizing done s with
  | nil => exact Or.inr ⟨[], s, rfl, rfl, by simpa using h⟩
  | cons f rest ih =>
    rw [List.mapM_cons, List.length_cons, List.range'_succ, List.foldlM_cons, h.runFamily_next]
    cases hfiles : pack git job f with
    | error e => exact Or.inl ⟨e, rfl, rfl⟩
    | ok files =>
      have hnext := h.next hfiles
      simp only [Except.map, Checks.ok_bind]
      rcases ih hnext with ⟨e, hpack, hrun⟩ | ⟨made, s', hpack, hrun, hend⟩
      · refine Or.inl ⟨e, ?_, by simpa using hrun⟩
        rw [hpack]
        rfl
      · refine Or.inr ⟨⟨f, s.plan.dir, files⟩ :: made, s', ?_, by simpa using hrun,
          by simpa using hend⟩
        rw [hpack]
        rfl

/-- All packs of the families, each with its family. -/
def pieces (git : Git) (job : Job) (families : List Family) : List (Family × PackFile) :=
  families.flatMap fun f => ((pack git job f).toOption.getD []).map fun file => (f, file)

omit [Text.CharTables] in
theorem pieces_made {made : List Made} (h : ∀ m ∈ made, m.Valid git job) :
    pieces git job (made.map Made.family) =
      made.flatMap fun m => m.files.map fun file => (m.family, file) := by
  rw [pieces, List.flatMap_map]
  refine List.flatMap_congr fun m hm => ?_
  rw [(h m hm).packed]
  rfl

/-- An output and its pack, but for where they are. -/
def unplaced (o : SegmentOutput) (file : Option PackFile) : SegmentOutput × Option PackFile :=
  ({ o with path := ⟨[], o.path.stem⟩ }, file)

/-- The loop to its end and `finish`: the outputs with their packs, and the inventory. -/
def outcome (git : Git) (tuning : Tuning) (s : Attempt) :
    Except SegmentError (List (SegmentOutput × Option PackFile) × List Line) := do
  let t ← PackSegments.runFamilies git tuning s.plan.families.length s
  let done ← finish t.scratch t.plan
  pure (done.outputs.map fun o => unplaced o (t.scratch o.path), done.inventory)

/-- The comparison of `finish`. -/
def conserve (work : Work) (produced : List Line) : Except SegmentError (List Line) := do
  let work := (work.writeRaw "produced" produced).sort "produced"
  if differences Line.text (work.sorted "indexed") (work.sorted "produced") ≠ [] then
    throw (.invalid "segmentation did not conserve indexed objects")
  pure (work.sorted "indexed")

omit [Text.CharTables] in
theorem outputs_made (tuning : Tuning) (made : List Made) :
    made.flatMap (Made.outputs tuning) =
      (made.flatMap fun m => m.files.map fun file => (m, file)).map fun p =>
        segmentOutput tuning p.1.dir p.1.family p.2 := by
  simp only [List.map_flatMap, List.map_map, Function.comp_def]
  rfl

/-- With all families done, `finish` compares what the packs have. -/
theorem Progress.finish (h : Progress git job parts done [] s) :
    finish s.scratch s.plan =
      (conserve parts.2.2
        ((pieces git job parts.2.1).flatMap fun p => p.2.oids.map Line.bare)).map
        fun inventory => ⟨job.input, done.flatMap (Made.outputs job.tuning), inventory⟩ := by
  have hfamilies : parts.2.1 = done.map Made.family := by simpa using h.families
  have hdone : (s.plan.families.any fun f => !f.completed) = false := by
    rw [h.plan, List.any_eq_false]
    intro f hf
    obtain ⟨m, -, rfl⟩ := List.mem_map.mp (by simpa [planOf] using hf)
    simp [Family.complete]
  have hproduced : s.plan.outputs.mapM (outputLines s.scratch) =
      .ok ((done.flatMap fun m => m.files.map fun file => (m, file)).map
        fun p => p.2.oids.map Line.bare) := by
    have houtputs : s.plan.outputs = done.flatMap (Made.outputs job.tuning) := by
      rw [h.plan]
      rfl
    rw [houtputs, outputs_made, List.mapM_map]
    refine Checks.mapM_eq_ok_map fun p hp => ?_
    obtain ⟨m, hm, hp⟩ := List.mem_flatMap.mp hp
    obtain ⟨file, hfile, rfl⟩ := List.mem_map.mp hp
    have hthere := h.placed m hm file hfile
    rw [Function.comp_apply, outputLines]
    simp only [segmentOutput, hthere]
  have hlines : ((done.flatMap fun m => m.files.map fun file => (m, file)).map
      fun p => p.2.oids.map Line.bare).flatten =
      (pieces git job parts.2.1).flatMap fun p => p.2.oids.map Line.bare := by
    rw [hfamilies, pieces_made h.valid]
    simp [List.flatMap_def, Function.comp_def]
  have hparts : s.plan.work = parts.2.2 ∧ s.plan.input = job.input ∧
      s.plan.outputs = done.flatMap (Made.outputs job.tuning) := by
    rw [h.plan]
    exact ⟨rfl, rfl, rfl⟩
  unfold PackSegments.finish conserve
  simp only [hdone, hproduced, Bool.false_eq_true, if_false, Checks.ok_bind, hlines]
  rw [hparts.1, hparts.2.1, hparts.2.2]
  split_ifs <;> rfl

/-- The outputs with their packs. -/
theorem Progress.outputs (h : Progress git job parts done [] s) :
    (done.flatMap (Made.outputs job.tuning)).map (fun o => unplaced o (s.scratch o.path)) =
      (pieces git job parts.2.1).map fun p =>
        unplaced (segmentOutput job.tuning [] p.1 p.2) (some p.2) := by
  have hfamilies : parts.2.1 = done.map Made.family := by simpa using h.families
  rw [hfamilies, pieces_made h.valid, List.map_flatMap, List.map_flatMap]
  refine List.flatMap_congr fun m hm => ?_
  rw [Made.outputs, List.map_map, List.map_map]
  refine List.map_congr_left fun file hfile => ?_
  have hthere := h.placed m hm file hfile
  simp only [Function.comp_apply, unplaced, segmentOutput, hthere]
  rfl

/-- What a run comes to depends on the cut alone. -/
theorem Progress.outcome (h : Progress git job parts done rest s) :
    outcome git job.tuning s = (do
      let _ ← parts.2.1.mapM (pack git job)
      let inventory ← conserve parts.2.2
        ((pieces git job parts.2.1).flatMap fun p => p.2.oids.map Line.bare)
      pure ((pieces git job parts.2.1).map fun p =>
        unplaced (segmentOutput job.tuning [] p.1 p.2) (some p.2), inventory)) := by
  have hlength : s.plan.families.length = done.length + rest.length := by
    rw [h.plan]
    simp [planOf]
  have hskip : (List.range done.length).foldlM (runFamily git job.tuning) s = .ok s :=
    h.skip_all le_rfl
  have hdone : (done.map Made.family).mapM (pack git job) = .ok (done.map Made.files) := by
    rw [List.mapM_map]
    exact Checks.mapM_eq_ok_map fun m hm => (h.valid m hm).packed
  have hrun : PackSegments.runFamilies git job.tuning s.plan.families.length s =
      (List.range' done.length rest.length).foldlM (runFamily git job.tuning) s := by
    rw [PackSegments.runFamilies, hlength, List.range_eq_range', ← List.range'_append_1,
      Nat.zero_add, List.foldlM_append, ← List.range_eq_range', hskip, Checks.ok_bind]
  rw [PackSegments.outcome, hrun, h.families, List.mapM_append, hdone, Checks.ok_bind]
  rcases h.run_rest with ⟨e, hpack, hloop⟩ | ⟨made, t, hpack, hloop, hend⟩
  · rw [hpack, hloop]
    rfl
  · have hall : parts.2.1 = (done ++ made).map Made.family := by simpa using hend.families
    rw [hpack, hloop, ← h.families]
    simp only [Checks.ok_bind, hend.finish]
    cases conserve parts.2.2
      ((pieces git job parts.2.1).flatMap fun p => p.2.oids.map Line.bare) with
    | error e => rfl
    | ok inventory =>
      simp only [Except.map, Checks.ok_bind, hend.outputs]
      rfl

end Progress

end Walgit.PackSegments
