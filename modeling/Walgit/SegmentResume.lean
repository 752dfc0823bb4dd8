import Walgit.SegmentConservation
import Walgit.SegmentRuns

/-!
# Resumed cuts

A receipt does not have the groups that the group of its family subtracts, and a receipt without
them is refused. Where no group subtracts others, a resumption has all that was done before.
-/
namespace Walgit.PackSegments

open Streams

section Restore

variable {git : Git} {job : Job} {parts : Parts} {done : List Made}
  {rest : List Family} {s : Attempt} {f : Family} {disk : Scratch} {dir : List String}

/-- The receipt of a family with all that its outputs had. -/
def Made.stepReceipt (tuning : Tuning) (m : Made) : StepReceipt :=
  ⟨m.family.group, m.family.kind, m.outputs tuning⟩

theorem checkReceiptHash_ok {format : ObjectFormat} {checksum : String}
    (hhex : fromHex checksum = some checksum) (hsize : checksum.utf8ByteSize = format.oidLen) :
    checkReceiptHash format checksum = .ok () := by
  simp [checkReceiptHash, hhex, hsize]

/-- An output with its pack passes, if no other has its checksum. -/
theorem checkOutput_ok {m : Made} (hm : m.Valid git job) (hin : m.In disk) {plan : SegmentPlan}
    (hinput : plan.input = job.input) {file : PackFile} (hfile : file ∈ m.files)
    {seen : List String × List Line} (hnew : file.checksum ∉ seen.1) :
    checkOutput disk plan m.family seen (segmentOutput job.tuning m.dir m.family file) =
      .ok (file.checksum :: seen.1, seen.2 ++ file.oids.map Line.bare) := by
  obtain ⟨hpacks, hsizes⟩ := pack_ok hm.packed
  obtain ⟨w, hw⟩ := hm.dir
  have hhash := checkReceiptHash_ok (hpacks.hashes file hfile) (hsizes file hfile)
  have hthere := hin file hfile
  have hroot : job.input.root.isPrefixOf (outputPath m.dir m.family file.checksum).dir := by
    rw [List.isPrefixOf_iff_prefix, outputPath, hw, MaintenanceInput.repo, List.append_assoc,
      List.append_assoc]
    exact List.prefix_append _ _
  have hverify : verify (segmentOutput job.tuning m.dir m.family file).pack file = .ok () := by
    simp [verify, segmentOutput]
  rw [checkOutput]
  simp only [segmentOutput, inScope, hinput, hhash, hthere, hroot, hnew] at hverify ⊢
  simp [hverify, outputPath, Checks.ok_bind]

theorem checkOutputs_ok {m : Made} (hm : m.Valid git job) (hin : m.In disk) {plan : SegmentPlan}
    (hinput : plan.input = job.input) {files : List PackFile} (hfiles : files ⊆ m.files)
    (hnames : (files.map PackFile.checksum).Nodup) (seen : List String × List Line)
    (hnew : ∀ file ∈ files, file.checksum ∉ seen.1) :
    ∃ names, (files.map (segmentOutput job.tuning m.dir m.family)).foldlM
      (checkOutput disk plan m.family) seen =
        .ok (names, seen.2 ++ files.flatMap fun file => file.oids.map Line.bare) := by
  induction files generalizing seen with
  | nil => exact ⟨seen.1, by simp [pure, Except.pure]⟩
  | cons file files ih =>
    obtain ⟨hfirst, hnames⟩ := List.nodup_cons.mp hnames
    rw [List.forall_mem_cons] at hnew
    rw [List.map_cons, List.foldlM_cons,
      checkOutput_ok hm hin hinput (hfiles List.mem_cons_self) hnew.1, Checks.ok_bind]
    have hlater : ∀ other ∈ files, other.checksum ∉ file.checksum :: seen.1 := by
      intro other hother hmem
      rcases List.mem_cons.mp hmem with heq | hmem
      · exact hfirst (heq ▸ List.mem_map_of_mem hother)
      · exact hnew.2 other hother hmem
    obtain ⟨names, hok⟩ := ih (List.subset_of_cons_subset hfiles) hnames
      (file.checksum :: seen.1, seen.2 ++ file.oids.map Line.bare) hlater
    exact ⟨names, by rw [hok, List.flatMap_cons, List.append_assoc]⟩

/-- The packs of a family have together what it lists. -/
theorem differences_made {m : Made} (hm : m.Valid git job)
    (hasc : Ascending Line.oid m.family.objects) :
    differences Line.text (m.family.objects.map fun l => Line.bare l.oid)
      (sortUnique Line.oid (m.files.flatMap fun file => file.oids.map Line.bare)) = [] := by
  set listed := m.family.objects.map fun l => Line.bare l.oid with hlisted
  set made := m.files.flatMap fun file => file.oids.map Line.bare with hmade
  have hbare : Bare listed := by
    intro l hl
    obtain ⟨l', -, rfl⟩ := List.mem_map.mp hl
    rfl
  have hbareMade : Bare made := by
    intro l hl
    obtain ⟨file, -, hl⟩ := List.mem_flatMap.mp hl
    obtain ⟨oid, -, rfl⟩ := List.mem_map.mp hl
    rfl
  have hascListed : Ascending Line.oid listed := List.pairwise_map.mpr hasc
  have hsorted := Bare.sortUnique hbareMade
  rw [differences_eq_nil_iff (hbare.ascending hascListed)
    (hsorted.ascending (sortUnique_ascending _))]
  intro k
  have hleft : (∃ l ∈ listed, l.text = k) ↔ ∃ l ∈ m.family.objects, l.oid = k := by
    simp [hlisted, Line.bare, Line.text]
  have hright : (∃ l ∈ sortUnique Line.oid made, l.text = k) ↔ ∃ file ∈ m.files, k ∈ file.oids := by
    have hkeys : (∃ l ∈ sortUnique Line.oid made, l.text = k) ↔
        ∃ l ∈ sortUnique Line.oid made, l.oid = k :=
      exists_congr fun l => and_congr_right fun hl => by rw [hsorted.text_eq hl]
    rw [hkeys, exists_mem_sortUnique]
    simp [hmade, Line.bare]
  rw [hleft, hright, (pack_ok hm.packed).1.objects]

/-- The receipt of the next family is accepted. -/
theorem restoreReceipt_ok {m : Made} (hpending : Pending job parts.2.1)
    (hfamilies : parts.2.1 = done.map Made.family ++ m.family :: rest) (hm : m.Valid git job)
    (hin : m.In disk) :
    restoreReceipt disk (planOf job parts dir done (m.family :: rest)) (m.stepReceipt job.tuning) =
      .ok (planOf job parts dir (done ++ [m]) rest) := by
  have hmem : m.family ∈ parts.2.1 := by simp [hfamilies]
  set plan := planOf job parts dir done (m.family :: rest) with hplan
  have hold : ∀ m' ∈ done, ¬(m'.family.group = m.family.group ∧ m'.family.kind = m.family.kind) := by
    intro m' hm' hsame
    have hnodup := hpending.distinct
    rw [hfamilies, List.map_append, List.map_map, List.nodup_append] at hnodup
    exact hnodup.2.2 _ (List.mem_map_of_mem hm') _ (List.mem_map_of_mem List.mem_cons_self)
      (Prod.ext hsame.1 hsame.2)
  have hfind : plan.families.findIdx? (fun f => f.group = (m.stepReceipt job.tuning).group &&
      f.kind = (m.stepReceipt job.tuning).kind) = some done.length := by
    have hnone : (done.map fun m => m.family.complete).findIdx?
        (fun f => f.group = (m.stepReceipt job.tuning).group &&
          f.kind = (m.stepReceipt job.tuning).kind) = none := by
      rw [List.findIdx?_eq_none_iff]
      intro f hf
      obtain ⟨m', hm', rfl⟩ := List.mem_map.mp hf
      rw [Bool.eq_false_iff, ne_eq, Bool.and_eq_true, decide_eq_true_eq, decide_eq_true_eq]
      exact hold m' hm'
    rw [hplan, planOf, List.findIdx?_append, hnone, List.findIdx?_cons]
    simp [Made.stepReceipt]
  have hget : plan.families[done.length]? = some m.family := by simp [hplan, planOf]
  have houtputs : m.outputs job.tuning ≠ [] := by
    have hne := (pack_ok hm.packed).1.nonempty (hpending.nonempty _ hmem)
    simpa [Made.outputs] using hne
  obtain ⟨names, hchecked⟩ := checkOutputs_ok hm hin (show plan.input = job.input from rfl)
    (List.Subset.refl _) (pack_ok hm.packed).1.names ([], []) (by simp)
  have hfirst : ¬(m.family.completed || (m.stepReceipt job.tuning).outputs = []) := by
    rw [hpending.pending _ hmem, Bool.false_or, decide_eq_true_eq]
    exact houtputs
  have hsame := differences_made hm (hpending.ascending _ hmem)
  have hset : plan.families.set done.length m.family.complete =
      (done ++ [m]).map (fun m => m.family.complete) ++ rest := by
    simp [hplan, planOf, List.set_append_right]
  have hmade : plan.outputs ++ m.outputs job.tuning =
      (done ++ [m]).flatMap (Made.outputs job.tuning) := by
    rw [List.flatMap_append, List.flatMap_singleton]
    rfl
  have hfamily : ({ m.family with completed := true } : Family) = m.family.complete := rfl
  have hreceipt : (m.stepReceipt job.tuning).outputs = m.outputs job.tuning := rfl
  unfold restoreReceipt
  rw [hfind]
  dsimp only
  rw [hget]
  dsimp only
  rw [if_neg hfirst, hreceipt, Made.outputs, hchecked, Checks.ok_bind, List.nil_append,
    if_neg (not_not.mpr hsame), hfamily, hset, ← Made.outputs, hmade]
  rfl

/-- So are the receipts of all families that are done. -/
theorem restoreReceipts_ok (hpending : Pending job parts.2.1)
    (hfamilies : parts.2.1 = done.map Made.family ++ rest) (hvalid : ∀ m ∈ done, m.Valid git job)
    (hin : ∀ m ∈ done, m.In disk) :
    (done.map (Made.stepReceipt job.tuning)).foldlM (restoreReceipt disk)
      (planOf job parts dir [] parts.2.1) = .ok (planOf job parts dir done rest) := by
  suffices hfold : ∀ (later first : List Made), done = first ++ later →
      (later.map (Made.stepReceipt job.tuning)).foldlM (restoreReceipt disk)
        (planOf job parts dir first (later.map Made.family ++ rest)) =
          .ok (planOf job parts dir done rest) by
    simpa [hfamilies] using hfold done [] rfl
  intro later
  induction later with
  | nil =>
    intro first hdone
    rw [hdone, List.append_nil]
    rfl
  | cons m later ih =>
    intro first hdone
    have hmem : m ∈ done := by simp [hdone]
    rw [List.map_cons, List.map_cons, List.foldlM_cons, List.cons_append,
      restoreReceipt_ok hpending (by simp [hfamilies, hdone]) (hvalid m hmem) (hin m hmem),
      Checks.ok_bind]
    exact ih (first ++ [m]) (by simp [hdone])

/-- What a receipt has to share with its family. -/
def Family.scope (f : Family) : (String × PackKind) × List String :=
  ((f.group, f.kind), f.dependencies)

theorem checkOutput_scope {plan : SegmentPlan} {seen seen' : List String × List Line}
    {o : SegmentOutput} (h : checkOutput disk plan f seen o = .ok seen') :
    o.dependencies = f.dependencies := by
  rw [checkOutput, Checks.guard_ok] at h
  have hscope : inScope f o = true := by
    have hnot := h.1
    rw [Bool.or_eq_true, not_or, Bool.not_eq_true, Bool.not_eq_false'] at hnot
    exact hnot.1
  simp only [inScope, Bool.and_eq_true, decide_eq_true_eq] at hscope
  exact hscope.1.2

/-- A receipt that is accepted has the scope of its family, and all families keep theirs. -/
theorem restoreReceipt_scope {plan plan' : SegmentPlan} {receipt : StepReceipt}
    (h : restoreReceipt disk plan receipt = .ok plan') :
    plan'.families.map Family.scope = plan.families.map Family.scope ∧ receipt.outputs ≠ [] ∧
      ∃ scope ∈ plan'.families.map Family.scope, scope.1 = (receipt.group, receipt.kind) ∧
        ∀ o ∈ receipt.outputs, o.dependencies = scope.2 := by
  unfold restoreReceipt at h
  split at h
  · cases h
  · rename_i index hfind
    split at h
    · cases h
    · rename_i f hget
      rw [Checks.guard_ok] at h
      obtain ⟨hfirst, h⟩ := h
      obtain ⟨⟨names, actual⟩, hchecked, h⟩ := Checks.bind_eq_ok.mp h
      rw [Checks.guard_ok] at h
      obtain ⟨-, h⟩ := h
      cases h
      obtain ⟨hindex, hsame, -⟩ := List.findIdx?_eq_some_iff_getElem.mp hfind
      have heq : plan.families[index] = f := by
        rw [List.getElem?_eq_getElem hindex] at hget
        exact Option.some.inj hget
      have hscopes : (plan.families.set index { f with completed := true }).map Family.scope =
          plan.families.map Family.scope := by
        have hbound : index < (plan.families.map Family.scope).length := by simpa using hindex
        rw [List.map_set]
        have hself : Family.scope { f with completed := true } =
            (plan.families.map Family.scope)[index] := by
          rw [List.getElem_map, heq]
          rfl
        rw [hself, List.set_getElem_self]
      rw [heq, Bool.and_eq_true, decide_eq_true_eq, decide_eq_true_eq] at hsame
      refine ⟨hscopes, fun hnil => hfirst (by simp [hnil]), f.scope, ?_, Prod.ext hsame.1 hsame.2,
        fun o ho => ?_⟩
      · rw [hscopes]
        exact List.mem_map_of_mem (heq ▸ List.getElem_mem hindex)
      · obtain ⟨c, c', hok⟩ := Checks.foldlM_mem hchecked o ho
        exact checkOutput_scope hok

/-- The same of all receipts. -/
theorem restoreReceipts_scope {receipts : List StepReceipt} {plan plan' : SegmentPlan}
    (h : receipts.foldlM (restoreReceipt disk) plan = .ok plan') {receipt : StepReceipt}
    (hreceipt : receipt ∈ receipts) : receipt.outputs ≠ [] ∧
      ∃ scope ∈ plan.families.map Family.scope, scope.1 = (receipt.group, receipt.kind) ∧
        ∀ o ∈ receipt.outputs, o.dependencies = scope.2 := by
  have hall := Checks.foldlM_each
    (R := fun p q : SegmentPlan => q.families.map Family.scope = p.families.map Family.scope)
    (P := fun (r : StepReceipt) (p : SegmentPlan) => r.outputs ≠ [] ∧ ∃ scope ∈ p.families.map Family.scope,
      scope.1 = (r.group, r.kind) ∧ ∀ o ∈ r.outputs, o.dependencies = scope.2)
    (fun _ => rfl) (fun _ _ _ h h' => h'.trans h) (fun _ _ _ hp hsame => hsame ▸ hp)
    (fun r _ p q hok => restoreReceipt_scope hok) h
  exact hall.1 ▸ hall.2 receipt hreceipt

/-- Outputs stay when old work is removed. -/
theorem keepsPath_output {plan : SegmentPlan} (hinput : plan.input = job.input) {m : Made}
    (hm : m.Valid git job) {o : SegmentOutput} (ho : o ∈ m.outputs job.tuning)
    (hmem : o ∈ plan.outputs) : keepsPath plan o.path = true := by
  obtain ⟨file, -, rfl⟩ := List.mem_map.mp ho
  obtain ⟨w, hw⟩ := hm.dir
  have hdir : (segmentOutput job.tuning m.dir m.family file).path.dir =
      job.input.repo ++ [w, m.family.group ++ "-" ++ asStrName m.family.kind] := by
    rw [segmentOutput, outputPath, hw, List.append_assoc]
    rfl
  have hany : (plan.outputs.any fun o => (job.input.repo ++
      [w, m.family.group ++ "-" ++ asStrName m.family.kind]).isPrefixOf o.path.dir) = true :=
    List.any_eq_true.mpr ⟨_, hmem, hdir ▸ List.isPrefixOf_iff_prefix.mpr (List.prefix_refl _)⟩
  have hrepo : job.input.repo.isPrefixOf (job.input.repo ++
      [w, m.family.group ++ "-" ++ asStrName m.family.kind]) = true :=
    List.isPrefixOf_iff_prefix.mpr (List.prefix_append _ _)
  rw [keepsPath, hinput, hdir, if_pos hrepo, List.drop_left]
  simp only [hany, Bool.or_true]

end Restore

section Resume

variable {git : Git} [Text.CharTables] {job : Job} {parts : Parts} {done : List Made}
  {rest : List Family} {s s' : Attempt} {disk : Scratch} {attempt : String}

/-- The receipts that are rebuilt from the journal are those of the families that are done, if
none of them needs other groups. -/
theorem Progress.receipts (h : Progress git job parts done rest s)
    (hdeps : ∀ m ∈ done, m.family.dependencies = []) :
    receipts s.journal job.refs = done.map (Made.stepReceipt job.tuning) := by
  have hpending := pending_of_cut h.cut
  rw [h.journal, PackSegments.receipts, List.map_map]
  refine List.map_congr_left fun m hm => ?_
  have hmem : m.family ∈ parts.2.1 := h.families ▸ List.mem_append_left _ (List.mem_map_of_mem hm)
  have haudience := (hpending.scope m.family hmem).1
  simp only [Function.comp_apply, Made.receipt, Made.stepReceipt, Made.outputs, List.map_map,
    StepReceipt.mk.injEq, true_and]
  refine List.map_congr_left fun file _ => ?_
  simp only [Function.comp_apply, segmentOutput, ← haudience, hdeps m hm]

/-- A resumption goes on where the run was, if no family that is done needs other groups. -/
theorem Progress.resume (h : Progress git job parts done rest s)
    (hdisk : Survives s.scratch disk) (hdeps : ∀ m ∈ done, m.family.dependencies = [])
    (attempt : String) : ∃ s', resumedAttempt git job attempt disk s.journal = .ok s' ∧
      Progress git job parts done rest s' := by
  set dir := job.input.repo ++ ["segment-work-" ++ attempt] with hdir
  set plan := planOf job parts dir done rest with hplan
  have hin : ∀ m ∈ done, m.In disk := fun m hm file hfile => hdisk _ _ (h.placed m hm file hfile)
  have hrestored : (done.map (Made.stepReceipt job.tuning)).foldlM (restoreReceipt disk)
      (planOf job parts dir [] parts.2.1) = .ok plan :=
    restoreReceipts_ok (pending_of_cut h.cut) h.families h.valid hin
  have hplanned : planBlocking git attempt job.input job.selected job.refs job.resources =
      .ok (planOf job parts dir [] parts.2.1) := by
    rw [planBlocking_eq, h.cut]
    rfl
  have hselected : s.journal.selected = job.selected := by rw [h.journal]
  refine ⟨⟨cleanOldWork disk plan, plan, s.journal⟩, ?_, h.cut, h.families, ⟨_, rfl⟩, rfl,
    h.journal, h.valid, fun m hm file hfile => ?_⟩
  · rw [resumedAttempt, PackSegments.resume, hselected, hplanned, h.receipts hdeps, Checks.ok_bind,
      hrestored]
    rfl
  · have ho : segmentOutput job.tuning m.dir m.family file ∈ m.outputs job.tuning :=
      List.mem_map_of_mem hfile
    have hkept := keepsPath_output (show plan.input = job.input from rfl) (h.valid m hm) ho
      (List.mem_flatMap_of_mem hm ho)
    exact (if_pos hkept).trans (hin m hm file hfile)

/-- A resumption fails if a family that is done needs other groups. -/
theorem Progress.dependencies_of_resume (h : Progress git job parts done rest s)
    (hresumed : resumedAttempt git job attempt disk s.journal = .ok s') :
    ∀ m ∈ done, m.family.dependencies = [] := by
  intro m hm
  have hselected : s.journal.selected = job.selected := by rw [h.journal]
  obtain ⟨⟨scratch, plan'⟩, hresume, -⟩ := Checks.bind_eq_ok.mp hresumed
  obtain ⟨plan, hplan, hresume⟩ := Checks.bind_eq_ok.mp hresume
  obtain ⟨restored, hrestore, -⟩ := Checks.bind_eq_ok.mp hresume
  rw [hselected, planBlocking_eq, h.cut] at hplan
  cases hplan
  have hpending := pending_of_cut h.cut
  have hreceipt : m.receipt job.tuning ∈ s.journal.receipts := by
    rw [h.journal]
    exact List.mem_map_of_mem hm
  obtain ⟨hne, scope, hscope, hname, hdeps⟩ :=
    restoreReceipts_scope hrestore (List.mem_map_of_mem hreceipt)
  obtain ⟨o, ho⟩ := List.exists_mem_of_ne_nil _ hne
  have hnone : scope.2 = [] := by
    rw [← hdeps o ho]
    obtain ⟨_, -, rfl⟩ := List.mem_map.mp ho
    rfl
  obtain ⟨f, hf, rfl⟩ := List.mem_map.mp hscope
  have hmem : m.family ∈ parts.2.1 := h.families ▸ List.mem_append_left _ (List.mem_map_of_mem hm)
  have hsame : f = m.family := List.inj_on_of_nodup_map hpending.distinct hf hmem hname
  rwa [← hsame]

/-- Wherever a journal is saved, some families are done and the journal has them. -/
theorem Reached.progress (h : Reached git job s) :
    ∃ parts done rest, Progress git job parts done rest s := by
  induction h with
  | fresh hfresh =>
    obtain ⟨parts, hprogress⟩ := Progress.fresh hfresh
    exact ⟨parts, [], parts.2.1, hprogress⟩
  | families _ hrun ih =>
    obtain ⟨parts, done, rest, hprogress⟩ := ih
    obtain ⟨done', rest', hnext, -⟩ := hprogress.runFamilies hrun
    exact ⟨parts, done', rest', hnext⟩
  | crash _ hdisk hresumed ih =>
    obtain ⟨parts, done, rest, hprogress⟩ := ih
    obtain ⟨s', hok, hnext⟩ :=
      hprogress.resume hdisk (hprogress.dependencies_of_resume hresumed) _
    cases hresumed.symm.trans hok
    exact ⟨parts, done, rest, hnext⟩

/-- Nothing is lost in a resumption: the same families are completed, with the same packs, and the
run comes to what an uninterrupted one comes to. -/
structure Resumes (git : Git) (job : Job) (s s' : Attempt) : Prop where
  families : s'.plan.families = s.plan.families
  completed : ∀ f ∈ s'.plan.families, f.completed = true ↔
    ∃ r ∈ s.journal.receipts, (r.group, r.kind) = (f.group, f.kind)
  outputs : s'.plan.outputs = s.plan.outputs
  packs : ∀ o ∈ s'.plan.outputs, s'.scratch o.path = s.scratch o.path
  outcome : ∀ attempt fresh, freshAttempt git job attempt = .ok fresh →
    outcome git job.tuning s' = outcome git job.tuning fresh

theorem Progress.resumes (h : Progress git job parts done rest s)
    (h' : Progress git job parts done rest s') : Resumes git job s s' := by
  refine ⟨by rw [h.plan, h'.plan]; rfl, fun f hf => ?_, by rw [h.plan, h'.plan]; rfl, fun o ho => ?_,
    fun attempt fresh hfresh => ?_⟩
  · have hreceipts : (∃ r ∈ s.journal.receipts, (r.group, r.kind) = (f.group, f.kind)) ↔
        ∃ m ∈ done, (m.family.group, m.family.kind) = (f.group, f.kind) := by
      rw [h.journal]
      simp [Made.receipt]
    rw [hreceipts]
    rw [h'.plan] at hf
    rcases List.mem_append.mp hf with hf | hf
    · obtain ⟨m, hm, rfl⟩ := List.mem_map.mp hf
      exact iff_of_true rfl ⟨m, hm, rfl⟩
    · have hmem : f ∈ parts.2.1 := h.families ▸ List.mem_append_right _ hf
      refine iff_of_false ?_ ?_
      · simp [(pending_of_cut h.cut).pending f hmem]
      · rintro ⟨m, hm, heq⟩
        exact h.distinct hm hf heq
  · rw [h'.plan] at ho
    obtain ⟨m, hm, ho⟩ := List.mem_flatMap.mp ho
    obtain ⟨file, hfile, rfl⟩ := List.mem_map.mp ho
    exact (h'.placed m hm file hfile).trans (h.placed m hm file hfile).symm
  · obtain ⟨parts', hstart⟩ := Progress.fresh hfresh
    have hsame : parts' = parts := by
      have hcut := h.cut
      rw [hstart.cut] at hcut
      exact Except.ok.inj hcut
    rw [h'.outcome, hstart.outcome, hsame]

/-- A resumption does what it should exactly if no family that is done is of a group that subtracts
others. -/
theorem resumedAttempt_iff (h : Reached git job s) (hdisk : Survives s.scratch disk) :
    (∃ s', resumedAttempt git job attempt disk s.journal = .ok s' ∧ Resumes git job s s') ↔
      ∀ r ∈ s.journal.receipts, ∀ group, job.refs.packfiles.find? r.group = some group →
        group.subtract = [] := by
  obtain ⟨parts, done, rest, hprogress⟩ := h.progress
  have hpending := pending_of_cut hprogress.cut
  have hgroups : (∀ r ∈ s.journal.receipts, ∀ group,
      job.refs.packfiles.find? r.group = some group → group.subtract = []) ↔
        ∀ m ∈ done, m.family.dependencies = [] := by
    rw [hprogress.journal, List.forall_mem_map]
    refine forall₂_congr fun m hm => ?_
    have hmem : m.family ∈ parts.2.1 :=
      hprogress.families ▸ List.mem_append_left _ (List.mem_map_of_mem hm)
    exact (hpending.scope m.family hmem).2.symm
  rw [hgroups]
  constructor
  · rintro ⟨s', hresumed, -⟩
    exact hprogress.dependencies_of_resume hresumed
  · intro hdeps
    obtain ⟨s', hok, hnext⟩ := hprogress.resume hdisk hdeps attempt
    exact ⟨s', hok, hprogress.resumes hnext⟩

end Resume

section Runs

open Text

attribute [local instance] Text.asciiTables

/-- Both blobs are tagged. -/
def tagJob (refs : RefsConfig) : Job where
  input := blobInput [⟨"refs/tags/b", repeated 'b', ""⟩, ⟨"refs/tags/c", repeated 'c', ""⟩]
  selected := [repeated 'a']
  refs := refs
  resources := ⟨1, 1, 1⟩
  tuning := ⟨.ok (), 1024 * 1024, fun _ _ => .ok ()⟩

/-- All tags but one, which has a group of its own. -/
def subtractGroups : RefsConfig where
  advertise := []
  packfiles := ⟨[("all", ⟨.code, ["refs/tags/*"], ["base"]⟩), ("base", ⟨.code, ["refs/tags/b"], []⟩)],
    by decide⟩

/-- A run that stops after its first family. -/
def afterFirst (job : Job) : Except SegmentError Attempt := do
  let s ← freshAttempt blobGit job "1"
  runFamilies blobGit job.tuning 1 s

theorem afterFirst_reached {job : Job} {s : Attempt} (h : afterFirst job = .ok s) :
    Reached blobGit job s := by
  obtain ⟨fresh, hfresh, hrun⟩ := Checks.bind_eq_ok.mp h
  exact .families (.fresh hfresh) hrun

theorem resumedAttempt_iff_tags : ∃ s s', Reached blobGit (tagJob (tagGroup "all")) s ∧
    s.journal.receipts.length = 1 ∧
    resumedAttempt blobGit (tagJob (tagGroup "all")) "2" s.scratch s.journal = .ok s' ∧
    Resumes blobGit (tagJob (tagGroup "all")) s s' := by
  have hlength : ((afterFirst (tagJob (tagGroup "all"))).toOption.map fun s =>
      s.journal.receipts.length) = some 1 := by decide
  obtain ⟨s, hs, hone⟩ := Option.map_eq_some_iff.mp hlength
  have hreached := afterFirst_reached (Checks.toOption_eq_some.mp hs)
  have hgroups : ∀ r ∈ s.journal.receipts, ∀ group,
      (tagGroup "all").packfiles.find? r.group = some group → group.subtract = [] := by
    intro r _ group hgroup
    have hentry := List.mem_singleton.mp (SortedMap.find?_eq_some_iff.mp hgroup)
    rw [(Prod.mk.inj hentry).2]
  obtain ⟨s', hok, hresumes⟩ := (resumedAttempt_iff hreached fun _ _ h => h).mpr hgroups
  exact ⟨s, s', hreached, hone, hok, hresumes⟩

/-- The only family that is done is of a group that subtracts another. -/
theorem resumedAttempt_refuses : ∃ s, Reached blobGit (tagJob subtractGroups) s ∧
    s.journal.receipts.length = 1 ∧
    resumedAttempt blobGit (tagJob subtractGroups) "2" s.scratch s.journal =
      .error (.invalid "receipt scope mismatch") := by
  have hrun : ((afterFirst (tagJob subtractGroups)).toOption.map fun s =>
      (s.journal.receipts.length,
        match resumedAttempt blobGit (tagJob subtractGroups) "2" s.scratch s.journal with
        | .error e => some e
        | .ok _ => none)) =
      some (1, some (.invalid "receipt scope mismatch")) := by decide
  obtain ⟨s, hs, hparts⟩ := Option.map_eq_some_iff.mp hrun
  obtain ⟨hone, herror⟩ := Prod.mk.inj hparts
  refine ⟨s, afterFirst_reached (Checks.toOption_eq_some.mp hs), hone, ?_⟩
  cases hresumed : resumedAttempt blobGit (tagJob subtractGroups) "2" s.scratch s.journal with
  | error e => simpa [hresumed] using herror
  | ok s' => simp [hresumed] at herror

end Runs

end Walgit.PackSegments
