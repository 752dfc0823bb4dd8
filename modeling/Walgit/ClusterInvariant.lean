import Walgit.ClusterSteps
import Walgit.Growth

/-!
# Every copy follows the log

The invariant of the whole system: the copy each site serves from has applied at least the
log of the manifest its handle holds, and every basis captured for the newest manifest is
the fold of the log. It holds along every run whose deeds are sound.
-/
namespace Walgit

namespace Cluster

/-- The handle whose copy a deed works on. -/
def worksOn (s : Cluster) : Deed → Option ℕ
  | .pin t | .settle t _ => s.owner t
  | .sync i _ | .rematerialize i _ | .forgeEnsure i | .view i => some i
  | .adopt k _ => s.adoptions[k]?.map Adoption.handle
  | _ => none

/-- The state file of a handle's copy is not ahead of a manifest. -/
def savedUpTo (s : Cluster) (i : ℕ) (m : Manifest) : Bool :=
  (s.copy i).all fun c => c.disk.saved.appliedSeq ≤ m.headSeq

section Step

variable [Text.CharTables]

/-- Settling the task leaves a state file that is not ahead of the manifest it committed. -/
def settlesSaved (s : Cluster) (t : ℕ) (fault : Option CommitFault) : Bool :=
  (s.world.tasks t).all fun task =>
    match task.phase with
    | .committed _ _ m _ => task.job.savesState fault || (s.owner t).all fun i => s.savedUpTo i m
    | _ => true

/-- Requests are valid and update HEAD only symbolically; a copy is worked on by the handle its
site serves with; it is built again without a fault; and a call that does not write the
state file finds one that is not ahead of the manifest it adopts. -/
def sound (s : Cluster) (d : Deed) : Bool :=
  (s.worksOn d).all (fun i => s.serves i) &&
    match d with
    | .start _ _ job => job.portable
    | .rematerialize _ fault => fault.isNone
    | .settle t fault => s.settlesSaved t fault
    | .adopt k saves => saves || s.adoptions[k]?.all fun p => s.savedUpTo p.handle p.manifest
    | _ => true

/-- The invariant. -/
structure Ok (cfg : Config) (s : Cluster) : Prop where
  world : s.world.Portable cfg
  handles : ∀ i handle, s.handles i = some handle → handle.Held s.world ∧ i < s.nextHandle
  copies : ∀ site i, s.registry site = some i →
    ∃ c, s.copy i = some c ∧ c.handle.site = site ∧ c.Ok s.world
  disks : ∀ site d, s.disks site = some d → s.registry site = none → d.Ok s.world
  owners : ∀ t i, s.owner t = some i → i < s.nextHandle
  /-- Captured refs are the fold of the log while their manifest is the newest. -/
  pins : ∀ t p, s.pins t = some p → s.world.Exact p.manifest p.refs
  attempts : ∀ t task a, s.world.tasks t = some task → task.phase.attempt = some a →
    ∃ refs, a.basis.refs = .new refs ∧ s.world.Exact a.basis.manifest refs
  claims : ∀ o ∈ s.world.claims,
    ∃ refs, o.attempt.basis.refs = .new refs ∧ s.world.Exact o.attempt.basis.manifest refs
  /-- A handle never goes back behind what was captured from it. -/
  pinned : ∀ t p i handle, s.pins t = some p → s.owner t = some i → s.handles i = some handle →
    p.manifest.headSeq ≤ handle.manifest.headSeq
  captured : ∀ t task a i handle, s.world.tasks t = some task → task.phase.attempt = some a →
    s.owner t = some i → s.handles i = some handle →
    a.basis.manifest.headSeq ≤ handle.manifest.headSeq
  views : ∀ v ∈ s.views, s.world.Boundary v.manifest.headSeq ∧
    v.refs = refsAt (committedEntries s.world.gens) v.manifest.headSeq
  drafts : ∀ d ∈ s.drafts, s.world.Boundary d.2.seq ∧
    d.2.refs = refsAt (committedEntries s.world.gens) d.2.seq
  adoptions : ∀ p ∈ s.adoptions, s.world.Generated p.manifest p.version ∧
    p.handle < s.nextHandle ∧ ∀ handle, s.handles p.handle = some handle →
      p.manifest.headSeq ≤ handle.manifest.headSeq

end Step

theorem copy_eq_some {s : Cluster} {i : ℕ} {c : Copy} :
    s.copy i = some c ↔ s.handles i = some c.handle ∧ s.disks c.handle.site = some c.disk := by
  simp only [copy, Option.bind_eq_bind, Option.bind_eq_some_iff, Option.pure_def,
    Option.some.injEq]
  constructor
  · rintro ⟨handle, hhandle, disk, hdisk, rfl⟩
    exact ⟨hhandle, hdisk⟩
  · rintro ⟨hhandle, hdisk⟩
    exact ⟨c.handle, hhandle, c.disk, hdisk, rfl⟩

theorem serves_eq_true {s : Cluster} {i : ℕ} (h : s.serves i = true) :
    ∃ handle, s.handles i = some handle ∧ s.registry handle.site = some i := by
  cases hh : s.handles i with
  | none => simp [serves, hh] at h
  | some handle => exact ⟨handle, rfl, by simpa [serves, hh] using h⟩

/-- A served copy, piece by piece. -/
theorem served_iff {s : Cluster} {i : ℕ} {c : Copy} :
    s.serves i = true ∧ s.copy i = some c ↔ s.handles i = some c.handle ∧
      s.disks c.handle.site = some c.disk ∧ s.registry c.handle.site = some i := by
  rw [copy_eq_some]
  constructor
  · rintro ⟨hserves, hhandle, hdisk⟩
    exact ⟨hhandle, hdisk, by simpa [serves, hhandle] using hserves⟩
  · rintro ⟨hhandle, hdisk, hregistry⟩
    exact ⟨by simp [serves, hhandle, hregistry], hhandle, hdisk⟩

theorem draft_eq {v : PublicationView} {forge : Option ForgeState}
    {createdAt firstStateAt asOf : Option Timestamp} {cp : CheckpointRef}
    (h : v.draft forge createdAt firstStateAt asOf = some cp) :
    cp.seq = v.manifest.headSeq ∧ cp.refs = v.refs := by
  unfold PublicationView.draft at h
  simp only at h
  split_ifs at h
  · split at h
    · split_ifs at h
      cases h
      exact ⟨rfl, rfl⟩
    · cases h
  · cases h
    exact ⟨rfl, rfl⟩

variable [Text.CharTables] {cfg : Config} {s : Cluster}

/-- The copy of a serving handle changes and stays in order. -/
theorem Ok.setCopy (h : Ok cfg s) {i : ℕ} {c c' : Copy} (hserves : s.serves i = true)
    (hc : s.copy i = some c) (hok : c'.Ok s.world) (hkeeps : c.Keeps c') :
    Ok cfg (s.setCopy i c') := by
  obtain ⟨hhandle, hdisk⟩ := copy_eq_some.mp hc
  obtain ⟨handle, hhandle', hregistry⟩ := serves_eq_true hserves
  obtain rfl := Option.some.inj (hhandle.symm.trans hhandle')
  have hhandles : ∀ j, (s.setCopy i c').handles j =
      if j = i then some c'.handle else s.handles j := fun j => Function.update_apply ..
  have hdisks : ∀ site, (s.setCopy i c').disks site =
      if site = c.handle.site then some c'.disk else s.disks site := by
    intro site
    rw [← hkeeps.site]
    exact Function.update_apply ..
  -- Whatever bound the old handle met, the new one meets.
  have hhead : ∀ j handle n, (s.setCopy i c').handles j = some handle →
      (∀ old, s.handles j = some old → n ≤ old.manifest.headSeq) →
      n ≤ handle.manifest.headSeq := by
    intro j handle n hj hold
    rw [hhandles] at hj
    split_ifs at hj with heq
    · cases hj
      exact (hold _ (heq ▸ hhandle)).trans hkeeps.head
    · exact hold _ hj
  refine ⟨h.world, fun j handle hj => ?_, fun site j hj => ?_, fun site d hd hnone => ?_, h.owners,
    h.pins, h.attempts, h.claims, fun t p j handle hp ho hj => ?_,
    fun t task a j handle ht ha ho hj => ?_, h.views, h.drafts, fun p hp => ?_⟩
  · rw [hhandles] at hj
    split_ifs at hj with heq
    · cases hj
      exact ⟨hok.held, heq ▸ (h.handles i _ hhandle).2⟩
    · exact h.handles j handle hj
  · by_cases hsite : site = c.handle.site
    · subst hsite
      obtain rfl : i = j := Option.some.inj (hregistry.symm.trans hj)
      refine ⟨c', copy_eq_some.mpr ⟨?_, ?_⟩, hkeeps.site, hok⟩
      · rw [hhandles, if_pos rfl]
      · rw [hdisks, hkeeps.site, if_pos rfl]
    · obtain ⟨c₀, hc₀, rfl, hok₀⟩ := h.copies site j hj
      obtain ⟨hhandle₀, hdisk₀⟩ := copy_eq_some.mp hc₀
      have hne : j ≠ i := by
        rintro rfl
        exact hsite (congrArg Handle.site (Option.some.inj (hhandle₀.symm.trans hhandle)))
      refine ⟨c₀, copy_eq_some.mpr ⟨?_, ?_⟩, rfl, hok₀⟩
      · rw [hhandles, if_neg hne, hhandle₀]
      · rw [hdisks, if_neg hsite, hdisk₀]
  · have hsite : site ≠ c.handle.site := by
      rintro rfl
      have hsome : s.registry c.handle.site = none := hnone
      rw [hregistry] at hsome
      cases hsome
    rw [hdisks, if_neg hsite] at hd
    exact h.disks site d hd hnone
  · exact hhead j handle _ hj fun old hold => h.pinned t p j old hp ho hold
  · exact hhead j handle _ hj fun old hold => h.captured t task a j old ht ha ho hold
  · obtain ⟨hgen, hlt, hbound⟩ := h.adoptions p hp
    exact ⟨hgen, hlt, fun handle hj => hhead p.handle handle _ hj hbound⟩

/-- A claim that is there after a step was made from a basis that was in order before. -/
theorem Ok.claimed (h : Ok cfg s) {a : Action} {w : World}
    (hstep : Walgit.step cfg s.world a = some w) {o : Origin} (ho : o ∈ w.claims) :
    ∃ refs, o.attempt.basis.refs = .new refs ∧ s.world.Exact o.attempt.basis.manifest refs := by
  rcases step_claims hstep ho with ho | ⟨task, ht, -, ha⟩
  · exact h.claims o ho
  · exact h.attempts _ task o.attempt ht ha

/-- A publisher or the store takes a step. -/
theorem Ok.setWorld (h : Ok cfg s) {a : Action} {w : World}
    (hstep : Walgit.step cfg s.world a = some w)
    (hstart : ∀ t job, a = .start t job → job.portable)
    (hdraft : ∀ cp, a.Checkpoints cp → ∃ d ∈ s.drafts, d.2 = cp)
    (hcapture : ∀ t at', a = .capture t at' → (∃ refs, at'.basis.refs = .new refs ∧
        s.world.Exact at'.basis.manifest refs) ∧
      ∀ i handle, s.owner t = some i → s.handles i = some handle →
        at'.basis.manifest.headSeq ≤ handle.manifest.headSeq) :
    Ok cfg { s with world := w } := by
  have hgrows := step_grows h.world.inv hstep
  have exact_mono : ∀ b : Basis, (∃ refs, b.refs = .new refs ∧ s.world.Exact b.manifest refs) →
      ∃ refs, b.refs = .new refs ∧ w.Exact b.manifest refs :=
    fun b ⟨refs, hrefs, hexact⟩ => ⟨refs, hrefs, hgrows.exact hexact⟩
  refine ⟨h.world.step hstep hstart fun cp hcp => ?_, fun i handle hi => ?_, fun site i hi => ?_,
    fun site d hd hnone => hgrows.disk (h.disks site d hd hnone), h.owners,
    fun t p hp => hgrows.exact (h.pins t p hp), fun t task a' ht ha => ?_, fun o ho => ?_, h.pinned,
    fun t task a' i handle ht ha hi hhandle => ?_, fun v hv => ?_, fun d hd => ?_, fun p hp => ?_⟩
  · obtain ⟨d, hd, rfl⟩ := hdraft cp hcp
    exact ⟨(h.drafts d hd).2, (h.drafts d hd).1⟩
  · exact ⟨hgrows.held (h.handles i handle hi).1, (h.handles i handle hi).2⟩
  · obtain ⟨c, hc, hsite, hok⟩ := h.copies site i hi
    exact ⟨c, hc, hsite, hgrows.copy hok⟩
  · rcases step_attempts hstep ht ha with ⟨task₀, ht₀, -, ha₀⟩ | ⟨rfl, -⟩
    · exact exact_mono _ (h.attempts t task₀ a' ht₀ ha₀)
    · exact exact_mono _ (hcapture t a' rfl).1
  · exact exact_mono _ (h.claimed hstep ho)
  · rcases step_attempts hstep ht ha with ⟨task₀, ht₀, -, ha₀⟩ | ⟨rfl, -⟩
    · exact h.captured t task₀ a' i handle ht₀ ha₀ hi hhandle
    · exact (hcapture t a' rfl).2 i handle hi hhandle
  · obtain ⟨hboundary, hrefs⟩ := h.views v hv
    exact ⟨hgrows.boundary hboundary, hrefs.trans (hgrows.refsAt hboundary).symm⟩
  · obtain ⟨hboundary, hrefs⟩ := h.drafts d hd
    exact ⟨hgrows.boundary hboundary, hrefs.trans (hgrows.refsAt hboundary).symm⟩
  · obtain ⟨hgen, hrest⟩ := h.adoptions p hp
    exact ⟨hgrows.generated hgen, hrest⟩

/-- The handle's forge state is no part of the invariant. -/
theorem Ok.setForge (h : Ok cfg s) {i : ℕ} {handle : Handle} (hi : s.handles i = some handle)
    (forge : Option ForgeState) :
    Ok cfg { s with
      handles := Function.update s.handles i (some { handle with forge := forge }) } := by
  -- Every handle after the change is one before it, up to the forge state.
  have hback : ∀ j handle', Function.update s.handles i (some { handle with forge := forge }) j =
      some handle' → ∃ old, s.handles j = some old ∧ handle' = { old with forge := handle'.forge } := by
    intro j handle' hj
    rw [Function.update_apply] at hj
    split_ifs at hj with heq
    · cases hj
      exact ⟨handle, heq ▸ hi, rfl⟩
    · exact ⟨handle', hj, rfl⟩
  refine ⟨h.world, fun j handle' hj => ?_, fun site j hj => ?_, h.disks, h.owners, h.pins,
    h.attempts, h.claims, fun t p j handle' hp ho hj => ?_,
    fun t task a j handle' ht ha ho hj => ?_, h.views, h.drafts, fun p hp => ?_⟩
  · obtain ⟨old, hold, heq⟩ := hback j handle' hj
    rw [heq]
    exact h.handles j old hold
  · obtain ⟨c, hc, rfl, hok⟩ := h.copies site j hj
    obtain ⟨hhandle, hdisk⟩ := copy_eq_some.mp hc
    by_cases hij : j = i
    · subst hij
      obtain rfl := Option.some.inj (hi.symm.trans hhandle)
      refine ⟨⟨c.disk, { c.handle with forge := forge }⟩, copy_eq_some.mpr ⟨?_, hdisk⟩, rfl, ?_⟩
      · exact Function.update_self ..
      · exact ⟨⟨hok.applied, hok.boundary⟩, hok.held, hok.head, hok.saved, hok.savedBoundary⟩
    · refine ⟨c, copy_eq_some.mpr ⟨?_, hdisk⟩, rfl, hok⟩
      exact (Function.update_of_ne hij ..).trans hhandle
  · obtain ⟨old, hold, heq⟩ := hback j handle' hj
    rw [heq]
    exact h.pinned t p j old hp ho hold
  · obtain ⟨old, hold, heq⟩ := hback j handle' hj
    rw [heq]
    exact h.captured t task a j old ht ha ho hold
  · obtain ⟨hgen, hlt, hbound⟩ := h.adoptions p hp
    refine ⟨hgen, hlt, fun handle' hj => ?_⟩
    obtain ⟨old, hold, heq⟩ := hback p.handle handle' hj
    rw [heq]
    exact hbound old hold

/-- A copy that nobody serves from changes. -/
theorem Ok.setDisk (h : Ok cfg s) {site : ℕ} (hclosed : s.registry site = none) {d : Disk}
    (hd : d.Ok s.world) :
    Ok cfg { s with disks := Function.update s.disks site (some d) } := by
  refine ⟨h.world, h.handles, fun site' i hi => ?_, fun site' d' hd' hnone => ?_, h.owners, h.pins,
    h.attempts, h.claims, h.pinned, h.captured, h.views, h.drafts, h.adoptions⟩
  · obtain ⟨c, hc, rfl, hok⟩ := h.copies site' i hi
    obtain ⟨hhandle, hdisk⟩ := copy_eq_some.mp hc
    have hne : c.handle.site ≠ site := by
      rintro rfl
      have hopen : s.registry c.handle.site = some i := hi
      rw [hclosed] at hopen
      cases hopen
    exact ⟨c, copy_eq_some.mpr ⟨hhandle, (Function.update_of_ne hne ..).trans hdisk⟩, rfl, hok⟩
  · change Function.update s.disks site (some d) site' = some d' at hd'
    rw [Function.update_apply] at hd'
    split_ifs at hd' with heq
    · cases hd'
      exact hd
    · exact h.disks site' d' hd' hnone

/-- A site opens its copy with a handle never used before. -/
theorem Ok.setOpened (h : Ok cfg s) {site : ℕ} (hclosed : s.registry site = none) {c : Copy}
    (hsite : c.handle.site = site) (hok : c.Ok s.world) :
    Ok cfg { s.setCopy s.nextHandle c with
      nextHandle := s.nextHandle + 1
      registry := Function.update s.registry site (some s.nextHandle) } := by
  subst hsite
  have hhandles : ∀ j, Function.update s.handles s.nextHandle (some c.handle) j =
      if j = s.nextHandle then some c.handle else s.handles j := fun j => Function.update_apply ..
  -- What was noted for older handles is not about the new one.
  have hold : ∀ j handle, j < s.nextHandle →
      Function.update s.handles s.nextHandle (some c.handle) j = some handle →
      s.handles j = some handle := by
    intro j handle hlt hj
    rwa [hhandles, if_neg (Nat.ne_of_lt hlt)] at hj
  refine ⟨h.world, fun j handle hj => ?_, fun site' j hj => ?_, fun site' d hd hnone => ?_,
    fun t j hj => Nat.lt_succ_of_lt (h.owners t j hj), h.pins, h.attempts, h.claims,
    fun t p j handle hp ho hj => h.pinned t p j handle hp ho (hold j handle (h.owners t j ho) hj),
    fun t task a j handle ht ha ho hj =>
      h.captured t task a j handle ht ha ho (hold j handle (h.owners t j ho) hj),
    h.views, h.drafts, fun p hp => ?_⟩
  · change Function.update s.handles s.nextHandle (some c.handle) j = some handle at hj
    rw [hhandles] at hj
    split_ifs at hj with heq
    · cases hj
      exact ⟨hok.held, heq ▸ Nat.lt_succ_self _⟩
    · exact ⟨(h.handles j handle hj).1, Nat.lt_succ_of_lt (h.handles j handle hj).2⟩
  · change Function.update s.registry c.handle.site (some s.nextHandle) site' = some j at hj
    rw [Function.update_apply] at hj
    split_ifs at hj with heq
    · cases hj
      refine ⟨c, copy_eq_some.mpr ⟨?_, ?_⟩, heq.symm, hok⟩
      · exact Function.update_self ..
      · exact Function.update_self ..
    · obtain ⟨c₀, hc₀, rfl, hok₀⟩ := h.copies site' j hj
      obtain ⟨hhandle₀, hdisk₀⟩ := copy_eq_some.mp hc₀
      refine ⟨c₀, copy_eq_some.mpr ⟨?_, ?_⟩, rfl, hok₀⟩
      · have hne : j ≠ s.nextHandle := Nat.ne_of_lt (h.handles j _ hhandle₀).2
        exact (Function.update_of_ne hne ..).trans hhandle₀
      · exact (Function.update_of_ne heq ..).trans hdisk₀
  · change Function.update s.registry c.handle.site (some s.nextHandle) site' = none at hnone
    change Function.update s.disks c.handle.site (some c.disk) site' = some d at hd
    rw [Function.update_apply] at hnone hd
    split_ifs at hnone hd
    exact h.disks site' d hd hnone
  · obtain ⟨hgen, hlt, hbound⟩ := h.adoptions p hp
    exact ⟨hgen, Nat.lt_succ_of_lt hlt, fun handle hj => hbound handle (hold p.handle handle hlt hj)⟩

/-- An instance evicts its copy. -/
theorem Ok.evict (h : Ok cfg s) (site : ℕ) : Ok cfg { s with
    disks := Function.update s.disks site none
    registry := Function.update s.registry site none } := by
  refine ⟨h.world, h.handles, fun site' i hi => ?_, fun site' d hd hnone => ?_, h.owners, h.pins,
    h.attempts, h.claims, h.pinned, h.captured, h.views, h.drafts, h.adoptions⟩
  · change Function.update s.registry site none site' = some i at hi
    rw [Function.update_apply] at hi
    split_ifs at hi with heq
    obtain ⟨c, hc, rfl, hok⟩ := h.copies site' i hi
    obtain ⟨hhandle, hdisk⟩ := copy_eq_some.mp hc
    exact ⟨c, copy_eq_some.mpr ⟨hhandle, (Function.update_of_ne heq ..).trans hdisk⟩, rfl, hok⟩
  · change Function.update s.disks site none site' = some d at hd
    change Function.update s.registry site none site' = none at hnone
    rw [Function.update_apply] at hd hnone
    split_ifs at hd hnone
    exact h.disks site' d hd hnone

/-- An instance stops: its handles are gone and its copy stays. -/
theorem Ok.stop (h : Ok cfg s) (site : ℕ) : Ok cfg { s with
    handles := fun i => (s.handles i).filter fun handle => handle.site ≠ site
    registry := Function.update s.registry site none } := by
  have hback : ∀ i handle, ((s.handles i).filter fun handle => handle.site ≠ site) =
      some handle → s.handles i = some handle :=
    fun i handle hi => (Option.filter_eq_some_iff.mp hi).1
  refine ⟨h.world, fun i handle hi => h.handles i handle (hback i handle hi), fun site' i hi => ?_,
    fun site' d hd hnone => ?_, h.owners, h.pins, h.attempts, h.claims,
    fun t p i handle hp ho hi => h.pinned t p i handle hp ho (hback i handle hi),
    fun t task a i handle ht ha ho hi => h.captured t task a i handle ht ha ho (hback i handle hi),
    h.views, h.drafts, fun p hp => ?_⟩
  · change Function.update s.registry site none site' = some i at hi
    rw [Function.update_apply] at hi
    split_ifs at hi with heq
    obtain ⟨c, hc, rfl, hok⟩ := h.copies site' i hi
    obtain ⟨hhandle, hdisk⟩ := copy_eq_some.mp hc
    refine ⟨c, copy_eq_some.mpr ⟨?_, hdisk⟩, rfl, hok⟩
    exact Option.filter_eq_some_iff.mpr ⟨hhandle, by simpa using heq⟩
  · change Function.update s.registry site none site' = none at hnone
    rw [Function.update_apply] at hnone
    split_ifs at hnone with heq
    · cases hopen : s.registry site' with
      | none => exact h.disks site' d hd hopen
      | some i =>
        obtain ⟨c, hc, rfl, hok⟩ := h.copies site' i hopen
        obtain rfl := Option.some.inj ((copy_eq_some.mp hc).2.symm.trans hd)
        exact hok.disk h.world.sound
    · exact h.disks site' d hd hnone
  · obtain ⟨hgen, hlt, hbound⟩ := h.adoptions p hp
    exact ⟨hgen, hlt, fun handle hi => hbound handle (hback p.handle handle hi)⟩

theorem Ok.copyOk (h : Ok cfg s) {i : ℕ} {c : Copy} (hserves : s.serves i = true)
    (hc : s.copy i = some c) : c.Ok s.world := by
  obtain ⟨handle, hhandle, hregistry⟩ := serves_eq_true hserves
  obtain ⟨c', hc', -, hok⟩ := h.copies handle.site i hregistry
  exact Option.some.inj (hc'.symm.trans hc) ▸ hok

theorem Ok.diskOk (h : Ok cfg s) {site : ℕ} (hclosed : s.registry site = none) :
    ((s.disks site).getD .init).Ok s.world := by
  cases hdisk : s.disks site with
  | none => exact Copy.Disk.init_ok h.world.sound
  | some d => exact h.disks site d hdisk hclosed

/-- What the local part of a committed task starts from. -/
theorem Ok.settles (h : Ok cfg s) {t i : ℕ} {task : Task} {a : Attempt} {σ : Slot}
    {m : Manifest} {v : ℕ} {c : Copy} (ht : s.world.tasks t = some task)
    (hphase : task.phase = .committed a σ m v) (ho : s.owner t = some i)
    (hc : s.copy i = some c) (hok : c.Ok s.world) :
    Copy.Settles s.world c ⟨task.job, a, σ⟩ m v ∧
      (task.job.isControl → m.headSeq = σ.lastSeq) := by
  have hseen := h.world.seen t task ht
  simp only [Task.Seen, hphase] at hseen
  obtain ⟨hgen, hlisted, hcontrol⟩ := hseen
  have hcommitted := h.world.inv.tasks t task ht
  unfold TaskOk at hcommitted
  rw [hphase] at hcommitted
  have hbasis := h.captured t task a i c.handle ht (by rw [hphase]; rfl) ho
    (copy_eq_some.mp hc).1
  exact ⟨⟨hcommitted, hgen, hlisted, hbasis.trans hok.head⟩, hcontrol⟩

/-- Settling a committed task keeps its handle's copy in order. -/
theorem Ok.settleTask (h : Ok cfg s) {t i : ℕ} {task : Task} {c c' : Copy}
    {fault : Option CommitFault} (ht : s.world.tasks t = some task) (ho : s.owner t = some i)
    (hc : s.copy i = some c) (hserves : s.serves i = true)
    (hsaved : s.settlesSaved t fault = true) (hsettle : s.settleTask task fault c = some c') :
    c'.Ok s.world ∧ c.Keeps c' := by
  have hw := h.world.sound
  have hok := h.copyOk hserves hc
  cases hphase : task.phase with
  | committed a σ m v =>
    obtain ⟨hs, hcontrol⟩ := h.settles ht hphase ho hc hok
    have hsave : task.job.savesState fault = true ∨ c.disk.saved.appliedSeq ≤ m.headSeq := by
      simpa [settlesSaved, ht, hphase, ho, savedUpTo, hc] using hsaved
    simp only [Cluster.settleTask, hphase] at hsettle
    cases hjob : task.job with
    | batch reqs =>
      simp only [hjob, Option.some.injEq] at hsettle
      rw [← hsettle]
      refine Copy.settleBatch_spec hw hok hs hjob fault fun hfault => ?_
      exact hsave.resolve_left (by simp [hjob, Job.savesState, hfault])
    | _ =>
      simp only [hjob, Option.some.injEq] at hsettle
      rw [← hsettle, ← hjob]
      exact Copy.settleOne_spec hw hok hs (by simp [hjob, Job.isBatch]) hcontrol fault hsave
  | _ => simp [Cluster.settleTask, hphase] at hsettle

theorem forgeEnsure_eq {c c' : Copy} {read : ℕ → ℕ → Option (List LogEntry)}
    (h : c.forgeEnsure read = some c') :
    c' = { c with handle := { c.handle with forge := c'.handle.forge } } := by
  unfold Copy.forgeEnsure at h
  simp only at h
  split_ifs at h
  · cases h
    rfl
  · obtain ⟨entries, -, rfl⟩ := Option.map_eq_some_iff.mp h
    rfl

theorem foldTask_eq (handle : Handle) (task : Task) (clock : ℕ → Timestamp) :
    handle.foldTask task clock = { handle with forge := (handle.foldTask task clock).forge } := by
  unfold Handle.foldTask
  split <;> rfl

/-- A metadata write that is answered is a generation. -/
theorem rewrite_generated {w w' : World} {job : MetaJob} {basis m : Manifest} {version : ℕ}
    {policy : PackPolicy} {writer : String} {now : Timestamp}
    (h : Walgit.step cfg w (.rewrite job basis version policy writer now .delivered) = some w')
    (hm : job.manifest basis policy writer now = some m)
    (hacc : w.store.accepts .manifest (.update version) = true) :
    w'.Generated m w.store.next := by
  simp only [Walgit.step] at h
  split_ifs at h
  simp only [hm, World.land, hacc, if_true, Option.bind_eq_bind, Option.bind_some,
    Option.some.injEq] at h
  rw [← h]
  exact ⟨_, List.mem_cons_self, rfl, rfl⟩

/-- Sound deeds keep the invariant. -/
theorem Ok.step (h : Ok cfg s) {d : Deed} {s' : Cluster} (hsound : s.sound d = true)
    (hstep : step cfg s d = some s') : Ok cfg s' := by
  simp only [sound, Bool.and_eq_true] at hsound
  obtain ⟨hserves, hsound⟩ := hsound
  have hw := h.world.sound
  cases d with
  | store a =>
    obtain ⟨w, hremote, hw', rfl⟩ := step_store hstep
    refine h.setWorld hw' ?_ ?_ ?_
    · rintro t job rfl
      cases hremote
    · rintro cp ⟨_, _, _, _, _, _, _, rfl⟩
      cases hremote
    · rintro t a rfl
      cases hremote
  | start i t job =>
    obtain ⟨handle, w, hhandle, hw', rfl⟩ := step_start hstep
    have h' := h.setWorld hw' (fun t' job' heq => by cases heq; exact hsound)
      (by rintro cp ⟨_, _, _, _, _, _, _, heq⟩; cases heq) fun t' a heq => by cases heq
    have hready : ∀ task a, w.tasks t = some task → task.phase.attempt ≠ some a := by
      intro task a ht
      obtain ⟨-, rfl⟩ := Walgit.step_start hw'
      change Function.update s.world.tasks t (some ⟨job, 0, .ready⟩) t = some task at ht
      rw [Function.update_self] at ht
      cases ht
      simp [Phase.attempt]
    refine ⟨h'.world, h'.handles, h'.copies, h'.disks, fun t' j hj => ?_, fun t' p hp => ?_,
      h'.attempts, h'.claims, fun t' p j handle' hp hj hh => ?_,
      fun t' task a j handle' ht ha hj hh => ?_, h'.views, h'.drafts, h'.adoptions⟩
    · change Function.update s.owner t (some i) t' = some j at hj
      rw [Function.update_apply] at hj
      split_ifs at hj
      · cases hj
        exact (h.handles i handle hhandle).2
      · exact h.owners t' j hj
    · change Function.update s.pins t none t' = some p at hp
      rw [Function.update_apply] at hp
      split_ifs at hp
      exact h'.pins t' p hp
    · change Function.update s.pins t none t' = some p at hp
      change Function.update s.owner t (some i) t' = some j at hj
      rw [Function.update_apply] at hp hj
      split_ifs at hp hj
      exact h.pinned t' p j handle' hp hj hh
    · change Function.update s.owner t (some i) t' = some j at hj
      rw [Function.update_apply] at hj
      split_ifs at hj with heq
      · subst heq
        exact absurd ha (hready task a ht)
      · exact h'.captured t' task a j handle' ht ha hj hh
  | pin t =>
    obtain ⟨task, i, c, ht, ho, hc, hphase, rfl⟩ := step_pin hstep
    have hok := h.copyOk (by simpa [worksOn, ho] using hserves) hc
    obtain ⟨hhandle, -⟩ := copy_eq_some.mp hc
    refine ⟨h.world, h.handles, h.copies, h.disks, h.owners, fun t' p hp => ?_, h.attempts, h.claims,
      fun t' p j handle hp hj hh => ?_, h.captured, h.views, h.drafts, h.adoptions⟩
    · change Function.update s.pins t _ t' = some p at hp
      rw [Function.update_apply] at hp
      split_ifs at hp
      · cases hp
        exact hok.pinned hw
      · exact h.pins t' p hp
    · change Function.update s.pins t _ t' = some p at hp
      rw [Function.update_apply] at hp
      split_ifs at hp with heq
      · cases hp
        subst heq
        obtain rfl := Option.some.inj (ho.symm.trans hj)
        exact Option.some.inj (hhandle.symm.trans hh) ▸ le_rfl
      · exact h.pinned t' p j handle hp hj hh
  | capture t policy writer startedAt lastEntryTime =>
    obtain ⟨task, i, handle, p, w, ht, ho, hhandle, hp, -, hw', rfl⟩ := step_capture hstep
    have h' := h.setWorld hw' (fun t' job' heq => by cases heq)
      (by rintro cp ⟨_, _, _, _, _, _, _, heq⟩; cases heq) fun t' a heq => by
        cases heq
        exact ⟨⟨p.refs, rfl, h.pins t p hp⟩, fun j handle' hj hh => h.pinned t p j handle' hp hj hh⟩
    refine ⟨h'.world, h'.handles, h'.copies, h'.disks, h'.owners, fun t' p' hp' => ?_, h'.attempts,
      h'.claims, fun t' p' j handle' hp' hj hh => ?_, h'.captured, h'.views, h'.drafts,
      h'.adoptions⟩
    · change Function.update s.pins t none t' = some p' at hp'
      rw [Function.update_apply] at hp'
      split_ifs at hp'
      exact h'.pins t' p' hp'
    · change Function.update s.pins t none t' = some p' at hp'
      rw [Function.update_apply] at hp'
      split_ifs at hp'
      exact h.pinned t' p' j handle' hp' hj hh
  | settle t fault =>
    obtain ⟨task, i, c, c', ht, ho, hc, -, hsettle, rfl⟩ := step_settle hstep
    have hserving : s.serves i = true := by simpa [worksOn, ho] using hserves
    obtain ⟨hok, hkeeps⟩ := h.settleTask ht ho hc hserving hsound hsettle
    have h' := h.setCopy hserving hc hok hkeeps
    exact ⟨h'.world, h'.handles, h'.copies, h'.disks, h'.owners, h'.pins, h'.attempts, h'.claims,
      h'.pinned, h'.captured, h'.views, h'.drafts, h'.adoptions⟩
  | finish t clock =>
    obtain ⟨task, i, handle, w, ht, ho, hhandle, -, hw', rfl⟩ := step_finish hstep
    have h' := h.setWorld hw' (fun t' job' heq => by cases heq)
      (by rintro cp ⟨_, _, _, _, _, _, _, heq⟩; cases heq) fun t' a heq => by cases heq
    rw [foldTask_eq]
    exact h'.setForge hhandle _
  | sync i fault =>
    obtain ⟨c, m, v, hc, hcur, rfl⟩ := step_sync hstep
    have hserving : s.serves i = true := by simpa [worksOn] using hserves
    obtain ⟨hok, hkeeps, -⟩ := Copy.sync_spec hw (h.copyOk hserving hc) hcur fault
    exact h.setCopy hserving hc hok hkeeps
  | rematerialize i fault =>
    obtain ⟨c, m, v, hc, hcur, rfl⟩ := step_rematerialize hstep
    have hserving : s.serves i = true := by simpa [worksOn] using hserves
    obtain rfl : fault = none := by simpa using hsound
    obtain ⟨hok, hkeeps, -⟩ := Copy.rematerialize_spec hw (h.copyOk hserving hc) hcur
    exact h.setCopy hserving hc hok hkeeps
  | openRepo site fault =>
    obtain ⟨m, v, hclosed, hcur, hopened⟩ := step_openRepo hstep
    obtain ⟨hok, hdisk, hsite, -⟩ := Copy.opened_spec hw (h.diskOk hclosed) hcur site fault
    rcases hopened with ⟨hdone, rfl⟩ | ⟨-, rfl⟩
    · exact h.setOpened hclosed hsite (hok hdone)
    · exact h.setDisk hclosed hdisk
  | evict site =>
    obtain rfl := step_evict hstep
    exact h.evict site
  | stop site =>
    obtain rfl := step_stop hstep
    exact h.stop site
  | forgeEnsure i =>
    obtain ⟨c, c', hc, hensure, rfl⟩ := step_forgeEnsure hstep
    have hserving : s.serves i = true := by simpa [worksOn] using hserves
    have hok := h.copyOk hserving hc
    rw [forgeEnsure_eq hensure]
    exact h.setCopy hserving hc
      ⟨⟨hok.applied, hok.boundary⟩, hok.held, hok.head, hok.saved, hok.savedBoundary⟩ ⟨rfl, le_rfl⟩
  | view i =>
    obtain ⟨c, m, v, hc, hcur, hdone, rfl⟩ := step_view hstep
    have hserving : s.serves i = true := by simpa [worksOn] using hserves
    obtain ⟨hok, hkeeps, hm, -⟩ := Copy.sync_spec hw (h.copyOk hserving hc) hcur none
    have h' := h.setCopy hserving hc hok hkeeps
    refine ⟨h'.world, h'.handles, h'.copies, h'.disks, h'.owners, h'.pins, h'.attempts, h'.claims,
      h'.pinned, h'.captured, fun view hview => ?_, h'.drafts, h'.adoptions⟩
    rcases List.mem_cons.mp hview with rfl | hview
    · obtain ⟨g, hg, hgm, -⟩ := hok.held
      refine ⟨Or.inr ⟨g, hg, congrArg Manifest.headSeq hgm⟩, ?_⟩
      change _ = refsAt (committedEntries s.world.gens) _
      rw [hok.exact hw hcur (hm hdone), refsAt, hm hdone,
        Replay.upTo_eq_self (Copy.entry_le_current hw hcur)]
    · exact h'.views view hview
  | draft i k createdAt firstStateAt asOf =>
    obtain ⟨handle, view, cp, hhandle, hview, -, hcp, rfl⟩ := step_draft hstep
    refine ⟨h.world, h.handles, h.copies, h.disks, h.owners, h.pins, h.attempts, h.claims, h.pinned,
      h.captured, h.views, fun d hd => ?_, h.adoptions⟩
    rcases List.mem_cons.mp hd with rfl | hd
    · obtain ⟨hseq, hrefs⟩ := draft_eq hcp
      obtain ⟨hboundary, hfold⟩ := h.views view (List.mem_of_getElem? hview)
      rw [hseq, hrefs]
      exact ⟨hboundary, hfold⟩
    · exact h.drafts d hd
  | rewrite i job policy writer now reply =>
    obtain ⟨handle, version, w, m, hhandle, hversion, hdrafted, hw', hm, hs'⟩ := step_rewrite hstep
    have h' := h.setWorld hw' (fun t' job' heq => by cases heq)
      (by
        rintro cp ⟨view, _, _, _, _, _, _, heq⟩
        cases heq
        exact ⟨(view, cp), by simpa [drafted] using hdrafted, rfl⟩) fun t' a heq => by cases heq
    rcases hs' with rfl | ⟨rfl, hacc, rfl⟩
    · exact h'
    · refine ⟨h'.world, h'.handles, h'.copies, h'.disks, h'.owners, h'.pins, h'.attempts, h'.claims,
        h'.pinned, h'.captured, h'.views, h'.drafts, fun p hp => ?_⟩
      rcases List.mem_cons.mp hp with rfl | hp
      · refine ⟨rewrite_generated hw' hm hacc, (h.handles i handle hhandle).2, fun handle' hh => ?_⟩
        obtain rfl := Option.some.inj (hhandle.symm.trans hh)
        exact (MetaJob.manifest_headSeq hm).le
      · exact h'.adoptions p hp
  | adopt k saves =>
    obtain ⟨p, c, hp, hpk, hc, rfl⟩ := step_adopt hstep
    have hserving : s.serves p.handle = true := by simpa [worksOn, hpk] using hserves
    obtain ⟨hgen, -, hbound⟩ := h.adoptions p hp
    have hsave : saves = true ∨ c.disk.saved.appliedSeq ≤ p.manifest.headSeq := by
      simpa [hpk, savedUpTo, hc] using hsound
    obtain ⟨hok, hkeeps⟩ := Copy.adoptWrite_spec hw (h.copyOk hserving hc) hgen
      (hbound c.handle (copy_eq_some.mp hc).1) saves hsave
    have h' := h.setCopy hserving hc hok hkeeps
    exact ⟨h'.world, h'.handles, h'.copies, h'.disks, h'.owners, h'.pins, h'.attempts, h'.claims,
      h'.pinned, h'.captured, h'.views, h'.drafts,
      fun q hq => h'.adoptions q (List.mem_of_mem_eraseIdx hq)⟩

theorem ok_created (cfg : Config) (access : Option RepoAccess) (now : Timestamp)
    (writer : String) : Ok cfg (created (createdManifest access now writer)) where
  world := {
    inv := inv_created access now writer
    seen := by simp [created, World.created]
    jobs := by simp [created, World.created]
    claims := by simp [created, World.created]
    checkpoints := by
      rintro cp (⟨g, hg, hcp⟩ | ⟨_, _, hwire, -⟩)
      · simp only [created, World.created, List.mem_singleton] at hg
        subst hg
        simp [createdManifest] at hcp
      · simp [created, World.created] at hwire }
  handles := by simp [created]
  copies := by simp [created]
  disks := by simp [created]
  owners := by simp [created]
  pins := by simp [created]
  attempts := by simp [created, World.created]
  claims := by simp [created, World.created]
  pinned := by simp [created]
  captured := by simp [created]
  views := by simp [created]
  drafts := by simp [created]
  adoptions := by simp [created]

/-- Every step of the run is sound. -/
def Sound (cfg : Config) (s : Cluster) (deeds : List Deed) : Prop :=
  Runs.AllSteps (step cfg) (fun s d => s.sound d = true) s deeds

/-- The invariant holds along every sound run from a new repository. -/
theorem ok_run {access : Option RepoAccess} {now : Timestamp} {writer : String}
    {deeds : List Deed}
    (hsound : Sound cfg (created (createdManifest access now writer)) deeds)
    (hrun : Runs.run (Cluster.step cfg) (created (createdManifest access now writer)) deeds =
      some s) : Ok cfg s :=
  Runs.invariant (fun _ _ _ h hsound hstep => h.step hsound hstep) hrun hsound
    (ok_created cfg access now writer)

end Cluster

end Walgit
