import Walgit.Copies

/-!
# What a handle's calls do to its copy

A handle holds a committed manifest and a copy that has applied at least that manifest's
log. Syncs, opens, the local part of a publish and the adoption of metadata writes keep it
so, wherever they fail.
-/
namespace Walgit

open Replay (upTo after between)

/-- The refs are the fold of the whole log, as long as the manifest is the newest. -/
def World.Exact (w : World) (m : Manifest) (refs : RefState) : Prop :=
  (∃ g ∈ w.gens, g.manifest = m) ∧ ∀ g, w.gens.head? = some g → g.manifest = m →
    refs = foldRefs .fresh (committedEntries w.gens)

/-- The handle holds a committed manifest, under its version if it knows one. -/
def Handle.Held (w : World) (handle : Handle) : Prop :=
  ∃ g ∈ w.gens, g.manifest = handle.manifest ∧ ∀ v, handle.version = some v → g.version = v

/-- The copy alone, as the next handle over it will find it. -/
structure Disk.Ok (w : World) (d : Disk) : Prop where
  applied : d.refs.Applied (committedEntries w.gens) d.saved.appliedSeq
  boundary : w.Boundary d.saved.appliedSeq

/-- A handle and its copy in order: the copy is not behind the manifest, and the state file is
not ahead of the copy. -/
structure Copy.Ok (w : World) (c : Copy) : Prop extends c.Reaches w where
  held : c.handle.Held w
  head : c.handle.manifest.headSeq ≤ c.handle.state.appliedSeq
  saved : c.disk.saved.appliedSeq ≤ c.handle.state.appliedSeq
  savedBoundary : w.Boundary c.disk.saved.appliedSeq

/-- The same handle, at a manifest that is not older. -/
structure Copy.Keeps (c c' : Copy) : Prop where
  site : c'.handle.site = c.handle.site
  head : c.handle.manifest.headSeq ≤ c'.handle.manifest.headSeq

theorem Copy.Keeps.refl (c : Copy) : c.Keeps c := ⟨rfl, le_rfl⟩

theorem Copy.Advances.keeps {c c' : Copy} (h : c.Advances c') : c.Keeps c' :=
  ⟨h.site, h.manifest ▸ le_rfl⟩

theorem Inv.boundary_le [Text.CharTables] {cfg : Config} {w : World} {m : Manifest} {v : ℕ}
    (hinv : Inv cfg w) (hcur : w.current = some (m, v)) {n : ℕ} (hn : w.Boundary n) :
    n ≤ m.headSeq := by
  obtain ⟨g, gens, hgens, hobj⟩ := hinv.current
  simp only [World.current, hobj, Option.some.injEq, Prod.mk.injEq] at hcur
  rcases hn with h0 | ⟨g', hg', hhead⟩
  · omega
  · have hchain := hinv.chain
    rw [hgens] at hchain hg'
    have := hchain.logSpec.heads g' hg'
    rw [hcur.1] at this
    omega

namespace Copy

variable {cfg : Config} {w : World} {c c' : Copy} {m : Manifest} {v : ℕ}

theorem Ok.advance (h : c.Ok w) (hreach : c'.Reaches w) (hadv : c.Advances c') : c'.Ok w where
  toReaches := hreach
  held := by
    obtain ⟨g, hg, hm, hv⟩ := h.held
    exact ⟨g, hg, hm.trans hadv.manifest.symm, fun v hver => hv v (hadv.version ▸ hver)⟩
  head := hadv.manifest ▸ h.head.trans hadv.applied
  saved := by
    rcases hadv.saved with hsame | hnew
    · exact hsame ▸ h.saved.trans hadv.applied
    · exact hnew ▸ le_rfl
  savedBoundary := by
    rcases hadv.saved with hsame | hnew
    · exact hsame ▸ h.savedBoundary
    · exact hnew ▸ hreach.boundary

theorem Ok.forget (h : c.Ok w) : c.forget.Ok w where
  toReaches := ⟨h.applied, h.boundary⟩
  held := by
    obtain ⟨g, hg, hm, -⟩ := h.held
    exact ⟨g, hg, hm, by simp [Copy.forget]⟩
  head := h.head
  saved := h.saved
  savedBoundary := h.savedBoundary

/-- What `adopt_manifest` does when it adopts. -/
theorem adopt_eq_some (h : c.adopt m v = some c') : c.handle.manifest.revision ≤ m.revision ∧
    c' = { c with handle := { c.handle with manifest := m, version := some v } } := by
  unfold adopt at h
  split_ifs at h with hold
  exact ⟨not_lt.mp hold, (Option.some.inj h).symm⟩

theorem adopt_of_le (h : c.handle.manifest.revision ≤ m.revision) : c.adopt m v =
    some { c with handle := { c.handle with manifest := m, version := some v } } :=
  if_neg (not_lt.mpr h)

/-- A copy whose position covers a committed manifest may hold it. -/
theorem Ok.adopted (h : c.Reaches w) (hm : w.Generated m v)
    (hhead : m.headSeq ≤ c.handle.state.appliedSeq)
    (hsaved : c.disk.saved.appliedSeq ≤ c.handle.state.appliedSeq)
    (hboundary : w.Boundary c.disk.saved.appliedSeq) :
    Copy.Ok w { c with handle := { c.handle with manifest := m, version := some v } } where
  toReaches := ⟨h.applied, h.boundary⟩
  held := by
    obtain ⟨g, hg, hgm, hgv⟩ := hm
    exact ⟨g, hg, hgm, fun v' hv' => hgv.trans (Option.some.inj hv')⟩
  head := hhead
  saved := hsaved
  savedBoundary := hboundary

variable [Text.CharTables]

theorem Ok.disk (hw : w.Sound cfg) (h : c.Ok w) : c.disk.Ok w :=
  ⟨h.applied.mono hw.inv.chain.sorted h.saved, h.savedBoundary⟩

/-- No position is beyond the newest head. -/
theorem boundary_le (hw : w.Sound cfg) (hcur : w.current = some (m, v)) {n : ℕ}
    (hn : w.Boundary n) : n ≤ m.headSeq :=
  hw.inv.boundary_le hcur hn

/-- The newest manifest's log is the whole log. -/
theorem entry_le_current (hw : w.Sound cfg) (hcur : w.current = some (m, v)) :
    ∀ e ∈ committedEntries w.gens, e.seq ≤ m.headSeq := by
  obtain ⟨g, gens, hgens, hobj⟩ := hw.inv.current
  simp only [World.current, hobj, Option.some.injEq, Prod.mk.injEq] at hcur
  intro e he
  have hchain := hw.inv.chain
  rw [hgens] at hchain he
  exact hcur.1 ▸ (hchain.entry_bounds he).2

/-- The newest manifest has the highest revision. -/
theorem revision_le_current (hw : w.Sound cfg) (hcur : w.current = some (m, v)) {g : Generation}
    (hg : g ∈ w.gens) : g.manifest.revision ≤ m.revision := by
  obtain ⟨g', gens, hgens, hobj⟩ := hw.inv.current
  simp only [World.current, hobj, Option.some.injEq, Prod.mk.injEq] at hcur
  have hchain := hw.inv.chain
  rw [hgens] at hchain hg
  rcases List.mem_cons.mp hg with rfl | hg
  · exact hcur.1 ▸ le_rfl
  · exact hcur.1 ▸ (hchain.revision_lt hg).le

/-- A copy at the newest manifest is the fold of the log. -/
theorem Ok.exact (hw : w.Sound cfg) (h : c.Ok w) (hcur : w.current = some (m, v))
    (hm : c.handle.manifest = m) : c.disk.refs = foldRefs .fresh (committedEntries w.gens) :=
  h.applied.exact fun e he => (entry_le_current hw hcur e he).trans (hm ▸ h.head)

/-- What a handle captures is exact for the newest manifest. -/
theorem Ok.pinned (hw : w.Sound cfg) (h : c.Ok w) : w.Exact c.handle.manifest c.disk.refs := by
  obtain ⟨g, hg, hm, -⟩ := h.held
  refine ⟨⟨g, hg, hm⟩, fun g' hg' hm' => ?_⟩
  obtain ⟨current, gens, hgens, hobj⟩ := hw.inv.current
  rw [hgens, List.head?_cons, Option.some.injEq] at hg'
  subst hg'
  have hcur : w.current = some (current.manifest, current.version) := by
    simp [World.current, hobj]
  exact h.exact hw hcur hm'.symm

theorem Held.head_le (hw : w.Sound cfg) {handle : Handle} (hheld : handle.Held w)
    (hm : w.Generated m v) (hrev : handle.manifest.revision ≤ m.revision) :
    handle.manifest.headSeq ≤ m.headSeq := by
  obtain ⟨g, hg, hgm, -⟩ := hheld
  obtain ⟨g', hg', rfl, -⟩ := hm
  rw [← hgm] at hrev ⊢
  rcases hw.inv.chain.of_revision_le hg hg' hrev with rfl | ⟨-, hle⟩
  · exact le_rfl
  · exact hle

/-- A sync leaves the copy in order, and at the manifest it read if it succeeds. -/
theorem sync_spec (hw : w.Sound cfg) (hc : c.Ok w) (hcur : w.current = some (m, v))
    (fault : Option Fault) :
    let r := c.sync (w.readLog m) m v fault
    r.1.Ok w ∧ c.Keeps r.1 ∧ (r.2 = true → r.1.handle.manifest = m) ∧
      (fault = none → r.2 = true) := by
  obtain ⟨g, hg, hgm, hgv⟩ := hc.held
  obtain ⟨g', hg', rfl, rfl⟩ := hw.inv.current_generated hcur
  have hgen : w.Generated g'.manifest g'.version := ⟨g', hg', rfl, rfl⟩
  have happlied := boundary_le hw hcur hc.boundary
  intro r
  simp only [r, Copy.sync]
  split_ifs with hversion hold hsame hdelta
  · refine ⟨hc, .refl c, fun _ => ?_, fun _ => rfl⟩
    rw [← hgm, hw.inv.chain.eq_of_version hg hg' (hgv _ hversion)]
  · exact absurd (hgm ▸ revision_le_current hw hcur hg) (not_le.mpr hold)
  · -- The same revision is the same manifest.
    simp only [Bool.and_eq_true, decide_eq_true_eq] at hsame
    have heq : g = g' := by
      rcases hw.inv.chain.of_revision_le hg hg' (by rw [hgm, hsame.2]) with heq | ⟨hlt, -⟩
      · exact heq
      · rw [hgm, hsame.2] at hlt
        exact absurd hlt (lt_irrefl _)
    have hman : g'.manifest = c.handle.manifest := heq ▸ hgm
    rw [adopt_of_le (not_lt.mp hold), Option.getD_some]
    refine ⟨Ok.adopted hc.toReaches hgen (hman ▸ hc.head) hc.saved hc.savedBoundary, ⟨rfl, ?_⟩,
      fun _ => rfl, fun _ => rfl⟩
    exact hman ▸ le_rfl
  all_goals
    obtain ⟨hreach, hadv, hdone, hok⟩ := applyDelta_spec hw hg' hc.toReaches happlied fault
  · obtain ⟨hstate, hsaved⟩ := hdone hdelta
    set r₁ := (c.applyDelta (w.readLog g'.manifest) g'.manifest fault).1 with hr₁
    rw [adopt_of_le (by rw [hadv.manifest]; exact not_lt.mp hold), Option.getD_some]
    refine ⟨Ok.adopted hreach hgen (by rw [hstate]) (by rw [hsaved])
      (hsaved ▸ hreach.boundary), ⟨hadv.site, ?_⟩, fun _ => rfl, fun _ => rfl⟩
    exact Held.head_le hw hc.held hgen (not_lt.mp hold)
  · exact ⟨hc.advance hreach hadv, hadv.keeps, fun h => absurd h hdelta,
      fun h => absurd (hok h) hdelta⟩

/-- Without a fault the whole copy is built again. -/
theorem rematerialize_spec (hw : w.Sound cfg) (hc : c.Ok w) (hcur : w.current = some (m, v)) :
    let r := c.rematerialize (w.readLog m) m v none
    r.1.Ok w ∧ c.Keeps r.1 ∧ r.2 = true ∧ r.1.handle.manifest = m := by
  obtain ⟨g, hg, hgm, hgv⟩ := hc.held
  have hrev := revision_le_current hw hcur hg
  obtain ⟨g', hg', rfl, rfl⟩ := hw.inv.current_generated hcur
  have hgen : w.Generated g'.manifest g'.version := ⟨g', hg', rfl, rfl⟩
  -- From position zero: nothing of the log is taken as applied.
  set c₀ := c.setState { c.handle.state with appliedSeq := 0 } with hc₀
  have hreach₀ : c₀.Reaches w :=
    ⟨hc.applied.mono hw.inv.chain.sorted (Nat.zero_le _), Or.inl rfl⟩
  obtain ⟨hreach, hadv, hdone, hok⟩ := applyDelta_spec hw hg' hreach₀ (Nat.zero_le _) none
  obtain ⟨hstate, hsaved⟩ := hdone (hok rfl)
  have hman : (c₀.applyDelta (w.readLog g'.manifest) g'.manifest none).1.handle.manifest =
      c.handle.manifest := hadv.manifest
  intro r
  simp only [r, rematerialize, ← hc₀, hok rfl, if_true]
  rw [adopt_of_le (by rw [hman, ← hgm]; exact hrev), Option.getD_some]
  refine ⟨Ok.adopted hreach hgen (by rw [hstate]) (by rw [hsaved])
    (hsaved ▸ hreach.boundary), ⟨hadv.site, ?_⟩, trivial, rfl⟩
  exact Held.head_le hw hc.held hgen (hgm ▸ hrev)

theorem Disk.init_ok (hw : w.Sound cfg) : Disk.init.Ok w := by
  refine ⟨?_, Or.inl rfl⟩
  have hzero : refsAt (committedEntries w.gens) 0 = RefState.fresh := by
    obtain ⟨g, gens, hgens, -⟩ := hw.inv.current
    have hchain := hw.inv.chain
    rw [hgens] at hchain ⊢
    rw [refsAt, Replay.upTo_eq_nil fun e he => (hchain.entry_bounds he).1]
    rfl
  have happlied := RefState.Applied.refsAt (committedEntries w.gens) 0
  rw [hzero] at happlied
  exact happlied

/-- A handle opened over a copy is in order; the copy is, even if opening fails. -/
theorem opened_spec (hw : w.Sound cfg) {d : Disk} (hd : d.Ok w) (hcur : w.current = some (m, v))
    (site : ℕ) (fault : Option Fault) :
    let r := Copy.opened site d (w.readLog m) m v fault
    (r.2 = true → r.1.Ok w) ∧ r.1.disk.Ok w ∧ r.1.handle.site = site ∧
      r.1.handle.manifest = m := by
  obtain ⟨g, hg, rfl, rfl⟩ := hw.inv.current_generated hcur
  have hgen : w.Generated g.manifest g.version := ⟨g, hg, rfl, rfl⟩
  set c : Copy := ⟨d, ⟨site, g.manifest, some g.version, d.saved, none⟩⟩ with hcdef
  have hreach : c.Reaches w := ⟨hd.applied, hd.boundary⟩
  intro r
  simp only [r, Copy.opened, ← hcdef]
  split_ifs with hbehind
  · obtain ⟨hreach', hadv, hdone, -⟩ :=
      applyDelta_spec hw hg hreach (boundary_le hw hcur hd.boundary) fault
    refine ⟨fun hok => ?_, ?_, hadv.site, hadv.manifest⟩
    · obtain ⟨hstate, hsaved⟩ := hdone hok
      obtain ⟨g', hg', hgm, hgv⟩ := hgen
      exact ⟨hreach', ⟨g', hg', hgm.trans hadv.manifest.symm,
        fun v' hv' => hgv.trans (Option.some.inj (hadv.version.symm.trans hv'))⟩,
        by rw [hadv.manifest, hstate], by rw [hsaved], hsaved ▸ hreach'.boundary⟩
    · rcases hadv.saved with hsame | hnew
      · exact ⟨hsame ▸ hreach'.applied.mono hw.inv.chain.sorted hadv.applied, hsame ▸ hd.boundary⟩
      · exact ⟨hnew ▸ hreach'.applied, hnew ▸ hreach'.boundary⟩
  · simp only [Bool.or_eq_true, decide_eq_true_eq, not_or, not_lt] at hbehind
    exact ⟨fun _ => Ok.adopted hreach hgen hbehind.1 le_rfl hd.boundary, hd, rfl, rfl⟩

/-- What the local part of a commit starts from: the claim is committed, the manifest lists
it, and the copy has applied its basis. -/
structure Settles (w : World) (c : Copy) (o : Origin) (m : Manifest) (v : ℕ) : Prop where
  committed : Committed w o
  generated : w.Generated m v
  listed : o.slot.lastSeq ≤ m.headSeq
  basis : o.attempt.basis.manifest.headSeq ≤ c.handle.state.appliedSeq

/-- A commit that is applied is adopted and recorded. -/
theorem adoptRecord_spec (hw : w.Sound cfg) (hc : c.Ok w) (hreach : c'.Reaches w)
    (hadv : c.Advances c') (hm : w.Generated m v)
    (hat : c'.disk.refs.Applied (committedEntries w.gens) m.headSeq) (saves : Bool)
    (hsave : saves = true ∨ c'.disk.saved.appliedSeq ≤ m.headSeq) :
    let r := match c'.adopt m v with
      | some c => c.record ⟨m.headSeq, m.revision⟩ saves
      | none => c'
    r.Ok w ∧ c.Keeps r := by
  intro r
  have hok := hc.advance hreach hadv
  simp only [r]
  split
  · rename_i c₁ hadopt
    obtain ⟨hrev, rfl⟩ := adopt_eq_some hadopt
    obtain ⟨g, hg, rfl, rfl⟩ := hm
    have hgen : w.Generated g.manifest g.version := ⟨g, hg, rfl, rfl⟩
    have hboundary : w.Boundary g.manifest.headSeq := Or.inr ⟨g, hg, rfl⟩
    refine ⟨⟨⟨hat, hboundary⟩, ?_, le_rfl, ?_, ?_⟩, hadv.site, ?_⟩
    · exact ⟨g, hg, rfl, fun v' hv' => Option.some.inj hv'⟩
    · rcases hsave with rfl | hle
      · exact le_rfl
      · cases saves with
        | true => exact le_rfl
        | false => exact hle
    · cases saves with
      | true => exact hboundary
      | false => exact hok.savedBoundary
    · rw [hadv.manifest] at hrev
      exact Held.head_le hw hc.held hgen hrev
  · exact ⟨hok, hadv.keeps⟩

/-- The local part of a committed batch, wherever it fails. -/
theorem settleBatch_spec (hw : w.Sound cfg) (hc : c.Ok w) {o : Origin} (hs : Settles w c o m v)
    {reqs : List PublishRequest} (hjob : o.job = .batch reqs) (fault : Option CommitFault)
    (hsave : fault = some .save → c.disk.saved.appliedSeq ≤ m.headSeq) :
    let ts := (accepted reqs (verifyBatch o.attempt.basis reqs).1).map fun p => p.1.txn
    let r := c.settleBatch (w.readLog m) ts m v o.slot.lastSeq fault
    r.Ok w ∧ c.Keeps r := by
  intro ts r
  -- However the copy got there, a success has the log up to the head applied.
  obtain ⟨r₁, hr₁, hreach, hadv, hat, hsaved⟩ : ∃ r₁ : Copy × Bool,
      r = (if r₁.2 && fault ≠ some .refresh then
        match r₁.1.adopt m v with
        | some c => c.record ⟨m.headSeq, m.revision⟩ (fault ≠ some .save)
        | none => r₁.1
        else r₁.1.forget) ∧
      r₁.1.Reaches w ∧ c.Advances r₁.1 ∧
      (r₁.2 = true → r₁.1.disk.refs.Applied (committedEntries w.gens) m.headSeq) ∧
      (r₁.2 = true → fault = some .save → r₁.1.disk.saved.appliedSeq ≤ m.headSeq) := by
    refine ⟨_, rfl, ?_⟩
    split_ifs with hbehind hskip
    · simp only [Bool.and_eq_true, decide_eq_true_eq] at hbehind
      obtain ⟨g, hg, rfl, rfl⟩ := hs.generated
      obtain ⟨hreach, hadv, hdone, -⟩ :=
        applyDelta_spec hw hg hc.toReaches hbehind.1.le (CommitFault.delta fault)
      refine ⟨hreach, hadv, fun h => ?_, fun h _ => ?_⟩
      · have happlied := hreach.applied
        rw [(hdone h).1] at happlied
        exact happlied
      · rw [(hdone h).2, (hdone h).1]
    · refine ⟨hc.toReaches, .refl c, fun _ => ?_, fun _ => hsave⟩
      have hle : m.headSeq ≤ c.handle.state.appliedSeq := by
        have := hs.listed
        simp only [Bool.and_eq_true, decide_eq_true_eq, Bool.or_eq_true, ne_eq] at hbehind hskip
        omega
      exact hc.applied.mono hw.inv.chain.sorted hle
    · simp only [Bool.or_eq_true, decide_eq_true_eq, not_or, not_le, ne_eq, not_not] at hskip
      obtain ⟨hhandle, hsaved, happlied, hwhole⟩ :=
        applyBatch_spec hw hc.toReaches hs.committed hjob hs.basis hskip.1 fault
      refine ⟨⟨by rw [hhandle]; exact happlied, by rw [hhandle]; exact hc.boundary⟩,
        ⟨by rw [hhandle], by rw [hhandle], by rw [hhandle], by rw [hhandle], Or.inl hsaved⟩,
        fun h => ?_, fun _ h => ?_⟩
      · rw [hskip.2]
        exact hwhole h
      · rw [hsaved]
        exact hsave h
  rw [hr₁]
  split_ifs with hdone
  · simp only [Bool.and_eq_true] at hdone
    refine adoptRecord_spec hw hc hreach hadv hs.generated (hat hdone.1) _ ?_
    by_cases hfault : fault = some .save
    · exact Or.inr (hsaved hdone.1 hfault)
    · exact Or.inl (by simpa using hfault)
  · exact ⟨(hc.advance hreach hadv).forget, hadv.site, hadv.manifest ▸ le_rfl⟩

/-- The entry of such a job, alone in what is left of the log, has no refs. -/
theorem Settles.unwritten (hw : w.Sound cfg) (hc : c.Reaches w) {o : Origin}
    (hs : Settles w c o m v) (hb : o.job.isBatch = false)
    (hlt : c.handle.state.appliedSeq < o.slot.lastSeq) (heq : m.headSeq = o.slot.lastSeq) :
    ∀ e ∈ between LogEntry.seq c.handle.state.appliedSeq m.headSeq (committedEntries w.gens),
      e.txn = none := by
  have hfirst := boundary_lt hw hc.boundary hs.committed hlt
  obtain ⟨g, hg, ho⟩ := hs.committed
  obtain ⟨clock, es, hes, -, hbytes⟩ := (hw.inv.chain.ref_mem hg ho).1
  intro e he
  rw [heq, hw.inv.chain.span hg ho hs.basis hfirst, hbytes] at he
  obtain ⟨e₀, he₀, heq₀⟩ := mem_withNonce he
  rw [heq₀]
  exact (Job.entries_of_not_batch hes hb e₀ he₀).1

/-- A committed entry without refs is applied by counting it. -/
theorem Settles.counted (hw : w.Sound cfg) (hc : c.Reaches w) {o : Origin}
    (hs : Settles w c o m v) (hb : o.job.isBatch = false)
    (hhead : c.handle.state.appliedSeq < m.headSeq → m.headSeq = o.slot.lastSeq) :
    c.disk.refs.Applied (committedEntries w.gens) m.headSeq := by
  have hsorted := hw.inv.chain.sorted
  rcases le_or_gt m.headSeq c.handle.state.appliedSeq with hle | hlt
  · exact hc.applied.mono hsorted hle
  · have heq := hhead hlt
    exact hc.applied.skip hsorted hlt.le (hs.unwritten hw hc hb (heq ▸ hlt) heq)

theorem Settles.lastSeq (hw : w.Sound cfg) {o : Origin} (hs : Settles w c o m v)
    (hb : o.job.isBatch = false) : o.slot.lastSeq = o.slot.firstSeq := by
  obtain ⟨g, hg, ho⟩ := hs.committed
  exact (hw.inv.chain.ref_mem hg ho).1.lastSeq_of_not_batch hb

theorem Settles.position (hw : w.Sound cfg) {o : Origin} (hs : Settles w c o m v)
    (hb : o.job.isBatch = false) (hcontrol : o.job.isControl → m.headSeq = o.slot.lastSeq) :
    (if o.job.isControl then o.slot.firstSeq else m.headSeq) = m.headSeq := by
  split_ifs with h
  · rw [hcontrol h, hs.lastSeq hw hb]
  · rfl

/-- The local part of any other committed job. -/
theorem settleOne_spec (hw : w.Sound cfg) (hc : c.Ok w) {o : Origin} (hs : Settles w c o m v)
    (hb : o.job.isBatch = false) (hcontrol : o.job.isControl → m.headSeq = o.slot.lastSeq)
    (fault : Option CommitFault)
    (hsave : o.job.savesState fault = true ∨ c.disk.saved.appliedSeq ≤ m.headSeq) :
    let r := c.settleOne (w.readLog m) o.job m v o.slot.firstSeq fault
    r.Ok w ∧ c.Keeps r := by
  have hone := hs.lastSeq hw hb
  have hposition := hs.position hw hb hcontrol
  intro r
  obtain ⟨r₁, hr₁, hreach, hadv, hat, hsaved⟩ : ∃ r₁ : Copy × Bool,
      r = (if r₁.2 then
        match r₁.1.adopt m v with
        | some c => c.record ⟨m.headSeq, m.revision⟩ (o.job.savesState fault)
        | none => r₁.1
        else if o.job.isCompact then r₁.1.forget else r₁.1) ∧
      r₁.1.Reaches w ∧ c.Advances r₁.1 ∧
      (r₁.2 = true → r₁.1.disk.refs.Applied (committedEntries w.gens) m.headSeq) ∧
      (r₁.2 = true → o.job.savesState fault = true ∨
        r₁.1.disk.saved.appliedSeq ≤ m.headSeq) := by
    simp only [r, settleOne, hposition]
    refine ⟨_, rfl, ?_⟩
    split_ifs with hbehind
    · simp only [Bool.and_eq_true, decide_eq_true_eq] at hbehind
      obtain ⟨g, hg, rfl, rfl⟩ := hs.generated
      obtain ⟨hreach, hadv, hdone, -⟩ :=
        applyDelta_spec hw hg hc.toReaches hbehind.1.2.le (CommitFault.delta fault)
      refine ⟨hreach, hadv, fun h => ?_, fun h => Or.inr ?_⟩
      · have happlied := hreach.applied
        rw [(hdone h).1] at happlied
        exact happlied
      · rw [(hdone h).2, (hdone h).1]
    · refine ⟨hc.toReaches, .refl c, fun _ => hs.counted hw hc.toReaches hb fun hlt => ?_,
        fun _ => hsave⟩
      by_cases hctl : o.job.isControl
      · exact hcontrol hctl
      · have := hs.listed
        simp only [Bool.and_eq_true, decide_eq_true_eq, not_and, hctl, Bool.not_false] at hbehind
        have : ¬o.slot.firstSeq < m.headSeq := fun h => hbehind ⟨h, hlt⟩ trivial
        omega
  rw [hr₁]
  split_ifs with hdone hcompact
  · exact adoptRecord_spec hw hc hreach hadv hs.generated (hat hdone) _ (hsaved hdone)
  · exact ⟨(hc.advance hreach hadv).forget, hadv.site, hadv.manifest ▸ le_rfl⟩
  · exact ⟨hc.advance hreach hadv, hadv.keeps⟩

/-- Adopting a committed metadata write leaves the refs alone. -/
theorem adoptWrite_spec (hw : w.Sound cfg) (hc : c.Ok w) {p : Adoption}
    (hp : w.Generated p.manifest p.version)
    (hhead : p.manifest.headSeq ≤ c.handle.manifest.headSeq) (saves : Bool)
    (hsave : saves = true ∨ c.disk.saved.appliedSeq ≤ p.manifest.headSeq) :
    (c.adoptWrite p saves).Ok w ∧ c.Keeps (c.adoptWrite p saves) := by
  have happlied := hhead.trans hc.head
  unfold adoptWrite
  split
  · exact ⟨hc, .refl c⟩
  · rename_i c₁ hadopt
    obtain ⟨hrev, rfl⟩ := adopt_eq_some hadopt
    have hkeeps := Held.head_le hw hc.held hp hrev
    split
    · rename_i view cp hjob
      have hat := hc.applied.mono hw.inv.chain.sorted happlied
      have hspec := adoptRecord_spec hw hc hc.toReaches (.refl c) hp hat saves hsave
      rw [hadopt] at hspec
      exact hspec
    · have hok := Ok.adopted hc.toReaches hp happlied hc.saved hc.savedBoundary
      refine ⟨⟨⟨hok.applied, hok.boundary⟩, hok.held, hok.head, ?_, ?_⟩, rfl, hkeeps⟩
      · cases saves with
        | true => exact le_rfl
        | false => exact hok.saved
      · cases saves with
        | true => exact hok.boundary
        | false => exact hok.savedBoundary
    · have hok := Ok.adopted hc.toReaches hp happlied hc.saved hc.savedBoundary
      exact ⟨⟨⟨hok.applied, hok.boundary⟩, hok.held, hok.head, hok.saved, hok.savedBoundary⟩, rfl,
        hkeeps⟩

end Copy

end Walgit
