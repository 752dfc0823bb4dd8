import Walgit.Cluster

/-!
# What a deed can do

One inversion lemma for each deed; no other module unfolds `Cluster.step`.
-/
namespace Walgit

namespace Cluster

variable [Text.CharTables] {cfg : Config} {s s' : Cluster}

attribute [local simp] step

theorem step_store {a : Action} (h : step cfg s (.store a) = some s') :
    ∃ w, a.remote = true ∧ Walgit.step cfg s.world a = some w ∧ s' = { s with world := w } := by
  simp only [step] at h
  split_ifs at h with hremote
  obtain ⟨w, hw, rfl⟩ := Option.map_eq_some_iff.mp h
  exact ⟨w, hremote, hw, rfl⟩

theorem step_start {i t : ℕ} {job : Job} (h : step cfg s (.start i t job) = some s') :
    ∃ handle w, s.handles i = some handle ∧ Walgit.step cfg s.world (.start t job) = some w ∧
      s' = { s with
        world := w
        owner := Function.update s.owner t (some i)
        pins := Function.update s.pins t none } := by
  simp only [step, Option.bind_eq_bind, Option.bind_eq_some_iff, Option.some.injEq] at h
  obtain ⟨handle, hhandle, w, hw, rfl⟩ := h
  exact ⟨handle, w, hhandle, hw, rfl⟩

theorem step_pin {t : ℕ} (h : step cfg s (.pin t) = some s') :
    ∃ task i c, s.world.tasks t = some task ∧ s.owner t = some i ∧ s.copy i = some c ∧
      task.phase = .ready ∧ s' = { s with
        pins := Function.update s.pins t
          (some ⟨c.handle.manifest, c.handle.version, c.disk.refs⟩) } := by
  simp only [step, Option.bind_eq_bind, Option.bind_eq_some_iff] at h
  obtain ⟨task, htask, c, ⟨i, howner, hc⟩, h⟩ := h
  split at h <;> cases h
  rename_i hphase
  exact ⟨task, i, c, htask, howner, hc, hphase, rfl⟩

theorem step_capture {t : ℕ} {policy : PackPolicy} {writer : String} {startedAt : Timestamp}
    {lastEntryTime : Option ℕ}
    (h : step cfg s (.capture t policy writer startedAt lastEntryTime) = some s') :
    ∃ task i handle p w, s.world.tasks t = some task ∧ s.owner t = some i ∧
      s.handles i = some handle ∧ s.pins t = some p ∧
      (task.job.hasForge → ∃ f, handle.forge = some f ∧ p.manifest.headSeq ≤ f.seq) ∧
      Walgit.step cfg s.world (.capture t ⟨⟨p.manifest, p.version, .new p.refs,
        handle.forge.getD .empty, lastEntryTime⟩, policy, writer, startedAt⟩) = some w ∧
      s' = { s with world := w, pins := Function.update s.pins t none } := by
  simp only [step, Option.bind_eq_bind, Option.bind_eq_some_iff] at h
  obtain ⟨task, htask, handle, ⟨i, howner, hhandle⟩, p, hp, h⟩ := h
  split_ifs at h with hforge
  obtain ⟨w, hw, h⟩ := Option.bind_eq_some_iff.mp h
  cases h
  refine ⟨task, i, handle, p, w, htask, howner, hhandle, hp, fun hjob => ?_, hw, rfl⟩
  simp only [hjob, Bool.true_and, Bool.not_eq_true', Bool.not_eq_false,
    Option.any_eq_true_iff_get, decide_eq_true_eq] at hforge
  obtain ⟨hsome, hle⟩ := hforge
  exact ⟨handle.forge.get hsome, (Option.some_get hsome).symm, hle⟩

theorem step_settle {t : ℕ} {fault : Option CommitFault}
    (h : step cfg s (.settle t fault) = some s') :
    ∃ task i c c', s.world.tasks t = some task ∧ s.owner t = some i ∧ s.copy i = some c ∧
      t ∉ s.settled ∧ s.settleTask task fault c = some c' ∧
      s' = { s.setCopy i c' with settled := t :: s.settled } := by
  simp only [step, Option.bind_eq_bind, Option.bind_eq_some_iff] at h
  obtain ⟨task, htask, i, howner, c, hc, h⟩ := h
  split_ifs at h with hnew
  obtain ⟨c', hc', h⟩ := Option.bind_eq_some_iff.mp h
  cases h
  exact ⟨task, i, c, c', htask, howner, hc, hnew, hc', rfl⟩

theorem step_finish {t : ℕ} {clock : ℕ → Timestamp} (h : step cfg s (.finish t clock) = some s') :
    ∃ task i handle w, s.world.tasks t = some task ∧ s.owner t = some i ∧
      s.handles i = some handle ∧ t ∈ s.settled ∧
      Walgit.step cfg s.world (.finish t) = some w ∧
      s' = { s with
        world := w
        handles := Function.update s.handles i (some (handle.foldTask task clock)) } := by
  simp only [step, Option.bind_eq_bind, Option.bind_eq_some_iff] at h
  obtain ⟨task, htask, i, howner, handle, hhandle, h⟩ := h
  split_ifs at h with hsettled
  obtain ⟨w, hw, h⟩ := Option.bind_eq_some_iff.mp h
  cases h
  exact ⟨task, i, handle, w, htask, howner, hhandle, hsettled, hw, rfl⟩

theorem step_sync {i : ℕ} {fault : Option Fault} (h : step cfg s (.sync i fault) = some s') :
    ∃ c m v, s.copy i = some c ∧ s.world.current = some (m, v) ∧
      s' = s.setCopy i (c.sync (s.world.readLog m) m v fault).1 := by
  simp only [step, Option.bind_eq_bind, Option.bind_eq_some_iff] at h
  obtain ⟨c, hc, ⟨m, v⟩, hcur, h⟩ := h
  cases h
  exact ⟨c, m, v, hc, hcur, rfl⟩

theorem step_rematerialize {i : ℕ} {fault : Option Fault}
    (h : step cfg s (.rematerialize i fault) = some s') :
    ∃ c m v, s.copy i = some c ∧ s.world.current = some (m, v) ∧
      s' = s.setCopy i (c.rematerialize (s.world.readLog m) m v fault).1 := by
  simp only [step, Option.bind_eq_bind, Option.bind_eq_some_iff] at h
  obtain ⟨c, hc, ⟨m, v⟩, hcur, h⟩ := h
  cases h
  exact ⟨c, m, v, hc, hcur, rfl⟩

theorem step_openRepo {site : ℕ} {fault : Option Fault}
    (h : step cfg s (.openRepo site fault) = some s') :
    ∃ m v, s.registry site = none ∧ s.world.current = some (m, v) ∧
      let r := Copy.opened site ((s.disks site).getD .init) (s.world.readLog m) m v fault
      (r.2 = true ∧ s' = { s.setCopy s.nextHandle r.1 with
          nextHandle := s.nextHandle + 1
          registry := Function.update s.registry site (some s.nextHandle) }) ∨
      (r.2 = false ∧ s' = { s with disks := Function.update s.disks site (some r.1.disk) }) := by
  simp only [step] at h
  split_ifs at h with hopen
  simp only [Option.bind_eq_bind, Option.bind_eq_some_iff] at h
  obtain ⟨⟨m, v⟩, hcur, h⟩ := h
  refine ⟨m, v, by simpa using hopen, hcur, ?_⟩
  split_ifs at h with hok <;> cases h
  · exact Or.inl ⟨hok, rfl⟩
  · exact Or.inr ⟨by simpa using hok, rfl⟩

theorem step_evict {site : ℕ} (h : step cfg s (.evict site) = some s') :
    s' = { s with
      disks := Function.update s.disks site none
      registry := Function.update s.registry site none } := by
  simpa using h.symm

theorem step_stop {site : ℕ} (h : step cfg s (.stop site) = some s') :
    s' = { s with
      handles := fun i => (s.handles i).filter fun handle => handle.site ≠ site
      registry := Function.update s.registry site none } := by
  simpa using h.symm

theorem step_forgeEnsure {i : ℕ} (h : step cfg s (.forgeEnsure i) = some s') :
    ∃ c c', s.copy i = some c ∧ c.forgeEnsure (s.world.readLog c.handle.manifest) = some c' ∧
      s' = s.setCopy i c' := by
  simp only [step, Option.bind_eq_bind, Option.bind_eq_some_iff, Option.some.injEq] at h
  obtain ⟨c, hc, c', hc', rfl⟩ := h
  exact ⟨c, c', hc, hc', rfl⟩

theorem step_view {i : ℕ} (h : step cfg s (.view i) = some s') :
    ∃ c m v, s.copy i = some c ∧ s.world.current = some (m, v) ∧
      let r := c.sync (s.world.readLog m) m v none
      r.2 = true ∧ s' = { s.setCopy i r.1 with
        views := ⟨i, r.1.handle.manifest, r.1.disk.refs⟩ :: s.views } := by
  simp only [step, Option.bind_eq_bind, Option.bind_eq_some_iff] at h
  obtain ⟨c, hc, ⟨m, v⟩, hcur, h⟩ := h
  split_ifs at h with hok
  cases h
  exact ⟨c, m, v, hc, hcur, hok, rfl⟩

theorem step_draft {i k : ℕ} {createdAt firstStateAt asOf : Option Timestamp}
    (h : step cfg s (.draft i k createdAt firstStateAt asOf) = some s') :
    ∃ handle view cp, s.handles i = some handle ∧ s.views[k]? = some view ∧ view.handle = i ∧
      view.draft handle.forge createdAt firstStateAt asOf = some cp ∧
      s' = { s with drafts := (view.manifest, cp) :: s.drafts } := by
  simp only [step, Option.bind_eq_bind, Option.bind_eq_some_iff] at h
  obtain ⟨handle, hhandle, view, hview, h⟩ := h
  split_ifs at h with hi
  obtain ⟨cp, hcp, h⟩ := Option.bind_eq_some_iff.mp h
  cases h
  exact ⟨handle, view, cp, hhandle, hview, not_not.mp hi, hcp, rfl⟩

theorem step_rewrite {i : ℕ} {job : MetaJob} {policy : PackPolicy} {writer : String}
    {now : Timestamp} {reply : Reply}
    (h : step cfg s (.rewrite i job policy writer now reply) = some s') :
    ∃ handle version w m, s.handles i = some handle ∧ handle.version = some version ∧
      s.drafted job = true ∧
      Walgit.step cfg s.world
        (.rewrite job handle.manifest version policy writer now reply) = some w ∧
      job.manifest handle.manifest policy writer now = some m ∧
      (s' = { s with world := w } ∨
        (reply = .delivered ∧ s.world.store.accepts .manifest (.update version) = true ∧
          s' = { s with
            world := w, adoptions := ⟨i, job, m, s.world.store.next⟩ :: s.adoptions })) := by
  simp only [step, Option.bind_eq_bind, Option.bind_eq_some_iff] at h
  obtain ⟨handle, hhandle, version, hversion, h⟩ := h
  by_cases hdrafted : s.drafted job = true
  · rw [if_neg (by simp [hdrafted])] at h
    obtain ⟨w, hw, h⟩ := Option.bind_eq_some_iff.mp h
    split at h <;> cases h
    rename_i m hm
    refine ⟨handle, version, w, m, hhandle, hversion, hdrafted, hw, hm, ?_⟩
    by_cases hlanded : reply = .delivered ∧
        s.world.store.accepts .manifest (.update version) = true
    · exact Or.inr ⟨hlanded.1, hlanded.2, by simp [hlanded]⟩
    · exact Or.inl (by simp [hlanded])
  · rw [if_pos (by simpa using hdrafted)] at h
    cases h

theorem step_adopt {k : ℕ} {saves : Bool} (h : step cfg s (.adopt k saves) = some s') :
    ∃ p c, p ∈ s.adoptions ∧ s.adoptions[k]? = some p ∧ s.copy p.handle = some c ∧
      s' = { s.setCopy p.handle (c.adoptWrite p saves) with
        adoptions := s.adoptions.eraseIdx k } := by
  simp only [step, Option.bind_eq_bind, Option.bind_eq_some_iff, Option.some.injEq] at h
  obtain ⟨p, hp, c, hc, rfl⟩ := h
  exact ⟨p, c, List.mem_of_getElem? hp, hp, hc, rfl⟩

/-- A deed leaves the store and the publishers alone or is one step of theirs. -/
theorem step_world {d : Deed} (h : step cfg s d = some s') :
    s'.world = s.world ∨ ∃ a, Walgit.step cfg s.world a = some s'.world ∧
      (∀ t b, a = .capture t b → ∃ policy writer startedAt lastEntryTime p,
        d = .capture t policy writer startedAt lastEntryTime ∧ s.pins t = some p ∧
          b.basis.manifest = p.manifest ∧ b.basis.lastEntryTime = lastEntryTime) ∧
      (∀ t job, a = .start t job → ∃ i, d = .start i t job) ∧ (a.remote → d = .store a) := by
  cases d with
  | store a =>
    obtain ⟨w, hremote, hw, rfl⟩ := step_store h
    refine Or.inr ⟨_, hw, fun t b heq => ?_, fun t job heq => ?_, fun _ => rfl⟩
    · rw [heq] at hremote
      cases hremote
    · rw [heq] at hremote
      cases hremote
  | start i t job =>
    obtain ⟨handle, w, -, hw, rfl⟩ := step_start h
    refine Or.inr ⟨_, hw, by simp, fun t' job' heq => ?_, fun hremote => nomatch hremote⟩
    cases heq
    exact ⟨i, rfl⟩
  | pin t =>
    obtain ⟨_, _, _, -, -, -, -, rfl⟩ := step_pin h
    exact Or.inl rfl
  | capture t policy writer startedAt lastEntryTime =>
    obtain ⟨_, _, _, p, w, -, -, -, hp, -, hw, rfl⟩ := step_capture h
    refine Or.inr ⟨_, hw, fun t' b heq => ?_, by simp, fun hremote => nomatch hremote⟩
    cases heq
    exact ⟨policy, writer, startedAt, lastEntryTime, p, rfl, hp, rfl, rfl⟩
  | settle t fault =>
    obtain ⟨_, _, _, _, -, -, -, -, -, rfl⟩ := step_settle h
    exact Or.inl rfl
  | finish t clock =>
    obtain ⟨_, _, _, w, -, -, -, -, hw, rfl⟩ := step_finish h
    exact Or.inr ⟨_, hw, by simp, by simp, fun hremote => nomatch hremote⟩
  | sync i fault =>
    obtain ⟨_, _, _, -, -, rfl⟩ := step_sync h
    exact Or.inl rfl
  | rematerialize i fault =>
    obtain ⟨_, _, _, -, -, rfl⟩ := step_rematerialize h
    exact Or.inl rfl
  | openRepo site fault =>
    obtain ⟨_, _, -, -, ⟨-, rfl⟩ | ⟨-, rfl⟩⟩ := step_openRepo h <;> exact Or.inl rfl
  | evict site =>
    obtain rfl := step_evict h
    exact Or.inl rfl
  | stop site =>
    obtain rfl := step_stop h
    exact Or.inl rfl
  | forgeEnsure i =>
    obtain ⟨_, _, -, -, rfl⟩ := step_forgeEnsure h
    exact Or.inl rfl
  | view i =>
    obtain ⟨_, _, _, -, -, -, rfl⟩ := step_view h
    exact Or.inl rfl
  | draft i k createdAt firstStateAt asOf =>
    obtain ⟨_, _, _, -, -, -, -, rfl⟩ := step_draft h
    exact Or.inl rfl
  | rewrite i job policy writer now reply =>
    obtain ⟨_, _, w, _, -, -, -, hw, -, rfl | ⟨-, -, rfl⟩⟩ := step_rewrite h <;>
      exact Or.inr ⟨_, hw, by simp, by simp, fun hremote => nomatch hremote⟩
  | adopt k saves =>
    obtain ⟨_, _, -, -, -, rfl⟩ := step_adopt h
    exact Or.inl rfl

end Cluster

end Walgit
