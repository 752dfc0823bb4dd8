import Walgit.Adverts

/-!
# The advertisement cache

What a request stores under a version is the advertisement of that version, if its copy is
level with the manifest of that version when it renders.
-/
namespace Walgit

open Text

namespace AdvertPhase

def handle : AdvertPhase → ℕ
  | keyed h .. | missed h .. | configured h .. => h

def request : AdvertPhase → AdvertRequest
  | keyed _ request _ | missed _ request _ | configured _ request .. => request

def version : AdvertPhase → Option ℕ
  | keyed _ _ version | missed _ _ version | configured _ _ version _ => version

end AdvertPhase

/-- The manifest a version belongs to. -/
def World.versionManifest (w : World) (v : ℕ) : Option Manifest :=
  (w.gens.find? fun g => g.version = v).map Generation.manifest

/-- No entry between two positions has refs. -/
def World.idle (w : World) (a b : ℕ) : Bool :=
  (Replay.between LogEntry.seq (min a b) (max a b) (committedEntries w.gens)).all
    fun e => e.txn.isNone

/-- The advertisement is the one of the manifest with that version. -/
def AdvertRequest.Current (env : AdvertEnv) (w : World) (request : AdvertRequest)
    (version : Option ℕ) (advert : Advert) : Prop :=
  ∃ v m, version = some v ∧ w.Generated m v ∧
    request.Of env m (refsAt (committedEntries w.gens) m.headSeq) advert

/-- The version a request read is one of the store, and the settings it read are that one's. -/
def AdvertPhase.Pending (env : AdvertEnv) (w : World) (phase : AdvertPhase) : Prop :=
  ∀ v, phase.version = some v → ∃ m, w.Generated m v ∧
    match phase with
    | .configured _ request _ selectors =>
      request.selects = true → env.advertise m = some selectors
    | _ => True

section Growth

variable {env : AdvertEnv} {w w' : World}

theorem AdvertRequest.Current.grows (hgrows : w.Grows w') {request : AdvertRequest}
    {version : Option ℕ} {advert : Advert} (h : request.Current env w version advert) :
    request.Current env w' version advert := by
  obtain ⟨v, m, hv, ⟨g, hg, rfl, hgv⟩, hof⟩ := h
  refine ⟨v, g.manifest, hv, ⟨g, hgrows.gens hg, rfl, hgv⟩, ?_⟩
  rwa [hgrows.refsAt (Or.inr ⟨g, hg, rfl⟩)]

theorem AdvertPhase.Pending.grows (hgrows : w.Grows w') {phase : AdvertPhase}
    (h : phase.Pending env w) : phase.Pending env w' := by
  intro v hv
  obtain ⟨m, hm, hrest⟩ := h v hv
  exact ⟨m, hgrows.generated hm, hrest⟩

theorem versionManifest_generated {v : ℕ} {m : Manifest} (h : w.versionManifest v = some m) :
    w.Generated m v := by
  obtain ⟨g, hg, rfl⟩ := Option.map_eq_some_iff.mp h
  exact ⟨g, List.mem_of_find?_eq_some hg, rfl, by simpa using List.find?_some hg⟩

end Growth

namespace Adverts

variable [CharTables] {cfg : Config} {env : AdvertEnv}

/-- Deeds are sound and none fails halfway through the refs; the settings a request reads are
those of the version it read; and when it renders, it knows that version, and its handle still
serves and has taken no refs since. -/
def steady (env : AdvertEnv) (s : Adverts) : AdvertEvent → Bool
  | .deed d => s.cluster.sound d && s.cluster.whole d
  | .configure r =>
    (s.requests r).all fun phase => !phase.request.selects || phase.version.all fun v =>
      (s.cluster.world.versionManifest v).all fun m => (s.cluster.handles phase.handle).all
        fun handle => env.advertise handle.manifest = env.advertise m
  | .render r =>
    (s.requests r).all fun phase => s.cluster.serves phase.handle && phase.version.any fun v =>
      (s.cluster.world.versionManifest v).any fun m => (s.cluster.handles phase.handle).all
        fun handle => s.cluster.world.idle m.headSeq handle.manifest.headSeq
  | _ => true

/-- The invariant. -/
structure Coherent (cfg : Config) (env : AdvertEnv) (s : Adverts) : Prop where
  ok : s.cluster.Ok cfg
  level : s.cluster.Level
  cache : ∀ (request : AdvertRequest) version advert, s.cache (request.key version) = some advert →
    request.Current env s.cluster.world version advert
  served : ∀ a ∈ s.served, a.1.Current env s.cluster.world a.2.1 a.2.2
  requests : ∀ r phase, s.requests r = some phase → phase.Pending env s.cluster.world

variable {s s' : Adverts} {w w' : World}

/-- A version belongs to one manifest. -/
theorem versionManifest_eq (hw : w.Sound cfg) {m : Manifest} {v : ℕ} (hm : w.Generated m v) :
    w.versionManifest v = some m := by
  obtain ⟨g, hg, rfl, rfl⟩ := hm
  have hfound : (w.gens.find? fun g' => g'.version = g.version).isSome :=
    List.find?_isSome.mpr ⟨g, hg, by simp⟩
  obtain ⟨g', hg'⟩ := Option.isSome_iff_exists.mp hfound
  have hsame := hw.inv.chain.eq_of_version (List.mem_of_find?_eq_some hg') hg
    (by simpa using List.find?_some hg')
  rw [World.versionManifest, hg', Option.map_some, hsame]

theorem refsAt_idle (hw : w.Sound cfg) {a b : ℕ} (h : w.idle a b = true) :
    refsAt (committedEntries w.gens) a = refsAt (committedEntries w.gens) b := by
  have hnone : ∀ e ∈ Replay.between LogEntry.seq (min a b) (max a b) (committedEntries w.gens),
      e.txn = none := fun e he => by simpa using List.all_eq_true.mp h e he
  have hsame := refsAt_skip hw.inv.chain.sorted min_le_max hnone
  rcases le_total a b with hab | hab
  · rwa [min_eq_left hab, max_eq_right hab] at hsame
  · rw [min_eq_right hab, max_eq_left hab] at hsame
    exact hsame.symm

/-- A request that leaves, or is replaced by one that is in order. -/
theorem Coherent.setRequest (h : Coherent cfg env s) (r : ℕ) {phase : Option AdvertPhase}
    (hphase : ∀ p, phase = some p → p.Pending env s.cluster.world) :
    Coherent cfg env (s.setRequest r phase) := by
  refine ⟨h.ok, h.level, h.cache, h.served, fun r' p hp => ?_⟩
  simp only [Adverts.setRequest, Function.update_apply] at hp
  split_ifs at hp
  · exact hphase p hp
  · exact h.requests r' p hp

theorem Coherent.store (h : Coherent cfg env s) (r : ℕ) {request : AdvertRequest}
    {version : Option ℕ} {advert : Advert}
    (hcur : request.Current env s.cluster.world version advert) :
    Coherent cfg env (s.store r request version advert) := by
  have h' : Coherent cfg env (s.setRequest r none) := h.setRequest r (by simp)
  refine ⟨h.ok, h.level, fun request' version' advert' hget => ?_, fun a ha => ?_, h'.requests⟩
  · simp only [Adverts.store, Function.update_apply] at hget
    split_ifs at hget with hkey
    · obtain ⟨rfl, rfl⟩ := AdvertRequest.key_inj hkey
      exact Option.some.inj hget ▸ hcur
    · exact h.cache request' version' advert' hget
  · rcases List.mem_cons.mp ha with rfl | ha
    · exact hcur
    · exact h.served a ha

/-- What a request renders is the advertisement of the version it read. -/
theorem Coherent.current (h : Coherent cfg env s) {r : ℕ} {phase : AdvertPhase} {c : Copy}
    (hr : s.requests r = some phase) (hc : s.cluster.copy phase.handle = some c)
    (hsteady : steady env s (.render r) = true) {selectors : List String}
    (hsel : ∀ m v, phase.version = some v → s.cluster.world.Generated m v →
      phase.request.selects = true → env.advertise m = some selectors) :
    phase.request.Current env s.cluster.world phase.version
      (phase.request.render env selectors c.disk.refs) := by
  simp only [steady, hr, Option.all_some, Bool.and_eq_true] at hsteady
  obtain ⟨hserves, hversion⟩ := hsteady
  obtain ⟨v, hv, hversion⟩ := (Option.any_eq_true _ _).mp hversion
  obtain ⟨m, hm, hidle⟩ := (Option.any_eq_true _ _).mp hversion
  obtain ⟨hhandle, -⟩ := Cluster.copy_eq_some.mp hc
  rw [hhandle, Option.all_some] at hidle
  have hgen := versionManifest_generated hm
  refine ⟨v, m, hv, hgen, selectors, hsel m v hv hgen, ?_⟩
  rw [(h.level phase.handle c hserves hc).refs, refsAt_idle h.ok.world.sound hidle]

/-- A deed moves the store on and keeps what was rendered. -/
theorem Coherent.deed (h : Coherent cfg env s) {d : Deed} {c : Cluster}
    (hsound : s.cluster.sound d = true) (hwhole : s.cluster.whole d = true)
    (hstep : s.cluster.step cfg d = some c) : Coherent cfg env { s with cluster := c } := by
  have hgrows : s.cluster.world.Grows c.world := by
    rcases Cluster.step_world hstep with heq | ⟨a, ha, -⟩
    · exact heq ▸ .refl _
    · exact step_grows h.ok.world.inv ha
  exact ⟨h.ok.step hsound hstep, h.level.step h.ok hsound hwhole hstep,
    fun request version advert hget => (h.cache request version advert hget).grows hgrows,
    fun a ha => (h.served a ha).grows hgrows,
    fun r phase hr => (h.requests r phase hr).grows hgrows⟩

/-- Steady steps keep the invariant. -/
theorem Coherent.step (h : Coherent cfg env s) {e : AdvertEvent} (hsteady : steady env s e = true)
    (hstep : step cfg env s e = some s') : Coherent cfg env s' := by
  cases e with
  | deed d =>
    simp only [steady, Bool.and_eq_true] at hsteady
    simp only [Adverts.step, Option.map_eq_some_iff] at hstep
    obtain ⟨c, hc, rfl⟩ := hstep
    exact h.deed hsteady.1 hsteady.2 hc
  | key r i request =>
    simp only [Adverts.step, Option.map_eq_some_iff] at hstep
    obtain ⟨handle, hhandle, rfl⟩ := hstep
    refine h.setRequest r fun p hp => ?_
    cases hp
    intro v hv
    obtain ⟨g, hg, hgm, hgv⟩ := (h.ok.handles i handle hhandle).1
    exact ⟨handle.manifest, ⟨g, hg, hgm, hgv v hv⟩, trivial⟩
  | lookup r =>
    simp only [Adverts.step] at hstep
    split at hstep
    · rename_i i request version hr
      have hpending := h.requests r _ hr
      split at hstep
      · rename_i advert hget
        cases hstep
        have h' : Coherent cfg env (s.setRequest r none) := h.setRequest r (by simp)
        refine ⟨h.ok, h.level, h.cache, fun a ha => ?_, h'.requests⟩
        rcases List.mem_cons.mp ha with rfl | ha
        · exact h.cache request version advert hget
        · exact h.served a ha
      · cases hstep
        exact h.setRequest r fun p hp => by cases hp; exact hpending
    · cases hstep
  | configure r =>
    simp only [Adverts.step] at hstep
    split at hstep
    · rename_i i service version hr
      obtain ⟨handle, hhandle, rfl⟩ := Option.map_eq_some_iff.mp hstep
      refine h.setRequest r fun p hp => ?_
      obtain ⟨selectors, hselectors, rfl⟩ := Option.map_eq_some_iff.mp hp
      intro v hv
      obtain ⟨m, hm, -⟩ := h.requests r _ hr v hv
      refine ⟨m, hm, fun hselects => ?_⟩
      change version = some v at hv
      subst hv
      simp only [steady, hr, Option.all_some, AdvertPhase.request, AdvertPhase.version,
        AdvertPhase.handle, versionManifest_eq h.ok.world.sound hm, hhandle] at hsteady
      change (AdvertRequest.infoRefs service).selects = true at hselects
      rw [hselects] at hsteady
      rw [← hselectors]
      exact (by simpa using hsteady : env.advertise handle.manifest = env.advertise m).symm
    · cases hstep
  | render r =>
    simp only [Adverts.step] at hstep
    split at hstep
    · rename_i i args version hr
      obtain ⟨c, hc, rfl⟩ := Option.map_eq_some_iff.mp hstep
      exact h.store r (h.current hr hc hsteady fun m v _ _ hsel => by cases hsel)
    · rename_i i request version selectors hr
      obtain ⟨c, hc, rfl⟩ := Option.map_eq_some_iff.mp hstep
      refine h.store r (h.current hr hc hsteady fun m v hv hm hsel => ?_)
      obtain ⟨m', hm', hselectors⟩ := h.requests r _ hr v hv
      have hsame := (versionManifest_eq h.ok.world.sound hm).symm.trans
        (versionManifest_eq h.ok.world.sound hm')
      exact Option.some.inj hsame ▸ hselectors hsel
    · cases hstep
  | drop key =>
    simp only [Adverts.step, Option.some.injEq] at hstep
    subst hstep
    refine ⟨h.ok, h.level, fun request version advert hget => ?_, h.served, h.requests⟩
    simp only [Function.update_apply] at hget
    split_ifs at hget
    exact h.cache request version advert hget

theorem coherent_created (access : Option RepoAccess) (now : Timestamp) (writer : String) :
    Coherent cfg env (created (createdManifest access now writer)) where
  ok := Cluster.ok_created cfg access now writer
  level := Cluster.level_created _
  cache := by simp [created]
  served := by simp [created]
  requests := by simp [created]

/-- Every advertisement in the cache and every one that was served is that of the manifest of
its version, with the refs of the log up to that manifest's head. -/
theorem adverts_coherent {access : Option RepoAccess} {now : Timestamp} {writer : String}
    {events : List AdvertEvent}
    (hsteady : Runs.AllSteps (Adverts.step cfg env) (fun s e => steady env s e = true)
      (created (createdManifest access now writer)) events)
    (hrun : Runs.run (Adverts.step cfg env) (created (createdManifest access now writer)) events =
      some s) :
    (∀ (request : AdvertRequest) version advert, s.cache (request.key version) = some advert →
      request.Current env s.cluster.world version advert) ∧
    ∀ a ∈ s.served, a.1.Current env s.cluster.world a.2.1 a.2.2 := by
  have h := Runs.invariant (I := Coherent cfg env) (fun _ _ _ h hok hstep => h.step hok hstep)
    hrun hsteady (coherent_created access now writer)
  exact ⟨h.cache, h.served⟩

end Adverts

namespace Adverts

section Runs

attribute [local instance] asciiTables

/-- A server that advertises branches. -/
def plainEnv : AdvertEnv := ⟨.sha1, "0", fun _ => none, fun _ => some ["refs/heads/*"]⟩

def runAdverts (events : List AdvertEvent) : Option Adverts :=
  Runs.run (Adverts.step ⟨3, List.length⟩ plainEnv) (created (createdManifest none ⟨1, 0⟩ "w")) events

instance (s : Adverts) (events : List AdvertEvent) : Decidable (Runs.AllSteps
    (Adverts.step ⟨3, List.length⟩ plainEnv) (fun s e => steady plainEnv s e = true) s events) :=
  Runs.AllSteps.decidable _ s events

def branches : AdvertRequest := .lsRefs ⟨["refs/heads/"], true, true, false⟩

/-- The second instance syncs and answers both kinds of request, and the first again. -/
def polite : List AdvertEvent :=
  (Cluster.firstPush ++ [Deed.sync 1 none]).map .deed ++
    [.key 1 1 branches, .lookup 1, .render 1, .key 2 1 (.infoRefs .uploadPack), .lookup 2,
      .configure 2, .render 2, .key 3 1 branches, .lookup 3]

/-- The second instance renders after another push has come in. -/
def late : List AdvertEvent :=
  [.deed (.openRepo 0 none), .deed (.openRepo 1 none), .key 1 1 branches, .lookup 1] ++
    (Cluster.publish 0 1 "a" [Cluster.updating "refs/heads/main" "" oidA]).map .deed ++
      [.deed (.sync 1 none), .render 1]


/-- The advertisement with one branch. -/
def oneBranch : Advert := .lsRefs [⟨"refs/heads/main", oidA, "", none⟩]

theorem adverts_coherent_polite :
    ∃ s, runAdverts polite = some s ∧ s.cache (branches.key (some 2)) = some oneBranch ∧
      s.served.length = 3 ∧ branches.Current plainEnv s.cluster.world (some 2) oneBranch := by
  have hrun : (runAdverts polite).map (fun s => (s.cache (branches.key (some 2)),
      s.served.length)) = some (some oneBranch, 3) := by decide +kernel
  obtain ⟨s, hs, heq⟩ := Option.map_eq_some_iff.mp hrun
  simp only [Prod.mk.injEq] at heq
  obtain ⟨hcache, -⟩ := adverts_coherent (by decide) hs
  exact ⟨s, hs, heq.1, heq.2, hcache branches (some 2) oneBranch heq.1⟩

/-- Refs of a later manifest are kept, and served, under the version of an earlier one. -/
theorem advert_stored_late :
    ∃ s, runAdverts late = some s ∧ s.cache (branches.key (some 0)) = some oneBranch ∧
      (branches, some 0, oneBranch) ∈ s.served ∧
      ¬branches.Current plainEnv s.cluster.world (some 0) oneBranch := by
  have hrun : (runAdverts late).map (fun s => (s.cache (branches.key (some 0)),
      decide ((branches, some 0, oneBranch) ∈ s.served),
      s.cluster.world.gens.all fun g => g.version ≠ 0 || branches.render plainEnv []
        (refsAt (committedEntries s.cluster.world.gens) g.manifest.headSeq) ≠ oneBranch)) =
      some (some oneBranch, true, true) := by decide
  obtain ⟨s, hs, heq⟩ := Option.map_eq_some_iff.mp hrun
  simp only [Prod.mk.injEq, decide_eq_true_eq] at heq
  refine ⟨s, hs, heq.1, heq.2.1, ?_⟩
  rintro ⟨v, m, hv, ⟨g, hg, rfl, rfl⟩, selectors, -, hrender⟩
  have hgen := List.all_eq_true.mp heq.2.2 g hg
  simp only [← Option.some.inj hv, ne_eq, not_true_eq_false, decide_false, Bool.false_or,
    decide_eq_true_eq] at hgen
  exact hgen hrender.symm

end Runs

end Adverts

end Walgit
