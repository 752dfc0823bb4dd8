import Walgit.ClusterInvariant

/-!
# Convergence

Whatever a copy had applied before, a sync that succeeds leaves the refs of the log up to the
head of the manifest it read: from a copy of any age, from an empty one and over a checkpoint.
-/
namespace Walgit

/-- The handle holds the manifest, and the copy is the fold of the log up to its head. -/
def Copy.AtHead (w : World) (m : Manifest) (c : Copy) : Prop :=
  c.handle.manifest = m ∧ c.disk.refs = refsAt (committedEntries w.gens) m.headSeq

section Copies

variable [Text.CharTables] {cfg : Config} {m : Manifest} {v : ℕ}

theorem Copy.Ok.atHead {w : World} {c : Copy} (hw : w.Sound cfg) (hc : c.Ok w)
    (hcur : w.current = some (m, v)) (hm : c.handle.manifest = m) : c.AtHead w m := by
  refine ⟨hm, ?_⟩
  rw [hc.exact hw hcur hm, refsAt, Replay.upTo_eq_self (Copy.entry_le_current hw hcur)]

end Copies

namespace Cluster

section Sync

variable [Text.CharTables] {cfg : Config} {s : Cluster} {m : Manifest} {v : ℕ}

/-- Every way to bring a copy to the newest manifest ends at the fold of the log, whatever the
copy was before; only a fault keeps a sync from getting there. -/
theorem sync_converges {access : Option RepoAccess} {now : Timestamp} {writer : String}
    {deeds : List Deed}
    (hsound : Sound cfg (created (createdManifest access now writer)) deeds)
    (hrun : Runs.run (Cluster.step cfg) (created (createdManifest access now writer)) deeds =
      some s)
    (hcur : s.world.current = some (m, v)) :
    (∀ i c fault, s.serves i = true → s.copy i = some c →
      let r := c.sync (s.world.readLog m) m v fault
      (r.2 = true → r.1.AtHead s.world m) ∧ (fault = none → r.2 = true)) ∧
    (∀ i c, s.serves i = true → s.copy i = some c →
      let r := c.rematerialize (s.world.readLog m) m v none
      r.2 = true ∧ r.1.AtHead s.world m) ∧
    ∀ site fault, s.registry site = none →
      let r := Copy.opened site ((s.disks site).getD .init) (s.world.readLog m) m v fault
      r.2 = true → r.1.AtHead s.world m := by
  have h := ok_run hsound hrun
  have hw := h.world.sound
  refine ⟨fun i c fault hserves hc => ?_, fun i c hserves hc => ?_, fun site fault hclosed hr => ?_⟩
  · obtain ⟨hok, -, hm, hdone⟩ := Copy.sync_spec hw (h.copyOk hserves hc) hcur fault
    exact ⟨fun hr => hok.atHead hw hcur (hm hr), hdone⟩
  · obtain ⟨hok, -, hdone, hm⟩ := Copy.rematerialize_spec hw (h.copyOk hserves hc) hcur
    exact ⟨hdone, hok.atHead hw hcur hm⟩
  · obtain ⟨hok, -, -, hm⟩ := Copy.opened_spec hw (h.diskOk hclosed) hcur site fault
    exact (hok hr).atHead hw hcur hm

end Sync

section Runs

attribute [local instance] Text.asciiTables

instance (cfg : Config) (s : Cluster) (deeds : List Deed) : Decidable (Sound cfg s deeds) :=
  inferInstanceAs (Decidable (Runs.AllSteps ..))

/-- A run of the whole system from a new repository. -/
def runNew (deeds : List Deed) : Option Cluster :=
  Runs.run (Cluster.step ⟨3, List.length⟩) (created (createdManifest none ⟨1, 0⟩ "w")) deeds

/-- A handle publishes one batch, and nothing fails. -/
def publish (i t : ℕ) (nonce : String) (reqs : List PublishRequest) : List Deed :=
  [.start i t (.batch reqs), .pin t, .capture t ⟨"", .empty⟩ "w" ⟨2, 0⟩ none,
    .store (.claim t nonce (fun _ => ⟨2, 0⟩) .delivered), .store (.swap t ⟨3, 0⟩ .delivered),
    .settle t none, .finish t fun _ => ⟨2, 0⟩]

def updating (name old new : String) : PublishRequest :=
  { txn := ⟨[⟨name, old, new, ""⟩], [], true⟩ }

/-- Two instances open the repository, and the first one publishes a branch. -/
def firstPush : List Deed :=
  [.openRepo 0 none, .openRepo 1 none] ++
    publish 0 1 "a" [updating "refs/heads/main" "" oidA] ++ [.view 0, .draft 0 0 none none none]

/-- It then commits a checkpoint and publishes two more updates. -/
def pushes : List Deed :=
  let checkpoint := ((runNew firstPush).bind fun s => s.drafts.head?).toList.flatMap fun d =>
    [.rewrite 0 (.checkpoint d.1 d.2) ⟨"", .empty⟩ "w" ⟨4, 0⟩ .delivered, .adopt 0 true]
  firstPush ++ checkpoint ++
    publish 0 2 "b" [updating "refs/heads/main" oidA oidB, updating "refs/heads/dev" "" oidB]

/-- The second instance has applied nothing and syncs over the checkpoint. -/
theorem sync_converges_pushes :
    ∃ s m v c, runNew pushes = some s ∧ s.world.current = some (m, v) ∧ s.copy 1 = some c ∧
      (c.handle.state.appliedSeq, m.checkpointSeq, m.headSeq) = (0, 1, 3) ∧
      (c.sync (s.world.readLog m) m v none).1.AtHead s.world m := by
  have hrun : ((runNew pushes).bind fun s => s.world.current.bind fun p => (s.copy 1).map fun c =>
      (s.serves 1, c.handle.state.appliedSeq, p.1.checkpointSeq, p.1.headSeq)) =
      some (true, 0, 1, 3) := by decide +kernel
  obtain ⟨s, hs, hrest⟩ := Option.bind_eq_some_iff.mp hrun
  obtain ⟨⟨m, v⟩, hcur, hrest⟩ := Option.bind_eq_some_iff.mp hrest
  obtain ⟨c, hc, heq⟩ := Option.map_eq_some_iff.mp hrest
  simp only [Prod.mk.injEq] at heq
  obtain ⟨hserves, hseqs⟩ := heq
  refine ⟨s, m, v, c, hs, hcur, hc, by simpa using hseqs, ?_⟩
  obtain ⟨hsync, -⟩ := sync_converges (by decide +kernel) hs hcur
  exact (hsync 1 c none hserves hc).1 ((hsync 1 c none hserves hc).2 rfl)

/-- A push to a branch and one to HEAD by its name. -/
def headPush : List Deed :=
  [.openRepo 0 none] ++ publish 0 1 "a" [updating "refs/heads/main" "" oidA] ++
    publish 0 2 "b" [updating "HEAD" oidA oidB]

/-- Git follows HEAD to its branch and the log does not: after a successful sync the copy is not
the fold of the log. -/
theorem sync_converges_head_push :
    ∃ s m v c, runNew headPush = some s ∧ s.world.current = some (m, v) ∧ s.serves 0 = true ∧
      s.copy 0 = some c ∧ (c.sync (s.world.readLog m) m v none).2 = true ∧
      (c.sync (s.world.readLog m) m v none).1.disk.refs.refs.find? "refs/heads/main" = some oidB ∧
      (refsAt (committedEntries s.world.gens) m.headSeq).refs.find? "refs/heads/main" =
        some oidA := by
  have hrun : ((runNew headPush).bind fun s => s.world.current.bind fun p => (s.copy 0).map fun c =>
      let r := c.sync (s.world.readLog p.1) p.1 p.2 none
      (s.serves 0, r.2, r.1.disk.refs.refs.find? "refs/heads/main",
        (refsAt (committedEntries s.world.gens) p.1.headSeq).refs.find? "refs/heads/main")) =
      some (true, true, some oidB, some oidA) := by decide +kernel
  obtain ⟨s, hs, hrest⟩ := Option.bind_eq_some_iff.mp hrun
  obtain ⟨⟨m, v⟩, hcur, hrest⟩ := Option.bind_eq_some_iff.mp hrest
  obtain ⟨c, hc, heq⟩ := Option.map_eq_some_iff.mp hrest
  simp only [Prod.mk.injEq] at heq
  exact ⟨s, m, v, c, hs, hcur, heq.1, hc, heq.2⟩

end Runs

end Cluster

end Walgit
