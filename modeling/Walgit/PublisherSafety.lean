import Walgit.PublisherSteps

/-!
# No committed segment is lost

The invariant of the publisher protocol. A delete on the wire names either a burned
sequence number, which lies in a gap of the committed log, or a slot whose owner saw
its swap refused; neither is ever a committed segment or one that can still commit.
-/
namespace Walgit

open ObjectStore (PutMode)

section Invariant

variable [Text.CharTables] (cfg : Config)

/-- The manifest and version of a basis were committed together. -/
def BasisOk (w : World) (a : Attempt) : Prop :=
  ∀ v, a.basis.version = some v → ∃ g ∈ w.gens, g.manifest = a.basis.manifest ∧ g.version = v

/-- The attempt's basis is still the current generation. -/
def Live (w : World) (a : Attempt) : Prop :=
  ∃ g, w.gens.head? = some g ∧ a.basis.version = some g.version

/-- What holds of a segment from the moment it is written. -/
structure ClaimOk (w : World) (o : Origin) : Prop where
  version : o.slot.version < w.store.next
  nonce : o.slot.nonce ∈ w.nonces
  wrote : o.Wrote
  burned : BurnedTo o.attempt.basis.manifest.headSeq o.slot.firstSeq o.slot.burned
  swept : ∀ b ∈ o.slot.burned, b.2 < w.store.next
  basis : BasisOk w o.attempt
  owner : (w.tasks o.slot.task).isSome

/-- The claim was committed by some manifest write. -/
def Committed (w : World) (o : Origin) : Prop := ∃ g ∈ w.gens, g.origin = some o

/-- A swap of this claim may still reach the store. -/
def Pending (w : World) (o : Origin) : Prop :=
  (∃ task, w.tasks o.slot.task = some task ∧ task.job = o.job ∧
    task.phase = .swapping o.attempt o.slot) ∨
  ∃ mode m, Request.swap mode m (some o) ∈ w.wire

/-- Nothing of this task is committed or on its way to be. -/
def Idle (w : World) (t : ℕ) : Prop :=
  (∀ o, Committed w o → o.slot.task ≠ t) ∧
  ∀ mode m o, Request.swap mode m (some o) ∈ w.wire → o.slot.task ≠ t

/-- A claim loop at `seq` with the sequence numbers burned so far. -/
structure ClaimingOk (w : World) (t : ℕ) (job : Job) (a : Attempt) (seq : ℕ)
    (burned : List (ℕ × ℕ)) : Prop where
  idle : Idle w t
  basis : BasisOk w a
  writes : ∃ clock n e es, job.entries a clock n = .ok (e :: es)
  swept : ∀ b ∈ burned, b.2 < w.store.next
  range : BurnedTo a.basis.manifest.headSeq seq burned

/-- The task has not sent a manifest swap yet. -/
def Phase.early : Phase → Bool
  | .ready | .claiming .. | .probing .. | .heading .. | .swapping .. => true
  | _ => false

def TaskOk (w : World) (t : ℕ) (task : Task) : Prop :=
  match task.phase with
  | .ready => Idle w t
  | .claiming a seq burned => ClaimingOk w t task.job a seq burned
  | .probing a seq burned _ => ClaimingOk w t task.job a seq burned
  | .heading a seq burned _ => ClaimingOk w t task.job a seq burned
  | .swapping a σ => Idle w t ∧ ⟨task.job, a, σ⟩ ∈ w.claims ∧ σ.task = t
  | .rereading a σ _ => ⟨task.job, a, σ⟩ ∈ w.claims
  | .confirming a σ m _ _ =>
    ⟨task.job, a, σ⟩ ∈ w.claims ∧ σ.listedIn cfg m ∧ ∃ g ∈ w.gens, g.manifest = m
  | .committed a σ _ _ => Committed w ⟨task.job, a, σ⟩
  | .done _ => True
  | .crashed => True

/-- A delete that can do no harm. -/
structure DeleteOk (w : World) (seq version : ℕ) : Prop where
  old : version < w.store.next
  committed : ∀ o, Committed w o → o.slot.firstSeq = seq → o.slot.version ≠ version
  pending : ∀ o, Pending w o → Live w o.attempt → o.slot.firstSeq = seq → o.slot.version ≠ version

/-- A metadata write computed from a committed basis. -/
def RewriteOk (w : World) (mode : PutMode) (m : Manifest) : Prop :=
  ∃ (job : MetaJob) (policy : PackPolicy) (writer : String) (now : Timestamp) (g : Generation),
    g ∈ w.gens ∧ mode = .update g.version ∧ job.manifest g.manifest policy writer now = some m ∧
    ∀ view cp, job = .checkpoint view cp →
      cp.seq = view.headSeq ∧ ∃ g' ∈ w.gens, g'.manifest = view

/-- A swap computed from a claim. -/
def SwapOk (w : World) (mode : PutMode) (m : Manifest) (o : Origin) : Prop :=
  o ∈ w.claims ∧ mode = o.attempt.basis.putMode ∧
    ∃ now, o.job.manifest o.attempt now (o.slot.ref cfg) = .ok m

def RequestOk (w : World) : Request → Prop
  | .create _ _ => True
  | .delete seq version => DeleteOk w seq version
  | .swap mode m none => RewriteOk w mode m
  | .swap mode m (some o) => SwapOk cfg w mode m o

structure Inv (w : World) : Prop where
  bounded : w.store.Bounded
  chain : Chain cfg w.gens
  current : ∃ g gs, w.gens = g :: gs ∧
    w.store.objects .manifest = some (g.version, .manifest g.manifest)
  versions : ∀ g ∈ w.gens, g.version < w.store.next
  /-- Two claims never share a nonce or a version. -/
  distinct : w.claims.Pairwise fun o p =>
    o.slot.nonce ≠ p.slot.nonce ∧ o.slot.version ≠ p.slot.version
  claims : ∀ o ∈ w.claims, ClaimOk w o
  claimed : ∀ o, Committed w o → o ∈ w.claims
  stored : ∀ o, Committed w o →
    w.store.objects (.log o.slot.firstSeq) = some (o.slot.version, .segment o.slot.bytes)
  intact : ∀ o, Pending w o → Live w o.attempt →
    w.store.objects (.log o.slot.firstSeq) = some (o.slot.version, .segment o.slot.bytes)
  tasks : ∀ t task, w.tasks t = some task → TaskOk cfg w t task
  wire : ∀ r ∈ w.wire, RequestOk cfg w r

end Invariant

section Monotone

/-- What only ever grows: tasks, generations, claims, nonces and versions. -/
structure Extends (w w' : World) : Prop where
  tasks : ∀ t, (w.tasks t).isSome → (w'.tasks t).isSome
  gens : ∀ g ∈ w.gens, g ∈ w'.gens
  claims : ∀ o ∈ w.claims, o ∈ w'.claims
  nonces : ∀ n ∈ w.nonces, n ∈ w'.nonces
  next : w.store.next ≤ w'.store.next

variable {w w' : World}

theorem Committed.mono (h : Extends w w') {o : Origin} (hc : Committed w o) : Committed w' o := by
  obtain ⟨g, hg, ho⟩ := hc
  exact ⟨g, h.gens g hg, ho⟩

theorem BasisOk.mono (h : Extends w w') {a : Attempt} (hb : BasisOk w a) : BasisOk w' a := by
  intro v hv
  obtain ⟨g, hg, heq⟩ := hb v hv
  exact ⟨g, h.gens g hg, heq⟩

theorem RewriteOk.mono (h : Extends w w') {mode : PutMode} {m : Manifest}
    (hs : RewriteOk w mode m) : RewriteOk w' mode m := by
  obtain ⟨job, policy, writer, now, g, hg, hmode, hedit, hfold⟩ := hs
  refine ⟨job, policy, writer, now, g, h.gens g hg, hmode, hedit, fun view cp hjob => ?_⟩
  obtain ⟨hseq, g', hg', hview⟩ := hfold view cp hjob
  exact ⟨hseq, g', h.gens g' hg', hview⟩

variable [Text.CharTables] {cfg : Config}

theorem ClaimOk.mono (h : Extends w w') {o : Origin} (hc : ClaimOk w o) : ClaimOk w' o where
  version := hc.version.trans_le h.next
  nonce := h.nonces _ hc.nonce
  wrote := hc.wrote
  burned := hc.burned
  swept := fun b hb => (hc.swept b hb).trans_le h.next
  basis := hc.basis.mono h
  owner := h.tasks _ hc.owner

theorem ClaimingOk.mono (h : Extends w w') {t : ℕ} {job : Job} {a : Attempt} {seq : ℕ}
    {burned : List (ℕ × ℕ)} (hidle : Idle w' t) (hc : ClaimingOk w t job a seq burned) :
    ClaimingOk w' t job a seq burned where
  idle := hidle
  basis := hc.basis.mono h
  writes := hc.writes
  swept := fun b hb => (hc.swept b hb).trans_le h.next
  range := hc.range

theorem TaskOk.mono (h : Extends w w') {t : ℕ} {task : Task}
    (hidle : task.phase.early → Idle w t → Idle w' t) (hc : TaskOk cfg w t task) :
    TaskOk cfg w' t task := by
  obtain ⟨job, attempts, phase⟩ := task
  cases phase with
  | ready => exact hidle rfl hc
  | claiming a seq burned => exact ClaimingOk.mono h (hidle rfl (ClaimingOk.idle hc)) hc
  | probing a seq burned probes => exact ClaimingOk.mono h (hidle rfl (ClaimingOk.idle hc)) hc
  | heading a seq burned probes => exact ClaimingOk.mono h (hidle rfl (ClaimingOk.idle hc)) hc
  | swapping a σ => exact ⟨hidle rfl hc.1, h.claims _ hc.2.1, hc.2.2⟩
  | rereading a σ message => exact h.claims _ hc
  | confirming a σ m version message =>
    obtain ⟨hclaim, hlisted, g, hg, hm⟩ := hc
    exact ⟨h.claims _ hclaim, hlisted, g, h.gens g hg, hm⟩
  | committed a σ m version => exact Committed.mono h hc
  | done answers => trivial
  | crashed => trivial

theorem SwapOk.mono (h : Extends w w') {mode : PutMode} {m : Manifest} {o : Origin}
    (hs : SwapOk cfg w mode m o) : SwapOk cfg w' mode m o :=
  ⟨h.claims o hs.1, hs.2⟩

end Monotone

section Local

variable {w w' : World}

/-- A step that leaves the store and the record alone, moves one task and sends requests. -/
structure LocalStep (w w' : World) (t : ℕ) (task : Task) (rs : List Request) : Prop where
  store : w'.store = w.store
  gens : w'.gens = w.gens
  claims : w'.claims = w.claims
  nonces : ∀ n ∈ w.nonces, n ∈ w'.nonces
  tasks : w'.tasks = Function.update w.tasks t (some task)
  wire : w'.wire = w.wire ++ rs
  leaves : ∀ a σ, task.phase ≠ .swapping a σ
  swaps : ∀ mode m o, Request.swap mode m (some o) ∈ rs → Pending w o ∧ o.slot.task = t

namespace LocalStep

variable {t : ℕ} {task : Task} {rs : List Request}

theorem extends' (h : LocalStep w w' t task rs) : Extends w w' where
  tasks := fun t' ht' => by
    rw [h.tasks, Function.update_apply]
    split_ifs
    · rfl
    · exact ht'
  gens := fun g hg => h.gens ▸ hg
  claims := fun o ho => h.claims ▸ ho
  nonces := h.nonces
  next := by rw [h.store]

theorem committed_iff (h : LocalStep w w' t task rs) {o : Origin} :
    Committed w' o ↔ Committed w o := by
  simp only [Committed, h.gens]

theorem live_iff (h : LocalStep w w' t task rs) {a : Attempt} : Live w' a ↔ Live w a := by
  simp only [Live, h.gens]

theorem pending (h : LocalStep w w' t task rs) {o : Origin} (hp : Pending w' o) : Pending w o := by
  rcases hp with ⟨task', htask, hjob, hphase⟩ | ⟨mode, m, hmem⟩
  · rw [h.tasks, Function.update_apply] at htask
    split_ifs at htask with ht
    · cases htask
      exact absurd hphase (h.leaves _ _)
    · exact Or.inl ⟨task', htask, hjob, hphase⟩
  · rw [h.wire, List.mem_append] at hmem
    rcases hmem with hmem | hmem
    · exact Or.inr ⟨mode, m, hmem⟩
    · exact (h.swaps mode m o hmem).1

theorem idle (h : LocalStep w w' t task rs) {t' : ℕ} (hne : t' ≠ t) (hi : Idle w t') :
    Idle w' t' := by
  refine ⟨fun o ho => hi.1 o (h.committed_iff.mp ho), fun mode m o hmem => ?_⟩
  rw [h.wire, List.mem_append] at hmem
  rcases hmem with hmem | hmem
  · exact hi.2 mode m o hmem
  · rw [(h.swaps mode m o hmem).2]
    exact hne.symm

/-- A task that sends no swap stays idle. -/
theorem idle_self (h : LocalStep w w' t task rs) (hi : Idle w t)
    (hno : ∀ mode m o, Request.swap mode m (some o) ∉ rs) : Idle w' t := by
  refine ⟨fun o ho => hi.1 o (h.committed_iff.mp ho), fun mode m o hmem => ?_⟩
  rw [h.wire, List.mem_append] at hmem
  exact hi.2 mode m o (hmem.resolve_right (hno mode m o))

theorem deleteOk (h : LocalStep w w' t task rs) {seq version : ℕ} (hd : DeleteOk w seq version) :
    DeleteOk w' seq version where
  old := by
    rw [h.store]
    exact hd.old
  committed := fun o ho => hd.committed o (h.committed_iff.mp ho)
  pending := fun o ho hl => hd.pending o (h.pending ho) (h.live_iff.mp hl)

variable [Text.CharTables] {cfg : Config}

theorem requestOk (h : LocalStep w w' t task rs) {r : Request} (hr : RequestOk cfg w r) :
    RequestOk cfg w' r := by
  match r, hr with
  | .create .., _ => trivial
  | .delete .., hr => exact h.deleteOk hr
  | .swap _ _ none, hr => exact hr.mono h.extends'
  | .swap _ _ (some _), hr => exact hr.mono h.extends'

/-- The invariant survives a local step whose task and requests are in order. -/
theorem inv (h : LocalStep w w' t task rs) (hinv : Inv cfg w) (htask : TaskOk cfg w' t task)
    (hrs : ∀ r ∈ rs, RequestOk cfg w' r) : Inv cfg w' where
  bounded := by
    rw [h.store]
    exact hinv.bounded
  chain := by
    rw [h.gens]
    exact hinv.chain
  current := by
    rw [h.gens, h.store]
    exact hinv.current
  versions := by
    rw [h.gens, h.store]
    exact hinv.versions
  distinct := by
    rw [h.claims]
    exact hinv.distinct
  claims := by
    rw [h.claims]
    exact fun o ho => (hinv.claims o ho).mono h.extends'
  claimed := by
    rw [h.claims]
    exact fun o ho => hinv.claimed o (h.committed_iff.mp ho)
  stored := by
    rw [h.store]
    exact fun o ho => hinv.stored o (h.committed_iff.mp ho)
  intact := by
    rw [h.store]
    exact fun o ho hl => hinv.intact o (h.pending ho) (h.live_iff.mp hl)
  tasks := by
    intro t' task' ht'
    rw [h.tasks, Function.update_apply] at ht'
    split_ifs at ht' with heq
    · cases ht'
      exact heq ▸ htask
    · exact (hinv.tasks t' task' ht').mono h.extends' fun _ => h.idle heq
  wire := by
    intro r hr
    rw [h.wire, List.mem_append] at hr
    rcases hr with hr | hr
    · exact h.requestOk (hinv.wire r hr)
    · exact hrs r hr

end LocalStep

end Local

section Store

variable [Text.CharTables] {cfg : Config} {w : World}

/-- Requests may be dropped from the wire. -/
theorem Inv.subWire (h : Inv cfg w) {ws : List Request} (hsub : ∀ r ∈ ws, r ∈ w.wire) :
    Inv cfg { w with wire := ws } := by
  have hpending : ∀ o, Pending { w with wire := ws } o → Pending w o := by
    rintro o (htask | ⟨mode, m, hmem⟩)
    · exact Or.inl htask
    · exact Or.inr ⟨mode, m, hsub _ hmem⟩
  have hext : Extends w { w with wire := ws } :=
    ⟨fun _ ht => ht, fun _ hg => hg, fun _ ho => ho, fun _ hn => hn, le_rfl⟩
  refine ⟨h.bounded, h.chain, h.current, h.versions, h.distinct, ?_, h.claimed, h.stored, ?_, ?_, ?_⟩
  · exact fun o ho => (h.claims o ho).mono hext
  · exact fun o ho hl => h.intact o (hpending o ho) hl
  · refine fun t task ht => (h.tasks t task ht).mono hext fun _ hi => ⟨hi.1, fun mode m o hm => ?_⟩
    exact hi.2 mode m o (hsub _ hm)
  · intro r hr
    match r, h.wire r (hsub r hr) with
    | .create .., _ => trivial
    | .delete .., hd => exact ⟨hd.old, hd.committed, fun o ho => hd.pending o (hpending o ho)⟩
    | .swap _ _ none, hs => exact hs.mono hext
    | .swap _ _ (some _), hs => exact hs.mono hext

/-- The store may change as long as the manifest and every committed or live segment stay. -/
theorem Inv.setStore (h : Inv cfg w) {store : ObjectStore Key Body} (hbounded : store.Bounded)
    (hnext : w.store.next ≤ store.next)
    (hmanifest : store.objects .manifest = w.store.objects .manifest)
    (hkept : ∀ o, Committed w o ∨ Pending w o ∧ Live w o.attempt →
      store.objects (.log o.slot.firstSeq) = some (o.slot.version, .segment o.slot.bytes)) :
    Inv cfg { w with store := store } := by
  have hext : Extends w { w with store := store } :=
    ⟨fun _ ht => ht, fun _ hg => hg, fun _ ho => ho, fun _ hn => hn, hnext⟩
  refine ⟨hbounded, h.chain, ?_, ?_, h.distinct, ?_, h.claimed, ?_, ?_, ?_, ?_⟩
  · obtain ⟨g, gs, hgens, hobj⟩ := h.current
    exact ⟨g, gs, hgens, hmanifest.trans hobj⟩
  · exact fun g hg => (h.versions g hg).trans_le hnext
  · exact fun o ho => (h.claims o ho).mono hext
  · exact fun o ho => hkept o (Or.inl ho)
  · exact fun o ho hl => hkept o (Or.inr ⟨ho, hl⟩)
  · exact fun t task ht => (h.tasks t task ht).mono hext fun _ => id
  · intro r hr
    match r, h.wire r hr with
    | .create .., _ => trivial
    | .delete .., hd => exact ⟨hd.old.trans_le hnext, hd.committed, hd.pending⟩
    | .swap _ _ none, hs => exact hs.mono hext
    | .swap _ _ (some _), hs => exact hs.mono hext

theorem Inv.object (h : Inv cfg w) {o : Origin}
    (ho : Committed w o ∨ Pending w o ∧ Live w o.attempt) :
    w.store.objects (.log o.slot.firstSeq) = some (o.slot.version, .segment o.slot.bytes) := by
  rcases ho with ho | ⟨ho, hl⟩
  · exact h.stored o ho
  · exact h.intact o ho hl

/-- A create never lands on a segment that matters: it only fills empty keys. -/
theorem Inv.createObject (h : Inv cfg w) {seq : ℕ} {body : Body}
    (habsent : w.store.objects (.log seq) = none) :
    Inv cfg { w with store := w.store.write (.log seq) body } := by
  refine h.setStore (h.bounded.write _ _) (Nat.le_succ _) ?_ fun o ho => ?_
  · simp [ObjectStore.write_objects]
  · have hobj := h.object ho
    have hne : Key.log o.slot.firstSeq ≠ .log seq := by
      intro heq
      rw [heq, habsent] at hobj
      cases hobj
    rw [ObjectStore.write_objects, if_neg hne]
    exact hobj

/-- A harmless delete keeps the invariant. -/
theorem Inv.deleteObject (h : Inv cfg w) {seq version : ℕ} (hd : DeleteOk w seq version) :
    Inv cfg { w with store := w.store.delete (.log seq) version } := by
  refine h.setStore (h.bounded.delete _ _) (by simp) ?_ fun o ho => ?_
  · obtain ⟨g, gs, -, hobj⟩ := h.current
    rw [hobj]
    exact ObjectStore.delete_objects_of_ne hobj (by simp)
  · refine ObjectStore.delete_objects_of_ne (h.object ho) fun heq => ?_
    have hseq : o.slot.firstSeq = seq := by simpa using heq
    rcases ho with ho | ⟨ho, hl⟩
    · exact hd.committed o ho hseq
    · exact hd.pending o ho hl hseq

/-- The written segment becomes a claim of its task. -/
theorem Inv.register (h : Inv cfg w) {t : ℕ} {task : Task} {o : Origin}
    (hidle : Idle w t) (howner : o.slot.task = t) (hjob : task.job = o.job)
    (hphase : task.phase = .swapping o.attempt o.slot) (hnonce : o.slot.nonce ∉ w.nonces)
    (hversion : ∀ p ∈ w.claims, p.slot.version < o.slot.version)
    (hdeletes : ∀ seq v, Request.delete seq v ∈ w.wire → v < o.slot.version)
    (hok : ClaimOk { w with nonces := o.slot.nonce :: w.nonces } o)
    (hobj : w.store.objects (.log o.slot.firstSeq) =
      some (o.slot.version, .segment o.slot.bytes)) :
    Inv cfg ({ w with nonces := o.slot.nonce :: w.nonces, claims := o :: w.claims }.setTask
      t task) := by
  set w' := { w with nonces := o.slot.nonce :: w.nonces, claims := o :: w.claims }.setTask t task
    with hw'
  have htasks : ∀ t', w'.tasks t' = if t' = t then some task else w.tasks t' := fun t' => by
    simp [hw', World.setTask, Function.update_apply]
  have hext : Extends w w' := by
    refine ⟨fun t' ht' => ?_, fun _ hg => hg, fun _ ho => List.mem_cons_of_mem _ ho,
      fun _ hn => List.mem_cons_of_mem _ hn, le_rfl⟩
    rw [htasks]
    split_ifs
    · rfl
    · exact ht'
  have hpending : ∀ p, Pending w' p → p = o ∨ Pending w p := by
    rintro p (⟨task', ht', hj', hp'⟩ | hwire)
    · rw [htasks] at ht'
      split_ifs at ht' with heq
      · cases ht'
        rw [hphase] at hp'
        simp only [Phase.swapping.injEq] at hp'
        exact Or.inl (by cases p; cases o; simp_all)
      · exact Or.inr (Or.inl ⟨task', ht', hj', hp'⟩)
    · exact Or.inr (Or.inr hwire)
  refine ⟨h.bounded, h.chain, h.current, h.versions, ?_, ?_, ?_, h.stored, ?_, ?_, ?_⟩
  · refine List.pairwise_cons.mpr ⟨fun p hp => ⟨?_, (hversion p hp).ne'⟩, h.distinct⟩
    intro heq
    exact hnonce (heq ▸ (h.claims p hp).nonce)
  · intro p hp
    rcases List.mem_cons.mp hp with rfl | hp
    · refine ⟨hok.version, hok.nonce, hok.wrote, hok.burned, hok.swept, hok.basis, ?_⟩
      rw [htasks, if_pos howner]
      rfl
    · exact (h.claims p hp).mono hext
  · exact fun p hp => List.mem_cons_of_mem _ (h.claimed p hp)
  · intro p hp hl
    rcases hpending p hp with rfl | hp
    · exact hobj
    · exact h.intact p hp hl
  · intro t' task' ht'
    rw [htasks] at ht'
    split_ifs at ht' with heq
    · cases ht'
      subst heq
      unfold TaskOk
      rw [hphase, hjob]
      exact ⟨hidle, List.mem_cons_self, howner⟩
    · exact (h.tasks t' task' ht').mono hext fun _ => id
  · intro r hr
    match r, h.wire r hr with
    | .create .., _ => trivial
    | .delete seq v, hd =>
      refine ⟨hd.old, hd.committed, fun p hp hl hseq => ?_⟩
      rcases hpending p hp with rfl | hp
      · exact (hdeletes seq v hr).ne'
      · exact hd.pending p hp hl hseq
    | .swap _ _ none, hs => exact hs.mono hext
    | .swap _ _ (some _), hs => exact hs.mono hext

/-- A new generation: nobody's basis is current any more, and the record grows by one. -/
theorem Inv.commit (h : Inv cfg w) {m : Manifest} {origin : Option Origin}
    (hchain : Chain cfg (⟨m, w.store.next, origin⟩ :: w.gens))
    (horigin : ∀ o, origin = some o → o ∈ w.claims ∧
      w.store.objects (.log o.slot.firstSeq) = some (o.slot.version, .segment o.slot.bytes) ∧
      (∀ seq v, Request.delete seq v ∈ w.wire → o.slot.firstSeq = seq → o.slot.version ≠ v) ∧
      ∀ t task, w.tasks t = some task → task.phase.early → o.slot.task ≠ t) :
    Inv cfg (w.commit m origin) := by
  have hext : Extends w (w.commit m origin) :=
    ⟨fun _ ht => ht, fun _ hg => List.mem_cons_of_mem _ hg, fun _ ho => ho, fun _ hn => hn,
      Nat.le_succ _⟩
  have hcommitted : ∀ o, Committed (w.commit m origin) o → origin = some o ∨ Committed w o := by
    rintro o ⟨g, hg, ho⟩
    rcases List.mem_cons.mp hg with rfl | hg
    · exact Or.inl ho
    · exact Or.inr ⟨g, hg, ho⟩
  have hdead : ∀ o, Pending w o → ¬ Live (w.commit m origin) o.attempt := by
    rintro o hp ⟨g, hhead, hv⟩
    have hg : g.version = w.store.next := by
      simp only [World.commit, List.head?_cons, Option.some.injEq] at hhead
      exact hhead ▸ rfl
    have hclaim : o ∈ w.claims := by
      rcases hp with ⟨task, ht, hjob, hphase⟩ | ⟨mode, m', hmem⟩
      · have hok := h.tasks _ _ ht
        unfold TaskOk at hok
        rw [hphase, hjob] at hok
        exact hok.2.1
      · exact (h.wire _ hmem).1
    obtain ⟨g', hg', -, hv'⟩ := (h.claims o hclaim).basis g.version hv
    have := h.versions g' hg'
    omega
  have hobjects : ∀ seq, (w.commit m origin).store.objects (.log seq) =
      w.store.objects (.log seq) := fun seq => by
    simp [World.commit, ObjectStore.write_objects]
  refine ⟨h.bounded.write _ _, hchain, ⟨_, w.gens, rfl, ?_⟩, ?_, h.distinct, ?_, ?_, ?_, ?_, ?_, ?_⟩
  · simp [World.commit, ObjectStore.write_objects]
  · intro g hg
    rcases List.mem_cons.mp hg with rfl | hg
    · exact Nat.lt_succ_self _
    · exact (h.versions g hg).trans (Nat.lt_succ_self _)
  · exact fun o ho => (h.claims o ho).mono hext
  · intro o ho
    rcases hcommitted o ho with ho | ho
    · exact (horigin o ho).1
    · exact h.claimed o ho
  · intro o ho
    rw [hobjects]
    rcases hcommitted o ho with ho | ho
    · exact (horigin o ho).2.1
    · exact h.stored o ho
  · exact fun o ho hl => absurd hl (hdead o ho)
  · intro t task ht
    refine (h.tasks t task ht).mono hext fun he hi => ⟨fun o ho => ?_, hi.2⟩
    rcases hcommitted o ho with ho | ho
    · exact (horigin o ho).2.2.2 t task ht he
    · exact hi.1 o ho
  · intro r hr
    match r, h.wire r hr with
    | .create .., _ => trivial
    | .delete seq v, hd =>
      refine ⟨hd.old.trans (Nat.lt_succ_self _), fun o ho hseq => ?_,
        fun o ho hl => absurd hl (hdead o ho)⟩
      rcases hcommitted o ho with ho | ho
      · exact (horigin o ho).2.2.1 seq v hr hseq
      · exact hd.committed o ho hseq
    | .swap _ _ none, hs => exact hs.mono hext
    | .swap _ _ (some _), hs => exact hs.mono hext

end Store

section Facts

variable [Text.CharTables] {cfg : Config} {w w' : World}

/-- Claims are told apart by their version and by their nonce. -/
theorem Inv.claim_eq (h : Inv cfg w) {o p : Origin} (ho : o ∈ w.claims) (hp : p ∈ w.claims)
    (heq : o.slot.version = p.slot.version ∨ o.slot.nonce = p.slot.nonce) : o = p := by
  have hdist : w.claims.Pairwise fun o p =>
      (o.slot.version = p.slot.version ∨ o.slot.nonce = p.slot.nonce) → o = p :=
    h.distinct.imp fun hop heq => absurd heq (by simp [hop.1, hop.2])
  refine List.Pairwise.forall_of_forall_of_flip (fun _ _ _ => rfl) hdist ?_ ho hp heq
  exact hdist.imp fun hop heq => (hop (heq.imp Eq.symm Eq.symm)).symm

theorem Inv.pending_claimed (h : Inv cfg w) {o : Origin} (ho : Pending w o) : o ∈ w.claims := by
  rcases ho with ⟨task, ht, hjob, hphase⟩ | ⟨mode, m, hmem⟩
  · have hok := h.tasks _ _ ht
    unfold TaskOk at hok
    rw [hphase, hjob] at hok
    exact hok.2.1
  · exact (h.wire _ hmem).1

/-- A live basis is the current manifest. -/
theorem Inv.live_basis (h : Inv cfg w) {o : Origin} (ho : o ∈ w.claims)
    (hl : Live w o.attempt) :
    ∃ g gs, w.gens = g :: gs ∧ o.attempt.basis.manifest = g.manifest := by
  obtain ⟨g, gs, hgens, -⟩ := h.current
  obtain ⟨g', hhead, hv⟩ := hl
  have hgg : g = g' := by simpa [hgens] using hhead
  subst hgg
  obtain ⟨g'', hmem, hm, hv'⟩ := (h.claims o ho).basis _ hv
  have heq := h.chain.eq_of_version hmem (hgens ▸ List.mem_cons_self) hv'
  exact ⟨g, gs, hgens, by rw [← hm, heq]⟩

/-- The store accepts a swap only if its basis is live. -/
theorem Inv.accepts_live (h : Inv cfg w) {a : Attempt}
    (hacc : w.store.accepts .manifest a.basis.putMode) : Live w a := by
  obtain ⟨g, gs, hgens, hobj⟩ := h.current
  refine ⟨g, by rw [hgens]; rfl, ?_⟩
  unfold Basis.putMode at hacc
  cases hv : a.basis.version with
  | none => simp [hv, ObjectStore.accepts, hobj] at hacc
  | some v =>
    simp only [hv, ObjectStore.accepts, ObjectStore.version, hobj, Option.map_some, beq_iff_eq,
      Option.some.injEq] at hacc
    rw [hacc]

/-- A live pending claim that the store accepts extends the chain. -/
theorem Inv.commitSlot (h : Inv cfg w) {o : Origin} {m : Manifest} {now : Timestamp}
    (hclaim : o ∈ w.claims) (hedit : o.job.manifest o.attempt now (o.slot.ref cfg) = .ok m)
    (hlive : Live w o.attempt)
    (hobj : w.store.objects (.log o.slot.firstSeq) =
      some (o.slot.version, .segment o.slot.bytes))
    (hdel : ∀ seq v, Request.delete seq v ∈ w.wire → o.slot.firstSeq = seq → o.slot.version ≠ v)
    (htasks : ∀ t task, w.tasks t = some task → task.phase.early → o.slot.task ≠ t) :
    Inv cfg (w.commit m (some o)) := by
  obtain ⟨g, gs, hgens, hbasis⟩ := h.live_basis hclaim hlive
  have hok := h.claims o hclaim
  have hchain := h.chain
  rw [hgens] at hchain
  refine h.commit ?_ ?_
  · rw [hgens]
    exact hchain.append o now m _ hbasis hok.wrote (hbasis ▸ hok.burned) hedit
      (h.versions g (hgens ▸ List.mem_cons_self))
  · intro p hp
    cases hp
    exact ⟨hclaim, hobj, hdel, htasks⟩

/-- A metadata write that the store accepts extends the chain. -/
theorem Inv.commitRewrite (h : Inv cfg w) {mode : PutMode} {m : Manifest}
    (hok : RewriteOk w mode m) (hacc : w.store.accepts .manifest mode) :
    Inv cfg (w.commit m none) := by
  obtain ⟨job, policy, writer, now, g', hg', rfl, hedit, hfold⟩ := hok
  obtain ⟨g, gs, hgens, hobj⟩ := h.current
  have hv : g.version = g'.version := by
    simpa [ObjectStore.accepts, ObjectStore.version, hobj] using hacc
  have hgg : g = g' := h.chain.eq_of_version (hgens ▸ List.mem_cons_self) hg' hv
  subst hgg
  have hchain := h.chain
  rw [hgens] at hchain
  refine h.commit ?_ (by simp)
  rw [hgens] at hfold ⊢
  exact hchain.rewrite job policy writer now m _ hedit hfold
    (h.versions g (hgens ▸ List.mem_cons_self))

/-- A task that left its swap behind may take its own segment back. -/
theorem Inv.deleteOwn (h : Inv cfg w) {t : ℕ} {task : Task} {rs : List Request} {o : Origin}
    (hstep : LocalStep w w' t task rs) (hidle : Idle w' t) (hclaim : o ∈ w.claims)
    (howner : o.slot.task = t) : DeleteOk w' o.slot.firstSeq o.slot.version := by
  have hother : ∀ p : Origin, p ∈ w.claims → p.slot.task ≠ t → p.slot.version ≠ o.slot.version := by
    intro p hp hne heq
    exact hne (h.claim_eq hp hclaim (Or.inl heq) ▸ howner)
  refine ⟨?_, fun p hp _ => ?_, fun p hp _ _ => ?_⟩
  · rw [hstep.store]
    exact (h.claims o hclaim).version
  · exact hother p (h.claimed p (hstep.committed_iff.mp hp)) (hidle.1 p hp)
  · refine hother p (h.pending_claimed (hstep.pending hp)) ?_
    rcases hp with ⟨task', ht', -, hphase⟩ | ⟨mode, m, hmem⟩
    · intro heq
      rw [hstep.tasks, heq, Function.update_self] at ht'
      cases ht'
      exact hstep.leaves _ _ hphase
    · exact hidle.2 mode m p hmem

/-- After a commit the burned sequence numbers may be swept. -/
theorem Inv.deleteBurned (h : Inv cfg w) {t : ℕ} {task : Task} {rs : List Request} {o : Origin}
    (hstep : LocalStep w w' t task rs) (hcommitted : Committed w o) {b : ℕ × ℕ}
    (hb : b ∈ o.slot.burned) : DeleteOk w' b.1 b.2 := by
  obtain ⟨g, hg, ho⟩ := hcommitted
  have hclaim := h.claimed o ⟨g, hg, ho⟩
  refine ⟨?_, fun p hp heq => ?_, fun p hp hl heq => ?_⟩
  · rw [hstep.store]
    exact (h.claims o hclaim).swept b hb
  · obtain ⟨g', hg', hp'⟩ := hstep.committed_iff.mp hp
    exact absurd heq (h.chain.burned_free hg hg' ho hp' hb)
  · have hpclaim := h.pending_claimed (hstep.pending hp)
    obtain ⟨g', gs, hgens, hbasis⟩ := h.live_basis hpclaim (hstep.live_iff.mp hl)
    have hchain := h.chain
    rw [hgens] at hchain
    have hbelow := hchain.lastSeq_le (hgens ▸ hg) ho
    have hburned := h.chain.burned_lt hg ho hb
    have habove := (h.claims p hpclaim).burned.1
    rw [hbasis] at habove
    omega

end Facts

end Walgit
