import Walgit.Readiness

/-!
# Honest readiness

The record of a copy names a revision; what that manifest lists is served. Syncs, writes and
finished passes keep this. It breaks when a pass stops serving a pack remotely before it has the
pack, when it removes a pack that was listed again since it captured its manifest, and when a
checkpoint is settled on a state it was not based on.
-/
namespace Walgit

namespace Readiness

namespace State

/-- Every pack a manifest lists is served. -/
def Covers (s : State) (m : Manifest) : Prop := ∀ p ∈ m.packs, s.Served p

structure WriteOk (chain : List Manifest) (installed : List String) (w : Write) : Prop where
  basis : w.basis ∈ chain
  result : w.result ∈ chain
  next : w.result.revision = w.basis.revision + 1
  packs : w.kind.writes w.basis w.result
  uploads : w.kind.uploads ⊆ installed

def BusyOk (chain : List Manifest) (installed : List String) : Busy → Prop
  | .adopt m => m ∈ chain
  | .settle w committed =>
    WriteOk chain installed w ∧ committed ∈ chain ∧ w.kind.settlesOn w.result committed

/-- A pass that is past its installations has everything its manifest lists. -/
def PassOk (s : State) (m : Manifest) : Phase → Prop
  | .installing missing => ∀ p ∈ m.packs, s.Served p ∨ p.checksum ∈ missing
  | .removing doomed => s.Covers m ∧ ∀ id ∈ doomed, id ∉ m.packs.map PackRef.checksum
  | .keeping _ | .closing => s.Covers m

structure Inv (s : State) : Prop where
  chain : s.chain.Pairwise fun a b => b.revision < a.revision
  held : s.held ∈ s.chain
  applied : s.applied ∈ s.chain
  bounded : ∃ m ∈ s.chain, s.packsRevision ≤ m.revision
  recorded : ∀ m ∈ s.chain, m.revision = s.packsRevision → s.Covers m
  writes : ∀ w ∈ s.writes, WriteOk s.chain s.installed w
  busy : ∀ b, s.busy = some b → BusyOk s.chain s.installed b
  pass : ∀ p, s.pass = some p → p.manifest ∈ s.chain ∧ s.PassOk p.manifest p.phase

section Steps

variable {s t : State} {m : Manifest}

/-- A revision names one manifest. -/
theorem Inv.unique (h : s.Inv) {m' : Manifest} (hm : m ∈ s.chain) (hm' : m' ∈ s.chain)
    (heq : m.revision = m'.revision) : m = m' := by
  have hpair := h.chain
  generalize s.chain = chain at hm hm' hpair
  induction chain with
  | nil => cases hm
  | cons n chain ih =>
    rw [List.pairwise_cons] at hpair
    rcases List.mem_cons.mp hm with hfirst | hrest
    · rcases List.mem_cons.mp hm' with hfirst' | hrest'
      · exact hfirst.trans hfirst'.symm
      · have hlt := hpair.1 m' hrest'
        rw [← hfirst] at hlt
        omega
    · rcases List.mem_cons.mp hm' with hfirst' | hrest'
      · have hlt := hpair.1 m hrest
        rw [← hfirst'] at hlt
        omega
      · exact ih hrest hrest' hpair.2

/-- Readiness means that the record is about the applied manifest. -/
theorem Inv.ready (h : s.Inv) (hready : s.packsReady) : s.Covers s.applied := by
  rw [packsReady, Bool.and_eq_true, decide_eq_true_eq] at hready
  exact h.recorded _ h.applied hready.1.symm

theorem Inv.honest (h : s.Inv) : s.Honest := h.ready

/-- The invariant does not speak of the pending removals. -/
theorem Inv.setPending (h : s.Inv) (pending : List String) :
    Inv { s with pendingPackRemovals := pending } :=
  ⟨h.chain, h.held, h.applied, h.bounded, h.recorded, h.writes, h.busy, h.pass⟩

theorem Inv.setBusy (h : s.Inv) {busy : Option Busy}
    (hbusy : ∀ b, busy = some b → BusyOk s.chain s.installed b) : Inv { s with busy := busy } :=
  ⟨h.chain, h.held, h.applied, h.bounded, h.recorded, h.writes, hbusy, h.pass⟩

theorem Inv.setHeld (h : s.Inv) (hm : m ∈ s.chain) : Inv { s with held := m } :=
  ⟨h.chain, hm, h.applied, h.bounded, h.recorded, h.writes, h.busy, h.pass⟩

theorem Inv.setWrites (h : s.Inv) {writes : List Write} (hsub : ∀ w ∈ writes, w ∈ s.writes) :
    Inv { s with writes := writes } :=
  ⟨h.chain, h.held, h.applied, h.bounded, h.recorded, fun w hw => h.writes w (hsub w hw), h.busy,
    h.pass⟩

theorem Inv.setPass (h : s.Inv) {pass : Option Pass}
    (hpass : ∀ p, pass = some p → p.manifest ∈ s.chain ∧ s.PassOk p.manifest p.phase) :
    Inv { s with pass := pass } :=
  ⟨h.chain, h.held, h.applied, h.bounded, h.recorded, h.writes, h.busy, hpass⟩

/-- The record may move to a manifest whose packs are served. -/
theorem Inv.setRevision (h : s.Inv) (hm : m ∈ s.chain) (hcovers : s.Covers m) :
    Inv { s with packsRevision := m.revision } where
  chain := h.chain
  held := h.held
  applied := h.applied
  bounded := ⟨m, hm, Nat.le_refl _⟩
  recorded := fun _ hm' heq => h.unique hm hm' heq.symm ▸ hcovers
  writes := h.writes
  busy := h.busy
  pass := h.pass

theorem Inv.record (h : s.Inv) (hm : m ∈ s.chain) {ready : Bool}
    (hready : ready → s.Covers m) : (s.record m ready).Inv := by
  cases ready with
  | false => exact ⟨h.chain, h.held, hm, h.bounded, h.recorded, h.writes, h.busy, h.pass⟩
  | true =>
    have h' := h.setRevision hm (hready rfl)
    exact ⟨h'.chain, h'.held, hm, h'.bounded, h'.recorded, h'.writes, h'.busy, h'.pass⟩

theorem Inv.addPending (h : s.Inv) (ids : List String) : (s.addPending ids).Inv :=
  h.setPending _

/-- The packs of the new manifest are those of the one that was ready. -/
theorem Inv.apply (h : s.Inv) (hm : m ∈ s.chain) (supersedes : List String) :
    (s.apply m supersedes).Inv := by
  have h' := h.addPending supersedes
  refine h'.record hm fun hready p hp => ?_
  simp only [Bool.and_eq_true, decide_eq_true_eq] at hready
  obtain ⟨⟨hready, hrevision⟩, hpacks⟩ := hready
  have heq := h'.unique h'.applied h'.held hrevision
  refine h'.ready hready p ?_
  rw [heq, hpacks]
  exact hp

theorem Inv.adopt (h : s.Inv) (hm : m ∈ s.chain) (ht : s.adopt m = some t) : t.Inv := by
  unfold State.adopt at ht
  split_ifs at ht
  cases ht
  exact h.setHeld hm

theorem Served.kept {p q : PackRef} (hkeeps : keeps p q) (h : s.Served q) : s.Served p := by
  simp only [keeps, Bool.and_eq_true, beq_iff_eq] at hkeeps
  obtain ⟨hchecksum, hhistory⟩ := hkeeps
  rw [Served, ← hchecksum, ← hhistory]
  exact h

/-- A manifest written on the ready one lists its packs and what was uploaded. -/
theorem covers_result {w : Write} (hw : WriteOk s.chain s.installed w)
    (hbasis : s.Covers w.basis) (hkind : ∀ retire, w.kind ≠ .sealPacks retire) :
    s.Covers w.result := by
  intro p hp
  have hpacks := hw.packs
  cases hk : w.kind with
  | batch | compact =>
    simp only [hk, WriteKind.writes, List.all_eq_true, Bool.or_eq_true, List.any_eq_true,
      decide_eq_true_eq] at hpacks
    rcases hpacks p hp with ⟨q, hq, hkeeps⟩ | hnew
    · exact (hbasis q hq).kept hkeeps
    · exact Or.inl (hw.uploads (hk ▸ hnew))
  | control | checkpoint =>
    simp only [hk, WriteKind.writes, decide_eq_true_eq] at hpacks
    exact hbasis p (hpacks ▸ hp)
  | sealPacks retire => exact absurd hk (hkind retire)

/-- What a step has to respect: a pass keeps serving what is recorded, removes nothing that is
recorded or being written, and a checkpoint settles on the state it was based on. -/
def Careful (s : State) : Action → Prop
  | .begin _ plan _ => ∀ m ∈ s.chain, m.revision = s.packsRevision → ∀ p ∈ m.packs,
      p.checksum ∈ s.remoteServed →
        p.checksum ∈ s.installed ∨ p.checksum ∈ planned s.held plan ∨ isHistory p
  | .remove => ∀ m id doomed, s.pass = some ⟨m, .removing (id :: doomed)⟩ →
      (∀ n ∈ s.chain, n.revision = s.packsRevision → id ∉ n.packs.map PackRef.checksum) ∧
        (∀ w ∈ s.writes, id ∉ w.kind.uploads) ∧
          ∀ w committed, s.busy = some (.settle w committed) → id ∉ w.kind.uploads
  | .settle => ∀ w committed, s.busy = some (.settle w committed) → w.kind = .checkpoint →
      s.packsReady → s.applied.revision = w.basis.revision ∨ s.applied.revision = w.result.revision
  | _ => True

theorem WriteOk.mono {chain chain' : List Manifest} {installed installed' : List String} {w : Write}
    (h : WriteOk chain installed w) (hchain : chain ⊆ chain')
    (huploads : w.kind.uploads ⊆ installed') : WriteOk chain' installed' w :=
  ⟨hchain h.basis, hchain h.result, h.next, h.packs, huploads⟩

theorem Served.mono {p : PackRef} {installed : List String} (hsub : s.installed ⊆ installed)
    (h : s.Served p) : Served { s with installed := installed } p :=
  h.imp_left fun hp => hsub hp

/-- More packs on disk do no harm. -/
theorem Inv.setInstalled (h : s.Inv) {installed : List String} (hsub : s.installed ⊆ installed) :
    Inv { s with installed := installed } where
  chain := h.chain
  held := h.held
  applied := h.applied
  bounded := h.bounded
  recorded m hm heq p hp := (h.recorded m hm heq p hp).mono hsub
  writes w hw :=
    (h.writes w hw).mono (List.Subset.refl _) fun _ hu => hsub ((h.writes w hw).uploads hu)
  busy b hb := by
    cases b with
    | adopt m => exact h.busy _ hb
    | settle w committed =>
      obtain ⟨hw, hc⟩ := h.busy _ hb
      exact ⟨hw.mono (List.Subset.refl _) fun _ hu => hsub (hw.uploads hu), hc⟩
  pass p hp := by
    obtain ⟨hm, hok⟩ := h.pass p hp
    refine ⟨hm, ?_⟩
    cases hphase : p.phase with
    | installing missing =>
      rw [hphase] at hok
      exact fun q hq => (hok q hq).imp_left (Served.mono hsub)
    | removing doomed =>
      rw [hphase] at hok
      exact ⟨fun q hq => (hok.1 q hq).mono hsub, hok.2⟩
    | keeping kept | closing =>
      rw [hphase] at hok
      exact fun q hq => (hok q hq).mono hsub

/-- A new manifest on top of the newest one. -/
theorem Inv.push (h : s.Inv) (hm : ∀ n ∈ s.newest, m.revision = n.revision + 1) :
    Inv { s with chain := m :: s.chain } ∧ ∀ n ∈ s.chain, n.revision < m.revision := by
  have hlt : ∀ n ∈ s.chain, n.revision < m.revision := by
    have hpair := h.chain
    unfold newest at hm
    generalize s.chain = chain at hm hpair
    cases chain with
    | nil => simp
    | cons n chain =>
      rw [List.pairwise_cons] at hpair
      have heq := hm n rfl
      rw [List.forall_mem_cons]
      refine ⟨by omega, fun n' hn' => ?_⟩
      have := hpair.1 n' hn'
      omega
  have hsub : s.chain ⊆ m :: s.chain := List.subset_cons_self _ _
  refine ⟨?_, hlt⟩
  exact
    { chain := List.pairwise_cons.mpr ⟨hlt, h.chain⟩
      held := hsub h.held
      applied := hsub h.applied
      bounded := by
        obtain ⟨n, hn, hle⟩ := h.bounded
        exact ⟨n, hsub hn, hle⟩
      recorded := by
        intro n hn heq
        rcases List.mem_cons.mp hn with rfl | hn
        · obtain ⟨n', hn', hle⟩ := h.bounded
          have := hlt n' hn'
          change n.revision = s.packsRevision at heq
          omega
        · exact h.recorded n hn heq
      writes := fun w hw => (h.writes w hw).mono hsub (h.writes w hw).uploads
      busy := by
        intro b hb
        cases b with
        | adopt n => exact hsub (h.busy _ hb)
        | settle w committed =>
          obtain ⟨hw, hc, hsettles⟩ := h.busy _ hb
          exact ⟨hw.mono hsub hw.uploads, hsub hc, hsettles⟩
      pass := fun p hp => ⟨hsub (h.pass p hp).1, (h.pass p hp).2⟩ }

theorem Inv.settle (h : s.Inv) {w : Write} {committed : Manifest}
    (hbusy : s.busy = some (.settle w committed)) (hcareful : s.Careful .settle) :
    (s.settle w committed).Inv := by
  obtain ⟨hw, hc, hsettles⟩ := h.busy _ hbusy
  -- A record that moves with a write moves from its basis to its result.
  have hdirect : ∀ {u : State}, u.Inv → u.chain = s.chain → u.installed = s.installed →
      (∀ retire, w.kind ≠ .sealPacks retire) → u.packsReady →
      u.applied.revision = w.basis.revision → committed.revision = w.basis.revision + 1 →
      u.Covers committed := by
    intro u hu hchain hinstalled hkind hready happlied hrevision
    rw [← hchain] at hc
    have hwu : WriteOk u.chain u.installed w := by
      rw [hchain, hinstalled]
      exact hw
    have hbasis : u.Covers w.basis :=
      hu.unique hwu.basis hu.applied happlied.symm ▸ hu.ready hready
    have hresult := hu.unique hc hwu.result (hrevision.trans hw.next.symm)
    exact hresult ▸ covers_result hwu hbasis hkind
  unfold State.settle
  cases hk : w.kind with
  | batch uploads =>
    refine h.record hc fun hready => ?_
    simp only [Bool.and_eq_true, decide_eq_true_eq] at hready
    exact hdirect h rfl rfl (by simp [hk]) hready.1 hready.2.1 hready.2.2
  | compact pack supersedes =>
    refine (h.addPending supersedes).record hc fun hready => ?_
    simp only [Bool.and_eq_true, decide_eq_true_eq] at hready
    exact hdirect (h.addPending supersedes) rfl rfl (by simp [hk]) hready.1 hready.2.1 hready.2.2
  | control =>
    refine h.record hc fun hready => ?_
    simp only [Bool.and_eq_true, decide_eq_true_eq] at hready
    have heq : committed = w.result := by simpa [hk, WriteKind.settlesOn] using hsettles
    exact hdirect h rfl rfl (by simp [hk]) hready.1.1 hready.1.2 (heq ▸ hw.next)
  | checkpoint =>
    refine h.record hc fun hready => ?_
    have heq : committed = w.result := by simpa [hk, WriteKind.settlesOn] using hsettles
    rcases hcareful w committed hbusy hk hready with hbasis | hresult
    · exact hdirect h rfl rfl (by simp [hk]) hready hbasis (heq ▸ hw.next)
    · rw [heq, ← h.unique h.applied hw.result hresult]
      exact h.ready hready
  | sealPacks retire => exact (h.record hc (by simp)).addPending retire

theorem Inv.catchUp (h : s.Inv) {w : Write} {committed : Manifest} (hc : committed ∈ s.chain)
    (supersedes : List String) (how : CatchUp) : (s.catchUp w committed supersedes how).Inv := by
  unfold State.catchUp
  split_ifs
  · cases how with
    | failed => exact h.addPending supersedes
    | stale | done => exact h.apply hc supersedes
  · exact h

theorem catchUp_frame (w : Write) (committed : Manifest) (supersedes : List String)
    (how : CatchUp) : (s.catchUp w committed supersedes how).chain = s.chain ∧
      (s.catchUp w committed supersedes how).installed = s.installed ∧
      (s.catchUp w committed supersedes how).writes = s.writes := by
  unfold State.catchUp
  split_ifs
  · cases how <;> exact ⟨rfl, rfl, rfl⟩
  · exact ⟨rfl, rfl, rfl⟩

theorem Inv.commit (h : s.Inv) {w : Write} {committed : Manifest} (hw : w ∈ s.writes)
    (hc : committed ∈ s.chain) (hsettles : w.kind.settlesOn w.result committed)
    (supersedes : List String) (how : CatchUp) : (s.commit w committed supersedes how).Inv := by
  obtain ⟨hchain, hinstalled, hwrites⟩ := catchUp_frame (s := s) w committed supersedes how
  have hcaught : (s.catchUp w committed supersedes how).Inv := h.catchUp hc supersedes how
  have herased : Inv { s.catchUp w committed supersedes how with writes := s.writes.erase w } :=
    hcaught.setWrites fun v hv => hwrites ▸ List.mem_of_mem_erase hv
  unfold State.commit
  cases how with
  | failed | stale => exact herased
  | done =>
    dsimp only
    split
    · rename_i u hu
      refine (herased.adopt (by simpa only [hchain] using hc) hu).setBusy fun b hb => ?_
      unfold State.adopt at hu
      split_ifs at hu
      cases hu
      cases hb
      change BusyOk (s.catchUp w committed supersedes .done).chain
        (s.catchUp w committed supersedes .done).installed _
      rw [hchain, hinstalled]
      exact ⟨h.writes w hw, hc, hsettles⟩
    · exact herased

/-- A pass begins: its plan is announced, and what it has to install is known. -/
theorem Inv.begin (h : s.Inv) {cause : Cause} {plan : PackRef → PackPlan} {replaced : List String}
    (hcareful : s.Careful (.begin cause plan replaced)) : (s.begin cause plan replaced).Inv where
  chain := h.chain
  held := h.held
  applied := h.applied
  bounded := h.bounded
  recorded := by
    intro m hm heq p hp
    rcases h.recorded m hm heq p hp with hinstalled | hremote | hhistory
    · exact Or.inl hinstalled
    · rcases hcareful m hm heq p hp hremote with hinstalled | hplanned | hhistory
      · exact Or.inl hinstalled
      · exact Or.inr (Or.inl hplanned)
      · exact Or.inr (Or.inr hhistory)
    · exact Or.inr (Or.inr hhistory)
  writes := h.writes
  busy := h.busy
  pass := by
    intro p hp
    cases hp
    refine ⟨h.held, fun q hq => ?_⟩
    by_cases hinstalled : q.checksum ∈ s.installed
    · exact Or.inl (Or.inl hinstalled)
    by_cases hplanned : q.checksum ∈ planned s.held plan
    · exact Or.inl (Or.inr (Or.inl hplanned))
    by_cases hhistory : isHistory q
    · exact Or.inl (Or.inr (Or.inr hhistory))
    · refine Or.inr (List.mem_map_of_mem (List.mem_filter.mpr ⟨hq, ?_⟩))
      simp [hinstalled, hplanned, hhistory]

/-- A removed pack is one that nothing recorded or in progress lists. -/
theorem Inv.remove (h : s.Inv) {m : Manifest} {id : String} {doomed : List String}
    (hpass : s.pass = some ⟨m, .removing (id :: doomed)⟩) (hcareful : s.Careful .remove) :
    Inv { s with installed := s.installed.filter (· ≠ id), pass := some ⟨m, .removing doomed⟩ } := by
  obtain ⟨hrecorded, hwrites, hbusy⟩ := hcareful m id doomed hpass
  obtain ⟨hm, hcovers, hdoomed⟩ := h.pass _ hpass
  have hkept : ∀ {p : PackRef}, p.checksum ≠ id → s.Served p →
      Served { s with installed := s.installed.filter (· ≠ id) } p := by
    intro p hne hp
    exact hp.imp_left fun hin => List.mem_filter.mpr ⟨hin, by simpa using hne⟩
  have huploads : ∀ {w : Write}, WriteOk s.chain s.installed w → id ∉ w.kind.uploads →
      WriteOk s.chain (s.installed.filter (· ≠ id)) w := by
    intro w hw hid
    refine hw.mono (List.Subset.refl _) fun u hu => List.mem_filter.mpr ⟨hw.uploads hu, ?_⟩
    simpa using fun heq : u = id => hid (heq ▸ hu)
  exact
    { chain := h.chain
      held := h.held
      applied := h.applied
      bounded := h.bounded
      recorded := fun n hn heq p hp => hkept
        (fun hid => hrecorded n hn heq (hid ▸ List.mem_map_of_mem hp)) (h.recorded n hn heq p hp)
      writes := fun w hw => huploads (h.writes w hw) (hwrites w hw)
      busy := by
        intro b hb
        cases b with
        | adopt n => exact h.busy _ hb
        | settle w committed =>
          obtain ⟨hw, hc⟩ := h.busy _ hb
          exact ⟨huploads hw (hbusy w committed hb), hc⟩
      pass := by
        intro p hp
        cases hp
        refine ⟨hm, fun p hp => hkept (fun hid => ?_) (hcovers p hp), fun i hi => ?_⟩
        · exact hdoomed id List.mem_cons_self (hid ▸ List.mem_map_of_mem hp)
        · exact hdoomed i (List.mem_cons_of_mem id hi) }

theorem Inv.step (h : s.Inv) {a : Action} (hcareful : s.Careful a) (ht : s.step a = some t) :
    t.Inv := by
  cases a with
  | written m =>
    simp only [State.step] at ht
    split_ifs at ht with hnext
    cases ht
    exact (h.push hnext).1
  | ingest id =>
    cases ht
    exact h.setInstalled (List.subset_cons_self _ _)
  | syncApply m supersedes =>
    simp only [State.step] at ht
    split_ifs at ht with hbusy hold hsame
    · cases ht
      exact h
    · cases ht
      exact h.setHeld (by simpa using (not_or.mp hbusy).2)
    · cases ht
      have hm : m ∈ s.chain := by simpa using (not_or.mp hbusy).2
      refine (h.apply hm supersedes).setBusy fun b hb => ?_
      cases hb
      exact hm
  | syncFail supersedes =>
    simp only [State.step] at ht
    split_ifs at ht
    cases ht
    exact h.addPending supersedes
  | syncAdopt refreshed =>
    simp only [State.step] at ht
    split at ht
    · rename_i m hbusy
      have hidle : Inv { s with busy := none } := h.setBusy (by simp)
      split_ifs at ht
      · cases ht
        cases hadopt : State.adopt { s with busy := none } m with
        | none => exact hidle
        | some u => exact hidle.adopt (h.busy _ hbusy) hadopt
      · cases ht
        exact hidle
    · cases ht
  | write kind result =>
    simp only [State.step] at ht
    split_ifs at ht with hok
    cases ht
    obtain ⟨hnewest, hrevision, hwrites, huploads⟩ := hok
    obtain ⟨hpushed, -⟩ := h.push (m := result) (by
      rw [hnewest]
      intro n hn
      cases hn
      exact hrevision)
    refine ⟨hpushed.chain, hpushed.held, hpushed.applied, hpushed.bounded, hpushed.recorded, ?_,
      hpushed.busy, hpushed.pass⟩
    exact List.forall_mem_cons.mpr ⟨⟨hpushed.held, List.mem_cons_self, hrevision, hwrites, huploads⟩,
      hpushed.writes⟩
  | commit w committed supersedes how =>
    simp only [State.step] at ht
    split_ifs at ht with hok
    cases ht
    exact h.commit hok.2.1 hok.2.2.1 hok.2.2.2 supersedes how
  | settle =>
    simp only [State.step] at ht
    split at ht
    · rename_i w committed hbusy
      cases ht
      exact (h.settle hbusy hcareful).setBusy (by simp)
    · cases ht
  | «begin» cause plan replaced =>
    simp only [State.step] at ht
    split_ifs at ht
    cases ht
    exact h.begin hcareful
  | install id =>
    simp only [State.step] at ht
    split at ht
    · rename_i m missing hpass
      split_ifs at ht with hmem
      cases ht
      obtain ⟨hm, hok⟩ := h.pass _ hpass
      refine (h.setInstalled (List.subset_cons_self id _)).setPass fun p hp => ?_
      cases hp
      refine ⟨hm, fun q hq => ?_⟩
      by_cases heq : q.checksum = id
      · exact Or.inl (Or.inl (heq ▸ List.mem_cons_self))
      · refine (hok q hq).imp (Served.mono (List.subset_cons_self id _)) fun hin => ?_
        exact List.mem_filter.mpr ⟨hin, by simpa using heq⟩
    · cases ht
  | takePending locked =>
    simp only [State.step] at ht
    split at ht
    · rename_i m hpass
      cases ht
      obtain ⟨hm, hok⟩ := h.pass _ hpass
      have hcovers : s.Covers m := fun p hp => (hok p hp).resolve_right (by simp)
      refine (h.setPending []).setPass fun p hp => ?_
      cases hp
      refine ⟨hm, ?_⟩
      cases locked with
      | false => exact hcovers
      | true => exact ⟨hcovers, fun id hid => by simpa using (List.mem_filter.mp hid).2⟩
    · cases ht
  | remove =>
    simp only [State.step] at ht
    split at ht
    · rename_i m id doomed hpass
      cases ht
      exact h.remove hpass hcareful
    · cases ht
  | putBack =>
    have hclose : ∀ {m : Manifest} {phase : Phase}, s.pass = some ⟨m, phase⟩ → s.Covers m →
        Inv { s with pass := some ⟨m, .closing⟩ } := by
      intro m phase hpass hcovers
      refine h.setPass fun p hp => ?_
      cases hp
      exact ⟨(h.pass _ hpass).1, hcovers⟩
    simp only [State.step] at ht
    split at ht
    · rename_i m hpass
      cases ht
      exact hclose hpass (h.pass _ hpass).2.1
    · rename_i m hpass
      cases ht
      exact hclose hpass (h.pass _ hpass).2
    · rename_i m kept _ hpass
      cases ht
      exact (hclose hpass (h.pass _ hpass).2).setPending kept
    · cases ht
  | finish =>
    simp only [State.step] at ht
    split at ht
    · rename_i m hpass
      cases ht
      obtain ⟨hm, hcovers⟩ := h.pass _ hpass
      exact (h.setRevision hm hcovers).setPass (by simp)
    · cases ht
  | fail =>
    simp only [State.step] at ht
    split_ifs at ht
    cases ht
    exact h.setPass (by simp)

end Steps

theorem Inv.opened {m : Manifest} (hrevision : 0 < m.revision)
    (pending remoteServed installed : List String) :
    (opened m pending remoteServed installed).Inv where
  chain := List.pairwise_singleton _ _
  held := List.mem_singleton.mpr rfl
  applied := List.mem_singleton.mpr rfl
  bounded := by
    refine ⟨m, List.mem_singleton.mpr rfl, ?_⟩
    change (if m.packs.isEmpty then m.revision else 0) ≤ m.revision
    split_ifs
    · exact Nat.le_refl _
    · exact Nat.zero_le _
  recorded := by
    intro n hn heq p hp
    rw [List.mem_singleton.mp hn] at heq hp
    change m.revision = if m.packs.isEmpty then m.revision else 0 at heq
    split_ifs at heq with hempty
    · rw [List.isEmpty_iff.mp hempty] at hp
      cases hp
    · omega
  writes := by simp [State.opened]
  busy := by simp [State.opened]
  pass := by simp [State.opened]

end State

section Replanned

def base : PackRef := { checksum := Text.repeated 'b', tier := 2, seq := 1 }

/-- A repository with one base pack. -/
def basePack : Manifest where
  revision := 2
  headSeq := 1
  packs := [base]

/-- The first pass of an instance that serves the base remotely. -/
def servedRemotely : List Action :=
  [.begin (.serve false) (fun _ => .remote) [], .takePending true, .putBack, .finish]

/-- Later the store mount comes up, and a pass begins to link the base. -/
def mounted : List Action := servedRemotely ++ [.begin (.serve true) (fun _ => .link) []]

end Replanned

end Readiness

end Walgit
