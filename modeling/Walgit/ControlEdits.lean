import Walgit.PublisherRuns

/-!
# Access and settings edits

The manifest carries the current access and settings records inline, and every edit also
writes an entry with the record. A record is described once; the two instances differ in
their entry kind and fields.
-/
namespace Walgit

/-- A record kept inline in the manifest and replaced by entries of one kind. -/
structure ControlRecord (ρ : Type) where
  kind : EntryKind
  ofEntry : LogEntry → Option ρ
  ofManifest : Manifest → Option ρ
  revision : ρ → ℕ
  edits : Job → Bool

namespace ControlRecord

variable {ρ : Type} (r : ControlRecord ρ)

def revisionOf (m : Manifest) : ℕ := ((r.ofManifest m).map r.revision).getD 0

/-- The last entry of the record's kind. -/
def lastEntry (entries : List LogEntry) : Option LogEntry :=
  entries.reverse.find? fun e => e.kind = r.kind

/-- Committed edits of the record. -/
def commits (gens : List Generation) : ℕ :=
  gens.countP fun g => g.origin.any fun o => r.edits o.job

/-- The write leaves the record alone. -/
def Keeps (b m : Manifest) (entries : List LogEntry) : Prop :=
  r.ofManifest m = r.ofManifest b ∧ ∀ e ∈ entries, e.kind ≠ r.kind

/-- The write replaces the record by the next revision and logs it. -/
def Replaces (b m : Manifest) (entries : List LogEntry) : Prop :=
  ∃ e doc, entries = [e] ∧ e.kind = r.kind ∧ r.ofEntry e = some doc ∧
    r.ofManifest m = some doc ∧ r.revision doc = r.revisionOf b + 1

/-- Only edits change the record. -/
structure Lawful [Text.CharTables] : Prop where
  append : ∀ {o : Origin} {now : Timestamp} {seg : LogSegmentRef} {m : Manifest}, o.Wrote →
    o.job.manifest o.attempt now seg = .ok m →
    if r.edits o.job then r.Replaces o.attempt.basis.manifest m o.slot.bytes
    else r.Keeps o.attempt.basis.manifest m o.slot.bytes
  rewrite : ∀ {job : MetaJob} {b m : Manifest} {policy : PackPolicy} {writer : String}
    {now : Timestamp}, job.manifest b policy writer now = some m → r.ofManifest m = r.ofManifest b

/-- The manifest's record and the log agree. -/
structure Linear (initial : Option ρ) (m : Manifest) (gens : List Generation) : Prop where
  revision : r.revisionOf m = (initial.map r.revision).getD 0 + r.commits gens
  logged : ∀ e, r.lastEntry (committedEntries gens) = some e → r.ofManifest m = r.ofEntry e
  unedited : r.lastEntry (committedEntries gens) = none → r.ofManifest m = initial

variable {r}

theorem lastEntry_append_of_ne {es fs : List LogEntry} (h : ∀ e ∈ fs, e.kind ≠ r.kind) :
    r.lastEntry (es ++ fs) = r.lastEntry es := by
  have hnone : fs.reverse.find? (fun e => e.kind = r.kind) = none := by
    simpa using h
  simp [lastEntry, List.find?_append, hnone]

theorem lastEntry_snoc {es : List LogEntry} {e : LogEntry} (h : e.kind = r.kind) :
    r.lastEntry (es ++ [e]) = some e := by
  simp [lastEntry, h]

/-- A write that keeps the record adds nothing to its history. -/
theorem Linear.keep {initial : Option ρ} {g : Generation} {gens : List Generation}
    (h : r.Linear initial g.manifest (g :: gens)) {g' : Generation}
    (hkeep : r.Keeps g.manifest g'.manifest ((g'.origin.map fun o => o.slot.bytes).getD []))
    (hedit : (g'.origin.any fun o => r.edits o.job) = false) :
    r.Linear initial g'.manifest (g' :: g :: gens) := by
  have hlast : r.lastEntry (committedEntries (g' :: g :: gens)) =
      r.lastEntry (committedEntries (g :: gens)) := by
    rw [committedEntries]
    exact lastEntry_append_of_ne hkeep.2
  refine ⟨?_, fun e he => ?_, fun hnone => ?_⟩
  · rw [commits, List.countP_cons, if_neg (by simp [hedit]), revisionOf, hkeep.1]
    exact h.revision
  · rw [hkeep.1]
    exact h.logged e (hlast ▸ he)
  · rw [hkeep.1]
    exact h.unedited (hlast ▸ hnone)

/-- An edit adds its entry and one to the revision. -/
theorem Linear.replace {initial : Option ρ} {g : Generation} {gens : List Generation}
    (h : r.Linear initial g.manifest (g :: gens)) {g' : Generation} {o : Origin}
    (ho : g'.origin = some o) (hreplace : r.Replaces g.manifest g'.manifest o.slot.bytes)
    (hedit : r.edits o.job) : r.Linear initial g'.manifest (g' :: g :: gens) := by
  obtain ⟨e, doc, hbytes, hkind, hentry, hmanifest, hrev⟩ := hreplace
  have hlast : r.lastEntry (committedEntries (g' :: g :: gens)) = some e := by
    rw [committedEntries, ho, Option.map_some, Option.getD_some, hbytes]
    exact lastEntry_snoc hkind
  refine ⟨?_, fun e' he' => ?_, fun hnone => ?_⟩
  · have hcount : r.commits (g' :: g :: gens) = r.commits (g :: gens) + 1 := by
      rw [commits, List.countP_cons, if_pos (by simp [ho, hedit])]
      rfl
    have hprev := h.revision
    rw [hcount, revisionOf, hmanifest, Option.map_some, Option.getD_some, hrev]
    omega
  · rw [hlast, Option.some.injEq] at he'
    rw [hmanifest, ← hentry, he']
  · rw [hlast] at hnone
    cases hnone

variable [Text.CharTables] {cfg : Config}

/-- The record is linear at every manifest of a chain. -/
theorem Lawful.linear (law : r.Lawful) {g g₀ : Generation} {gens : List Generation}
    (h : Chain cfg (g :: gens)) (hfirst : [g₀] <:+ g :: gens) :
    r.Linear (r.ofManifest g₀.manifest) g.manifest (g :: gens) := by
  generalize hl : g :: gens = l at h
  induction h generalizing g gens with
  | created access now writer version =>
    cases hl
    cases hfirst.eq_of_length rfl
    refine ⟨by simp [revisionOf, commits], fun e he => ?_, fun _ => rfl⟩
    simp [lastEntry, committedEntries] at he
  | append older o now m version basis wrote burned edit newer ih =>
    cases hl
    rename_i g gens
    have hlin := ih ((List.suffix_cons_iff.mp hfirst).resolve_left (by simp)) rfl
    have hlaw := law.append wrote edit
    rw [basis] at hlaw
    split_ifs at hlaw with hedit
    · exact hlin.replace rfl hlaw hedit
    · exact hlin.keep hlaw (by simpa using hedit)
  | rewrite older job policy writer now m version edit folded newer ih =>
    cases hl
    rename_i g gens
    have hlin := ih ((List.suffix_cons_iff.mp hfirst).resolve_left (by simp)) rfl
    exact hlin.keep ⟨law.rewrite edit, by simp⟩ rfl

end ControlRecord

namespace Manifest

/-- The inline records of a manifest. -/
def controls (m : Manifest) : Option RepoAccess × Option RepoSettings := (m.access, m.settings)

theorem controls_eq {m n : Manifest} (h : m.records = n.records) : m.controls = n.controls :=
  congrArg (fun r => (r.1, r.2.1)) h

end Manifest

namespace Job

variable [Text.CharTables]

/-- A write that is not a control write leaves the inline records alone. -/
theorem manifest_controls {job : Job} {a : Attempt} {now : Timestamp} {seg : LogSegmentRef}
    {m : Manifest} (h : job.manifest a now seg = .ok m) (hc : ∀ c, job ≠ .control c) :
    m.controls = a.basis.manifest.controls := by
  cases hb : job.isBatch with
  | true =>
    cases job with
    | batch reqs =>
      cases h
      rfl
    | _ => cases hb
  | false => exact Manifest.controls_eq (manifest_records h hb hc)

theorem entries_kind {job : Job} {a : Attempt} {clock : ℕ → Timestamp} {n : ℕ}
    {es : List LogEntry} (h : job.entries a clock n = .ok es) (hc : ∀ c, job ≠ .control c) :
    ∀ e ∈ es, e.kind = .push ∨ e.kind = .forge ∨ e.kind = .compact := by
  cases job with
  | batch reqs =>
    cases h
    intro e he
    obtain ⟨m, -, seq, rfl⟩ := mem_buildEntries he
    simp only [buildEntry]
    split_ifs <;> simp
  | compact info supersedes tier classification =>
    simp only [entries, Checks.bind_eq_ok] at h
    obtain ⟨pack, -, h⟩ := h
    cases h
    simp
  | control c => exact absurd rfl (hc c)
  | sealPacks captured inputs outputs =>
    simp only [entries, Checks.bind_eq_ok] at h
    obtain ⟨m', -, h⟩ := h
    cases h
    simp

/-- A control write commits what `prepare` made of its basis. -/
theorem control_prepared {c : Control} {a : Attempt} {now : Timestamp} {seg : LogSegmentRef}
    {m : Manifest} {clock : ℕ → Timestamp} {n : ℕ} {es : List LogEntry}
    (hm : (Job.control c).manifest a now seg = .ok m)
    (hes : (Job.control c).entries a clock n = .ok es) :
    ∃ template next, c.prepare a.basis.manifest a.startedAt = .ok (template, next) ∧
      m.controls = next.controls ∧
      es = [{ template with seq := n, createdAt := some a.startedAt, writer := a.writer }] := by
  simp only [manifest, Checks.bind_eq_ok] at hm
  obtain ⟨⟨template, next⟩, hprep, hm⟩ := hm
  simp only [entries, Checks.bind_eq_ok, hprep] at hes
  obtain ⟨_, heq, hes⟩ := hes
  cases heq
  cases hm
  cases hes
  exact ⟨template, next, hprep, rfl, rfl⟩

end Job

def accessRecord : ControlRecord RepoAccess where
  kind := .access
  ofEntry := LogEntry.access
  ofManifest := Manifest.access
  revision := RepoAccess.revision
  edits
    | .control (.access ..) => true
    | _ => false

def settingsRecord : ControlRecord RepoSettings where
  kind := .settings
  ofEntry := LogEntry.settings
  ofManifest := Manifest.settings
  revision := RepoSettings.revision
  edits
    | .control (.settings ..) => true
    | _ => false

section Laws

variable [Text.CharTables]

/-- A record is lawful if its own edits prepare it and the other control writes do not. -/
theorem ControlRecord.lawful {ρ : Type} {r : ControlRecord ρ}
    (hcontrols : ∀ {m n : Manifest}, m.controls = n.controls → r.ofManifest m = r.ofManifest n)
    (hkind : r.kind ≠ .push ∧ r.kind ≠ .forge ∧ r.kind ≠ .compact)
    (hedits : ∀ job, r.edits job → ∃ c, job = .control c)
    (hstamp : ∀ (e : LogEntry) n t w d,
      r.ofEntry { e with seq := n, createdAt := t, writer := w, metadata := d } = r.ofEntry e)
    (hprepare : ∀ {c : Control} {b next : Manifest} {template : LogEntry} {t : Timestamp},
      c.prepare b t = .ok (template, next) →
      if r.edits (.control c) then ∃ doc, template.kind = r.kind ∧ r.ofEntry template = some doc ∧
        r.ofManifest next = some doc ∧ r.revision doc = r.revisionOf b + 1
      else template.kind ≠ r.kind ∧ r.ofManifest next = r.ofManifest b) : r.Lawful := by
  refine ⟨fun {o now seg m} hwrote hm => ?_,
    fun h => hcontrols (Manifest.controls_eq (MetaJob.manifest_records h))⟩
  obtain ⟨job, a, σ⟩ := o
  obtain ⟨clock, es, hes, -, hbytes⟩ := hwrote
  by_cases hc : ∃ c, job = .control c
  · obtain ⟨c, rfl⟩ := hc
    obtain ⟨template, next, hprep, hm, rfl⟩ := Job.control_prepared hm hes
    have hmanifest := hcontrols hm
    simp only [withNonce] at hbytes
    have hlaw := hprepare hprep
    split_ifs at hlaw ⊢ with hedit
    · obtain ⟨doc, hk, hdoc, hnext, hrev⟩ := hlaw
      exact ⟨_, doc, hbytes, hk, (hstamp ..).trans hdoc, hmanifest.trans hnext, hrev⟩
    · refine ⟨hmanifest.trans hlaw.2, fun e he => ?_⟩
      change e ∈ σ.bytes at he
      rw [hbytes, List.mem_singleton] at he
      subst he
      exact hlaw.1
  · have hnot : ∀ c, job ≠ .control c := fun c hj => hc ⟨c, hj⟩
    have hedit : r.edits job = false := by
      cases hj : r.edits job with
      | false => rfl
      | true => exact absurd (hedits job hj) hc
    simp only [hedit, Bool.false_eq_true, if_false]
    refine ⟨hcontrols (Job.manifest_controls hm hnot), fun e he => ?_⟩
    obtain ⟨e₀, he₀, heq⟩ := mem_withNonce (hbytes ▸ he)
    have hk := Job.entries_kind hes hnot e₀ he₀
    rw [congrArg LogEntry.kind heq]
    intro hkeq
    simp only at hkeq
    rw [hkeq] at hk
    exact hk.elim hkind.1 fun hk => hk.elim hkind.2.1 hkind.2.2

theorem accessRecord_lawful : accessRecord.Lawful := by
  refine ControlRecord.lawful (fun h => congrArg Prod.fst h) (by simp [accessRecord]) ?_
    (fun _ _ _ _ _ => rfl) ?_
  · intro job hj
    cases job <;> simp [accessRecord] at hj ⊢
  · intro c b next template t hprep
    cases c with
    | settings toml author message =>
      cases hprep
      simp [accessRecord]
    | access edited ifRevision =>
      have hedit : accessRecord.edits (.control (.access edited ifRevision)) = true := rfl
      rw [if_pos hedit]
      simp only [Control.prepare] at hprep
      split at hprep
      · cases hprep
        exact ⟨_, rfl, rfl, rfl, rfl⟩
      · split_ifs at hprep
        cases hprep
        exact ⟨_, rfl, rfl, rfl, rfl⟩
    | accounts events author =>
      cases hprep
      simp [accessRecord]

theorem settingsRecord_lawful : settingsRecord.Lawful := by
  refine ControlRecord.lawful (fun h => congrArg Prod.snd h) (by simp [settingsRecord]) ?_
    (fun _ _ _ _ _ => rfl) ?_
  · intro job hj
    cases job <;> simp [settingsRecord] at hj ⊢
  · intro c b next template t hprep
    cases c with
    | settings toml author message =>
      cases hprep
      exact ⟨_, rfl, rfl, rfl, rfl⟩
    | access edited ifRevision =>
      have hedit : settingsRecord.edits (.control (.access edited ifRevision)) = false := rfl
      rw [if_neg (by simp [hedit])]
      simp only [Control.prepare] at hprep
      split at hprep
      · cases hprep
        exact ⟨by simp [settingsRecord], rfl⟩
      · split_ifs at hprep
        cases hprep
        exact ⟨by simp [settingsRecord], rfl⟩
    | accounts events author =>
      cases hprep
      simp [settingsRecord]

/-- The generation commits an access edit made against this revision. -/
def Generation.EditsFrom (g : Generation) (revision : ℕ) : Prop :=
  ∃ o edited, g.origin = some o ∧ o.job = .control (.access edited (some revision))

/-- An edit passes its precondition at its basis only. -/
theorem access_revision_of_edit {o : Origin} {edited : RepoAccess} {revision : ℕ}
    {now : Timestamp} {seg : LogSegmentRef} {m : Manifest}
    (hjob : o.job = .control (.access edited (some revision)))
    (h : o.job.manifest o.attempt now seg = .ok m) :
    accessRecord.revisionOf o.attempt.basis.manifest = revision := by
  rw [hjob] at h
  simp only [Job.manifest, Checks.bind_eq_ok, Control.prepare] at h
  obtain ⟨r, hr, -⟩ := h
  split_ifs at hr with hne
  exact (not_not.mp hne).symm

variable {cfg : Config}

/-- The access revision never moves back, and has passed every edit committed so far. -/
theorem Chain.editsFrom_lt {g : Generation} {gens : List Generation} (h : Chain cfg (g :: gens))
    {g' : Generation} (hg' : g' ∈ g :: gens) {revision : ℕ} (hedit : g'.EditsFrom revision) :
    revision < accessRecord.revisionOf g.manifest := by
  generalize hl : g :: gens = l at h
  induction h generalizing g gens with
  | created access now writer version =>
    cases hl
    cases List.mem_singleton.mp hg'
    obtain ⟨o, edited, ho, -⟩ := hedit
    cases ho
  | append older o now m version basis wrote burned edit newer ih =>
    cases hl
    change revision < accessRecord.revisionOf m
    have hlaw := accessRecord_lawful.append wrote edit
    have hstep : accessRecord.revisionOf o.attempt.basis.manifest ≤ accessRecord.revisionOf m := by
      split_ifs at hlaw
      · obtain ⟨e, doc, -, -, -, hdoc, hrev⟩ := hlaw
        have hrev' : accessRecord.revisionOf m = accessRecord.revision doc := by
          simp [ControlRecord.revisionOf, hdoc]
        omega
      · rw [ControlRecord.revisionOf, ControlRecord.revisionOf, hlaw.1]
    rcases List.mem_cons.mp hg' with rfl | hold
    · obtain ⟨o', edited, ho, hjob⟩ := hedit
      cases ho
      have hedits : accessRecord.edits o.job = true := by
        rw [hjob]
        rfl
      rw [if_pos hedits] at hlaw
      obtain ⟨e, doc, -, -, -, hdoc, hrev⟩ := hlaw
      have hbasis := access_revision_of_edit hjob edit
      have hrev' : accessRecord.revisionOf m = accessRecord.revision doc := by
        simp [ControlRecord.revisionOf, hdoc]
      omega
    · have hlt := ih hold rfl
      rw [← basis] at hlt
      omega
  | rewrite older job policy writer now m version edit folded newer ih =>
    cases hl
    rcases List.mem_cons.mp hg' with rfl | hold
    · obtain ⟨o', edited, ho, -⟩ := hedit
      cases ho
    · have hkept := accessRecord_lawful.rewrite edit
      rw [ControlRecord.revisionOf, hkept]
      exact ih hold rfl

/-- Of the edits made against one revision a chain holds one at most. -/
theorem Chain.editsFrom_unique {l : List Generation} (h : Chain cfg l) {g₁ g₂ : Generation}
    (h₁ : g₁ ∈ l) (h₂ : g₂ ∈ l) {revision : ℕ} (hedit₁ : g₁.EditsFrom revision)
    (hedit₂ : g₂.EditsFrom revision) : g₁ = g₂ := by
  induction h with
  | created access now writer version =>
    rw [List.mem_singleton.mp h₁, List.mem_singleton.mp h₂]
  | @append g gens older o now m version basis wrote burned edit newer ih =>
    -- A second edit would find its revision already passed at its own basis.
    have hnew : ∀ g' ∈ g :: gens, g'.EditsFrom revision →
        ¬ (⟨m, version, some o⟩ : Generation).EditsFrom revision := by
      rintro g' hold hedit ⟨o', edited, ho, hjob⟩
      cases ho
      have hlt := older.editsFrom_lt hold hedit
      have hbasis := access_revision_of_edit hjob edit
      rw [basis] at hbasis
      omega
    rcases List.mem_cons.mp h₁ with rfl | hold₁ <;> rcases List.mem_cons.mp h₂ with rfl | hold₂
    · rfl
    · exact absurd hedit₁ (hnew _ hold₂ hedit₂)
    · exact absurd hedit₂ (hnew _ hold₁ hedit₁)
    · exact ih hold₁ hold₂
  | rewrite older job policy writer now m version edit folded newer ih =>
    have hnone : ¬ (⟨m, version, none⟩ : Generation).EditsFrom revision := by
      rintro ⟨o, edited, ho, -⟩
      cases ho
    rcases List.mem_cons.mp h₁ with rfl | hold₁
    · exact absurd hedit₁ hnone
    · rcases List.mem_cons.mp h₂ with rfl | hold₂
      · exact absurd hedit₂ hnone
      · exact ih hold₁ hold₂

/-- In every run the access and settings records move by one revision for each committed edit
and equal the last one logged, and edits made against one revision exclude each other. -/
theorem control_edits_linear {access : Option RepoAccess} {now : Timestamp} {writer : String}
    {w : World} {actions : List Action}
    (hrun : Runs.run (step cfg) (World.created (createdManifest access now writer)) actions =
      some w) :
    (∀ g gens, (g :: gens) <:+ w.gens →
      accessRecord.Linear access g.manifest (g :: gens) ∧
      settingsRecord.Linear none g.manifest (g :: gens)) ∧
    ∀ revision, ∀ g₁ ∈ w.gens, ∀ g₂ ∈ w.gens,
      g₁.EditsFrom revision → g₂.EditsFrom revision → g₁ = g₂ := by
  have hchain := (inv_run hrun).chain
  refine ⟨fun g gens hsuf => ?_, fun revision g₁ h₁ g₂ h₂ => hchain.editsFrom_unique h₁ h₂⟩
  have hfirst : [(⟨createdManifest access now writer, 0, none⟩ : Generation)] <:+ g :: gens := by
    refine List.suffix_of_suffix_length_le (run_gens hrun) hsuf ?_
    simp
  have hsub := hchain.suffix hsuf
  exact ⟨accessRecord_lawful.linear hsub hfirst, settingsRecord_lawful.linear hsub hfirst⟩

end Laws

section Race

attribute [local instance] Text.asciiTables

/-- The access record one of two racing admins writes. -/
def openTo (author : String) (visibility : Visibility) : RepoAccess :=
  ⟨visibility, .empty, 0, author, none, ""⟩

/-- Two admins edit the same revision: one commits, the other is told to reload. -/
def adminRace : List Action :=
  let first := createdManifest none ⟨1, 0⟩ "w"
  let second : Manifest :=
    { first with
      headSeq := 1
      logSegments := [segmentRef 1 1 1]
      updatedAt := some ⟨3, 0⟩
      revision := 2
      access := some { openTo "a" .privateRepo with revision := 1, updatedAt := some ⟨2, 0⟩ } }
  let basis : Manifest → ℕ → Attempt := fun m v =>
    ⟨⟨m, some v, .new .fresh, .empty, none⟩, ⟨"", .empty⟩, "w", ⟨2, 0⟩⟩
  [.start 1 (.control (.access (openTo "a" .privateRepo) (some 0))),
    .start 2 (.control (.access (openTo "b" .publicRepo) (some 0))),
    .capture 1 (basis first 0), .capture 2 (basis first 0),
    .claim 1 "x" (fun _ => ⟨2, 0⟩) .delivered, .swap 1 ⟨3, 0⟩ .delivered, .finish 1,
    .claim 2 "y" (fun _ => ⟨2, 0⟩) .delivered, .probe 2 none, .capture 2 (basis second 2)]

theorem control_edits_linear_race :
    ∃ w : World, w.gens.length = 2 ∧ accessRecord.commits w.gens = 1 ∧
      (∀ g gens, (g :: gens) <:+ w.gens → accessRecord.Linear none g.manifest (g :: gens)) ∧
      ∀ revision, ∀ g₁ ∈ w.gens, ∀ g₂ ∈ w.gens,
        g₁.EditsFrom revision → g₂.EditsFrom revision → g₁ = g₂ := by
  have hsome : ((Runs.run (step ⟨3, List.length⟩)
      (World.created (createdManifest none ⟨1, 0⟩ "w")) adminRace).map fun w =>
        (w.gens.length, accessRecord.commits w.gens)) = some (2, 1) := by decide
  obtain ⟨w, hrun, heq⟩ := Option.map_eq_some_iff.mp hsome
  simp only [Prod.mk.injEq] at heq
  obtain ⟨hlinear, hunique⟩ := control_edits_linear hrun
  exact ⟨w, heq.1, heq.2, fun g gens hsuf => (hlinear g gens hsuf).1, hunique⟩

end Race

end Walgit
