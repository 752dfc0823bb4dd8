import Walgit.ImportRuns

/-!
# What imports publish

The marker of an import promises only what is done, so a run that goes on from it publishes
nothing that is not there, and nothing over a manifest it did not read.
-/
namespace Walgit.Importing

section Candidates

/-- A candidate that was put is there. -/
theorem putCandidate_spec {b b' : Bucket} {key : String} {item : Item}
    (h : putCandidate b key item = some b') : b.Grows b' ∧ (b'.objects key).isSome := by
  unfold putCandidate at h
  split at h
  · cases h
    obtain ⟨-, rfl⟩ := ObjectStore.put_eq_some ‹_›
    exact ⟨.write b key item, b.write_isSome key item⟩
  · split_ifs at h with hsame
    cases h
    refine ⟨.refl b, ?_⟩
    cases hobj : b.objects key with
    | none => simp [hobj] at hsame
    | some p => rfl

end Candidates

section Invariant

variable (t : Tools)

/-- What a marker promises: what it names is there, its refs were verified if it says so, and it
goes by the manifest it started from. -/
structure MarkerOk (b : Bucket) (verified : List Request) (m : ImportMarker) : Prop where
  there : ∀ k ∈ m.uploaded, (b.objects k).isSome
  checked : ImportPhase.verified.rank ≤ m.phase.rank →
    ∃ q ∈ verified, q.repo = m.repo ∧ t.tipsHash q.refs = m.tipsHash
  seq : m.seq = m.baseHeadSeq + 1
  absent : m.baseManifestVersion = none → m.baseHeadSeq = 0
  base : ∀ v, m.baseManifestVersion = some v → v < b.next ∧
    ∀ item, b.objects manifestKey = some (v, item) →
      ∃ man, item = .manifest man ∧ man.headSeq = m.baseHeadSeq

/-- All objects of the packs are named. -/
def AllNamed (uploaded : List String) (packs : List LocalPack) : Prop :=
  ∀ p ∈ packs, ∀ o ∈ p.objects, o.1 ∈ uploaded

/-- How far the uploads are, with the key of an object that landed unnamed. -/
def Progress (b : Bucket) (r : Run) (present : List String) (os : List (String × ℕ))
    (ps : List LocalPack) (landed : List String) : Prop :=
  ∃ done p before, r.packs = done ++ p :: ps ∧ AllNamed r.marker.uploaded done ∧
    p.objects.map Prod.fst = before ++ landed ++ os.map Prod.fst ∧
    (∀ k ∈ before, k ∈ r.marker.uploaded) ∧ ∀ k ∈ present ++ landed, (b.objects k).isSome

def StageOk (b : Bucket) (r : Run) : Prop :=
  match r.stage with
  | .verify => True
  | .sideFiles => True
  | .history => True
  | .packs ps => ∃ done, r.packs = done ++ ps ∧ AllNamed r.marker.uploaded done
  | .objects present os ps => Progress b r present os ps []
  | .landed key present os ps => Progress b r present os ps [key]
  | .candidates => AllNamed r.marker.uploaded r.packs
  | .checkpoint _ _ =>
    AllNamed r.marker.uploaded r.packs ∧ (b.objects (t.refsKey r.request.refs)).isSome
  | .publish _ =>
    AllNamed r.marker.uploaded r.packs ∧ (b.objects (t.refsKey r.request.refs)).isSome

/-- A run goes by its marker, and its base is what the bucket held at that version. -/
structure RunOk (b : Bucket) (begun verified : List Request) (r : Run) : Prop where
  marker : MarkerOk t b verified r.marker
  begun : r.request ∈ begun
  repo : r.marker.repo = r.request.repo
  tips : r.marker.tipsHash = t.tipsHash r.request.refs
  version : r.marker.baseManifestVersion = r.base.map Prod.fst
  head : r.marker.baseHeadSeq = headSeq r.base
  current : ∀ v man, r.base = some (v, man) → v < b.next ∧
    ∀ item, b.objects manifestKey = some (v, item) → item = .manifest man
  past : r.stage ≠ .verify → ImportPhase.verified.rank ≤ r.marker.phase.rank
  stage : StageOk t b r

/-- What holds of an import that was published. -/
structure PublishedOk (b : Bucket) (begun verified : List Request) (p : Published) : Prop where
  made : p.made.manifest (p.base.map Prod.snd) = .ok (some p.result)
  request : ∃ now, p.made = p.request.made t p.packs (headSeq p.base + 1) now
  swapped : p.before = p.base.map fun b => (b.1, .manifest b.2)
  begun : p.request ∈ begun
  there : ∀ l ∈ p.packs, ∀ o ∈ l.objects, (b.objects o.1).isSome
  refs : (b.objects (t.refsKey p.request.refs)).isSome
  checked : ∃ q ∈ verified, q.repo = p.request.repo ∧ t.tipsHash q.refs = t.tipsHash p.request.refs

structure SiteOk (s : Site) : Prop where
  bounded : s.bucket.Bounded
  marker : ∀ m, s.marker = some m → MarkerOk t s.bucket s.verified m
  run : ∀ r, s.run = some r → RunOk t s.bucket s.begun s.verified r
  published : ∀ p ∈ s.published, PublishedOk t s.bucket s.begun s.verified p
  verified : ∀ q ∈ s.verified, q ∈ s.begun ∧
    t.verifyRefsInPacks q.packs q.tips q.verifyClosure = true

variable {t} {b b' : Bucket} {begun begun' verified verified' : List Request}

theorem MarkerOk.grow {m : ImportMarker} (h : MarkerOk t b verified m) (hb : b.Grows b')
    (hv : ∀ q ∈ verified, q ∈ verified') : MarkerOk t b' verified' m := by
  refine ⟨fun k hk => hb.keys k (h.there k hk), fun hrank => ?_, h.seq, h.absent, fun v hv => ?_⟩
  · obtain ⟨q, hq, hsame⟩ := h.checked hrank
    exact ⟨q, hv q hq, hsame⟩
  · obtain ⟨hlt, hbase⟩ := h.base v hv
    exact ⟨Nat.lt_of_lt_of_le hlt hb.next,
      fun item hitem => hbase item (hb.objects_of_lt hlt hitem)⟩

theorem Progress.grow {r : Run} {present landed : List String} {os : List (String × ℕ)}
    {ps : List LocalPack} (h : Progress b r present os ps landed) (hb : b.Grows b') :
    Progress b' r present os ps landed := by
  obtain ⟨done, p, before, hpacks, hdone, hobjects, hbefore, hpresent⟩ := h
  exact ⟨done, p, before, hpacks, hdone, hobjects, hbefore, fun k hk => hb.keys k (hpresent k hk)⟩

theorem StageOk.grow {r : Run} (h : StageOk t b r) (hb : b.Grows b') : StageOk t b' r := by
  unfold StageOk at h ⊢
  cases hstage : r.stage with
  | verify | sideFiles | history => trivial
  | packs | candidates =>
    rw [hstage] at h
    exact h
  | objects | landed =>
    rw [hstage] at h
    exact Progress.grow h hb
  | checkpoint | publish =>
    rw [hstage] at h
    exact ⟨h.1, hb.keys _ h.2⟩

theorem RunOk.grow {r : Run} (h : RunOk t b begun verified r) (hb : b.Grows b')
    (hg : ∀ q ∈ begun, q ∈ begun') (hv : ∀ q ∈ verified, q ∈ verified') :
    RunOk t b' begun' verified' r where
  marker := h.marker.grow hb hv
  begun := hg _ h.begun
  repo := h.repo
  tips := h.tips
  version := h.version
  head := h.head
  current := fun v man hbase => by
    obtain ⟨hlt, hsame⟩ := h.current v man hbase
    exact ⟨Nat.lt_of_lt_of_le hlt hb.next,
      fun item hitem => hsame item (hb.objects_of_lt hlt hitem)⟩
  past := h.past
  stage := h.stage.grow hb

theorem PublishedOk.grow {p : Published} (h : PublishedOk t b begun verified p) (hb : b.Grows b')
    (hg : ∀ q ∈ begun, q ∈ begun') (hv : ∀ q ∈ verified, q ∈ verified') :
    PublishedOk t b' begun' verified' p where
  made := h.made
  request := h.request
  swapped := h.swapped
  begun := hg _ h.begun
  there := fun l hl o ho => hb.keys _ (h.there l hl o ho)
  refs := hb.keys _ h.refs
  checked := by
    obtain ⟨q, hq, hsame⟩ := h.checked
    exact ⟨q, hv q hq, hsame⟩

/-- A step that lets the past stand and the bucket grow keeps the invariant, if what it leaves of
the marker and the run is in order. -/
theorem SiteOk.keep {s s' : Site} (h : SiteOk t s) (hb : s.bucket.Grows s'.bucket)
    (hg : ∀ q ∈ s.begun, q ∈ s'.begun) (hp : s'.published = s.published)
    (hv : ∀ q ∈ s.verified, q ∈ s'.verified)
    (hnew : ∀ q ∈ s'.verified, q ∈ s.verified ∨ q ∈ s'.begun ∧
      t.verifyRefsInPacks q.packs q.tips q.verifyClosure = true)
    (hmarker : s'.marker = s.marker ∨ s'.marker = none ∨
      ∃ r, s'.run = some r ∧ s'.marker = some r.marker)
    (hrun : ∀ r, s'.run = some r → RunOk t s'.bucket s'.begun s'.verified r) : SiteOk t s' := by
  refine ⟨hb.bounded h.bounded, fun m hm => ?_, hrun, fun p hpm => ?_, fun q hq => ?_⟩
  · rcases hmarker with hsame | hnone | ⟨r, hr, hrm⟩
    · exact (h.marker m (hsame ▸ hm)).grow hb hv
    · rw [hnone] at hm
      cases hm
    · rw [hrm] at hm
      cases hm
      exact (hrun r hr).marker
  · exact (h.published p (hp ▸ hpm)).grow hb hg hv
  · rcases hnew q hq with hold | hok
    · obtain ⟨hmem, hok⟩ := h.verified q hold
      exact ⟨hg q hmem, hok⟩
    · exact hok

theorem SiteOk.halt {s : Site} (h : SiteOk t s) : SiteOk t s.halt :=
  h.keep (.refl _) (fun _ => id) rfl (fun _ => id) (fun _ => Or.inl) (Or.inl rfl)
    fun r hr => by cases hr

theorem SiteOk.go {s : Site} (h : SiteOk t s) {r : Run}
    (hr : RunOk t s.bucket s.begun s.verified r) : SiteOk t (s.go r) :=
  h.keep (.refl _) (fun _ => id) rfl (fun _ => id) (fun _ => Or.inl) (Or.inl rfl)
    fun r' hr' => by cases hr'; exact hr

theorem SiteOk.save {s : Site} (h : SiteOk t s) {r : Run}
    (hr : RunOk t s.bucket s.begun s.verified r) : SiteOk t (s.save r) :=
  h.keep (.refl _) (fun _ => id) rfl (fun _ => id) (fun _ => Or.inl) (Or.inr (Or.inr ⟨r, rfl, rfl⟩))
    fun r' hr' => by cases hr'; exact hr

theorem SiteOk.grow {s : Site} (h : SiteOk t s) {b : Bucket} (hb : s.bucket.Grows b) :
    SiteOk t { s with bucket := b } :=
  h.keep hb (fun _ => id) rfl (fun _ => id) (fun _ => Or.inl) (Or.inl rfl)
    fun r hr => (h.run r hr).grow hb (fun _ => id) fun _ => id

theorem decideResume_resume {marker : Option ImportMarker} {repo tips : String}
    {current : Option ℕ} {force : Bool} {m : ImportMarker}
    (h : decideResume marker repo tips current force = .resume m) :
    marker = some m ∧ m.repo = repo ∧ m.tipsHash = tips ∧ m.baseManifestVersion = current := by
  unfold decideResume at h
  cases marker with
  | none => cases h
  | some m' =>
    simp only at h
    split_ifs at h with hintent hbase
    cases h
    rw [not_or, not_not, not_not] at hintent
    exact ⟨rfl, hintent.1, hintent.2, not_not.mp hbase⟩

theorem readManifest_some {b : Bucket} {v : ℕ} {man : Manifest}
    (h : readManifest b = some (some (v, man))) :
    b.objects manifestKey = some (v, .manifest man) := by
  unfold readManifest at h
  split at h
  · cases h
  · cases h
    assumption
  · cases h

theorem begin_ok {s : Site} (h : SiteOk t s) (q : Request) : SiteOk t (s.begin t q) := by
  have hs : SiteOk t { s with begun := q :: s.begun } :=
    h.keep (.refl _) (fun _ => List.mem_cons_of_mem q) rfl (fun _ => id) (fun _ => Or.inl) (Or.inl rfl)
      fun r hr => (h.run r hr).grow (.refl _) (fun _ => List.mem_cons_of_mem q) fun _ => id
  rw [Site.begin]
  cases hread : readManifest s.bucket with
  | none => exact hs
  | some base =>
    have hcurrent : ∀ v man, base = some (v, man) → v < s.bucket.next ∧
        ∀ item, s.bucket.objects manifestKey = some (v, item) → item = .manifest man := by
      rintro v man rfl
      have hobj := readManifest_some hread
      refine ⟨h.bounded _ _ _ hobj, fun item hitem => ?_⟩
      rw [hobj] at hitem
      cases hitem
      rfl
    simp only
    split_ifs with hpacks hheld hreplace
    · exact hs
    · exact hs.keep (.refl _) (fun _ => id) rfl (fun _ => id) (fun _ => Or.inl) (Or.inr (Or.inl rfl))
        hs.run
    · exact hs
    · cases hdecide : decideResume s.marker q.repo (t.tipsHash q.refs) (base.map Prod.fst)
        q.force with
      | refuse startedAt now => exact hs
      | resume m =>
        obtain ⟨hm, hrepo, htips, hversion⟩ := decideResume_resume hdecide
        have hmarker := hs.marker m hm
        refine hs.go ⟨hmarker, List.mem_cons_self, hrepo, htips, hversion, ?_, hcurrent,
          fun hne => absurd rfl hne, trivial⟩
        cases hbase : base with
        | none =>
          rw [hbase] at hversion
          exact hmarker.absent hversion
        | some p =>
          obtain ⟨v, man⟩ := p
          rw [hbase] at hversion hread
          obtain ⟨man', hman, hhead⟩ := (hmarker.base v hversion).2 _ (readManifest_some hread)
          cases hman
          exact hhead.symm
      | fresh =>
        refine hs.save ⟨⟨by simp [startMarker], fun hrank => absurd hrank (Nat.not_succ_le_zero _), rfl,
          fun hnone => ?_, fun v hv => ?_⟩, List.mem_cons_self, rfl, rfl, rfl, rfl, hcurrent,
          fun hne => absurd rfl hne, trivial⟩
        · have hbase : base = none := by simpa [startMarker] using hnone
          simp [startMarker, headSeq, hbase]
        · obtain ⟨p, hp, rfl⟩ := Option.map_eq_some_iff.mp hv
          obtain ⟨hlt, hsame⟩ := hcurrent p.1 p.2 hp
          refine ⟨hlt, fun item hitem => ⟨p.2, hsame item hitem, ?_⟩⟩
          simp [startMarker, headSeq, hp]

theorem MarkerOk.phase {m : ImportMarker} (h : MarkerOk t b verified m) (phase : ImportPhase)
    (hpast : ImportPhase.verified.rank ≤ m.phase.rank) :
    MarkerOk t b verified (m.complete phase) :=
  ⟨h.there, fun _ => h.checked hpast, h.seq, h.absent, h.base⟩

theorem MarkerOk.land {m : ImportMarker} (h : MarkerOk t b verified m) {key : String}
    (hkey : (b.objects key).isSome) : MarkerOk t b verified (m.land key) := by
  refine ⟨fun k hk => ?_, h.checked, h.seq, h.absent, h.base⟩
  rcases List.mem_append.mp hk with hk | hk
  · exact h.there k hk
  · rw [List.mem_singleton.mp hk]
    exact hkey

/-- What a marker stands for, and what it goes by. -/
def ImportMarker.intent (m : ImportMarker) : String × String × Option ℕ × ℕ :=
  (m.repo, m.tipsHash, m.baseManifestVersion, m.baseHeadSeq)

/-- A run in order goes on with another marker of its own, other packs and another stage. -/
theorem RunOk.move {r : Run} (h : RunOk t b begun verified r) {m : ImportMarker} {stage : Stage}
    (packs : List LocalPack) (uploaded skipped : ℕ) (hm : MarkerOk t b verified m)
    (hsame : m.intent = r.marker.intent) (hpast : ImportPhase.verified.rank ≤ m.phase.rank)
    (hstage : StageOk t b ⟨r.request, r.base, m, packs, stage, uploaded, skipped⟩) :
    RunOk t b begun verified ⟨r.request, r.base, m, packs, stage, uploaded, skipped⟩ := by
  simp only [ImportMarker.intent, Prod.mk.injEq] at hsame
  obtain ⟨hrepo, htips, hversion, hhead⟩ := hsame
  exact ⟨hm, h.begun, hrepo.trans h.repo, htips.trans h.tips, hversion.trans h.version,
    hhead.trans h.head, h.current, fun _ => hpast, hstage⟩

theorem verify_ok {s : Site} {r : Run} (h : SiteOk t s) (hr : s.run = some r) :
    SiteOk t (s.verify t r) := by
  have hrun := h.run r hr
  rw [Site.verify]
  split_ifs with hrank hcheck
  · have hsub : ∀ q ∈ s.verified, q ∈ r.request :: s.verified :=
      fun q hq => List.mem_cons_of_mem _ hq
    have hgrown := hrun.grow (.refl _) (fun _ => id) hsub
    refine h.keep (.refl _) (fun _ => id) rfl hsub (fun q hq => ?_)
      (Or.inr (Or.inr ⟨_, rfl, rfl⟩)) fun r' hr' => ?_
    · rcases List.mem_cons.mp hq with rfl | hq
      · exact Or.inr ⟨hrun.begun, hcheck⟩
      · exact Or.inl hq
    · cases hr'
      refine hgrown.move _ _ _ ?_ rfl (Nat.le_refl _) trivial
      exact ⟨hgrown.marker.there,
        fun _ => ⟨r.request, List.mem_cons_self, hrun.repo.symm, hrun.tips.symm⟩,
        hgrown.marker.seq, hgrown.marker.absent, hgrown.marker.base⟩
  · exact h.halt
  · exact h.go (hrun.move _ _ _ hrun.marker rfl (Nat.le_of_not_lt hrank) trivial)

theorem sideFiles_ok {s : Site} {r : Run} (h : SiteOk t s) (hr : s.run = some r)
    (hstage : r.stage = .sideFiles) (size : ℕ) : SiteOk t (s.sideFiles r size) := by
  have hrun := h.run r hr
  have hpast := hrun.past (by simp [hstage])
  rw [Site.sideFiles]
  split_ifs
  · exact h.save (hrun.move _ _ _ (hrun.marker.phase _ hpast) rfl (Nat.le_of_ble_eq_true rfl) trivial)
  · exact h.go (hrun.move _ _ _ hrun.marker rfl hpast trivial)

theorem history_ok {s : Site} {r : Run} (h : SiteOk t s) (hr : s.run = some r)
    (hstage : r.stage = .history) (pack : Option LocalPack) : SiteOk t (s.history r pack) := by
  have hrun := h.run r hr
  have hpast := hrun.past (by simp [hstage])
  have hnamed : ∀ uploaded, AllNamed uploaded [] := fun uploaded p hp => by cases hp
  rw [Site.history]
  simp only
  split
  · rename_i p _
    have hmarker : MarkerOk t s.bucket s.verified { r.marker with historyPack := some p.checksum } :=
      ⟨hrun.marker.there, hrun.marker.checked, hrun.marker.seq, hrun.marker.absent,
        hrun.marker.base⟩
    split_ifs
    · exact h.save (hrun.move _ _ _ (hmarker.phase _ hpast) rfl (Nat.le_of_ble_eq_true rfl)
        ⟨[], rfl, hnamed _⟩)
    · exact h.go (hrun.move _ _ _ hmarker rfl hpast ⟨[], rfl, hnamed _⟩)
  · split_ifs
    · exact h.halt
    · exact h.save (hrun.move _ _ _ (hrun.marker.phase _ hpast) rfl (Nat.le_of_ble_eq_true rfl)
        ⟨[], rfl, hnamed _⟩)
    · exact h.go (hrun.move _ _ _ hrun.marker rfl hpast ⟨[], rfl, hnamed _⟩)

theorem Progress.there {r : Run} {present landed : List String} {os : List (String × ℕ)}
    {ps : List LocalPack} (h : Progress b r present os ps landed) {key : String}
    (hkey : key ∈ present ++ landed) : (b.objects key).isSome := by
  obtain ⟨-, -, -, -, -, -, -, hthere⟩ := h
  exact hthere key hkey

/-- The next object is named by the marker. -/
theorem Progress.name {r r' : Run} {present landed : List String} {key : String}
    {left os : List (String × ℕ)} {ps : List LocalPack} (h : Progress b r present left ps landed)
    (hnext : landed ++ left.map Prod.fst = key :: os.map Prod.fst) (hpacks : r'.packs = r.packs)
    (hsub : ∀ k ∈ r.marker.uploaded, k ∈ r'.marker.uploaded) (hkey : key ∈ r'.marker.uploaded) :
    Progress b r' present os ps [] := by
  obtain ⟨done, p, before, hsplit, hdone, hobjects, hbefore, hthere⟩ := h
  refine ⟨done, p, before ++ [key], hpacks.trans hsplit, fun l hl o ho => hsub _ (hdone l hl o ho),
    ?_, fun k hk => ?_, fun k hk => hthere k (List.mem_append_left _ (by simpa using hk))⟩
  · rw [hobjects, List.append_assoc, hnext]
    simp
  · rcases List.mem_append.mp hk with hk | hk
    · exact hsub k (hbefore k hk)
    · rwa [List.mem_singleton.mp hk]

/-- One step of the uploads. -/
theorem upload_ok {s s' : Site} {r : Run} (h : SiteOk t s) (hr : s.run = some r)
    (hs' : s.upload r = some s') : SiteOk t s' := by
  have hrun := h.run r hr
  have hstage := hrun.stage
  have hland : ∀ key, ∀ k ∈ r.marker.uploaded, k ∈ (r.marker.land key).uploaded :=
    fun key k hk => List.mem_append_left _ hk
  have hlanded : ∀ key, key ∈ (r.marker.land key).uploaded :=
    fun key => List.mem_append_right _ (List.mem_singleton_self key)
  unfold StageOk at hstage
  unfold Site.upload at hs'
  cases hat : r.stage with
  | packs left =>
    have hpast := hrun.past (by simp [hat])
    rw [hat] at hs' hstage
    obtain ⟨done, hpacks, hdone⟩ := hstage
    cases left with
    | nil =>
      have hall : AllNamed r.marker.uploaded r.packs := by
        rw [hpacks, List.append_nil]
        exact hdone
      simp only at hs'
      split_ifs at hs' <;> cases hs'
      · exact h.save (hrun.move _ _ _ (hrun.marker.phase _ hpast) rfl (Nat.le_of_ble_eq_true rfl) hall)
      · exact h.go (hrun.move _ _ _ hrun.marker rfl hpast hall)
    | cons p ps =>
      cases hs'
      refine h.go (hrun.move _ _ _ hrun.marker rfl hpast
        ⟨done, p, [], hpacks, hdone, rfl, by simp, fun k hk => ?_⟩)
      rw [List.append_nil] at hk
      rcases List.mem_append.mp hk with hk | hk
      · exact hrun.marker.there k hk
      · obtain ⟨o, ho, rfl⟩ := List.mem_map.mp hk
        have hholds := (List.mem_filter.mp ho).2
        rw [Bool.and_eq_true] at hholds
        unfold holds at hholds
        cases hobj : s.bucket.objects o.1 with
        | none => simp [hobj] at hholds
        | some item => rfl
  | objects present left ps =>
    have hpast := hrun.past (by simp [hat])
    rw [hat] at hs' hstage
    cases left with
    | nil =>
      obtain ⟨done, p, before, hpacks, hdone, hobjects, hbefore, -⟩ := hstage
      cases hs'
      refine h.go (hrun.move _ _ _ hrun.marker rfl hpast
        ⟨done ++ [p], by simp [hpacks], fun l hl o ho => ?_⟩)
      rcases List.mem_append.mp hl with hl | hl
      · exact hdone l hl o ho
      · rw [List.mem_singleton.mp hl] at ho
        refine hbefore o.1 ?_
        have hmem := List.mem_map_of_mem (f := Prod.fst) ho
        rw [hobjects] at hmem
        simpa using hmem
    | cons o os =>
      simp only at hs'
      split_ifs at hs' with hmem hnamed <;> cases hs'
      · exact h.go (hrun.move _ _ _ hrun.marker rfl hpast
          (Progress.name hstage rfl rfl (fun _ => id) hnamed))
      · have hkey := Progress.there hstage (List.mem_append_left _ hmem)
        exact h.go (hrun.move _ _ _ (hrun.marker.land hkey) rfl hpast
          (Progress.name hstage rfl rfl (hland o.1) (hlanded o.1)))
      · obtain ⟨done, p, before, hpacks, hdone, hobjects, hbefore, hthere⟩ := hstage
        have hb := ObjectStore.Grows.write s.bucket o.1 (.file o.2)
        have hgrown := (h.grow hb).run r hr
        refine (h.grow hb).go (hgrown.move _ _ _ hgrown.marker rfl hpast
          ⟨done, p, before, hpacks, hdone, by simpa using hobjects, hbefore, fun k hk => ?_⟩)
        rcases List.mem_append.mp hk with hk | hk
        · exact hb.keys k (hthere k (List.mem_append_left _ hk))
        · rw [List.mem_singleton.mp hk]
          exact s.bucket.write_isSome _ _
  | landed key present os ps =>
    rw [hat] at hs' hstage
    have hkey := Progress.there hstage (List.mem_append_right _ (List.mem_singleton_self key))
    cases hs'
    exact h.save (hrun.move _ _ _ (hrun.marker.land hkey) rfl (hrun.past (by simp [hat]))
      (Progress.name hstage rfl rfl (hland key) (hlanded key)))
  | verify | sideFiles | history | candidates | checkpoint | publish => simp [hat] at hs'

theorem candidates_ok {s : Site} {r : Run} (h : SiteOk t s) (hr : s.run = some r)
    (hat : r.stage = .candidates) (now : Timestamp) : SiteOk t (s.candidates t r now) := by
  have hrun := h.run r hr
  have hstage := hrun.stage
  unfold StageOk at hstage
  rw [hat] at hstage
  rw [Site.candidates]
  split
  · exact h.halt
  · split
    · exact h.halt
    · rename_i b hput
      obtain ⟨hb, hthere⟩ := putCandidate_spec hput
      have hgrown := (h.grow hb).run r hr
      exact (h.grow hb).go (hgrown.move _ _ _ hgrown.marker rfl (hrun.past (by simp [hat]))
        ⟨hstage, hthere⟩)

theorem checkpoint_ok {s : Site} {r : Run} (h : SiteOk t s) (hr : s.run = some r)
    {packs : List PackRef} {now : Timestamp} (hat : r.stage = .checkpoint packs now)
    (attempt : String) : SiteOk t (s.checkpoint t r packs now attempt) := by
  have hrun := h.run r hr
  have hstage := hrun.stage
  unfold StageOk at hstage
  rw [hat] at hstage
  rw [Site.checkpoint]
  split
  · exact h.halt
  · rename_i b hput
    obtain ⟨hb, -⟩ := putCandidate_spec hput
    have hgrown := (h.grow hb).run r hr
    exact (h.grow hb).save (hgrown.move _ _ _
      (hgrown.marker.phase .checkpointPrepared (hrun.past (by simp [hat]))) rfl
      (Nat.le_of_ble_eq_true rfl) ⟨hstage.1, hb.keys _ hstage.2⟩)

theorem SiteOk.add {s : Site} (h : SiteOk t s) {p : Published}
    (hp : PublishedOk t s.bucket s.begun s.verified p) :
    SiteOk t { s with published := p :: s.published } :=
  ⟨h.bounded, h.marker, h.run, List.forall_mem_cons.mpr ⟨hp, h.published⟩, h.verified⟩

/-- The swap goes through only over the manifest that the run read. -/
theorem put_base {b b' : Bucket} {base : Option (ℕ × Manifest)} {m : Manifest}
    (hcurrent : ∀ v man, base = some (v, man) → v < b.next ∧
      ∀ item, b.objects manifestKey = some (v, item) → item = .manifest man)
    (h : b.put manifestKey (.manifest m) (updateMode base) = some b') :
    b.Grows b' ∧ b.objects manifestKey = base.map fun p => (p.1, .manifest p.2) := by
  obtain ⟨haccepts, rfl⟩ := ObjectStore.put_eq_some h
  refine ⟨.write _ _ _, ?_⟩
  cases base with
  | none => simpa [updateMode, ObjectStore.accepts] using haccepts
  | some p =>
    obtain ⟨v, man⟩ := p
    have hversion : b.version manifestKey = some v := by
      simpa [updateMode, ObjectStore.accepts] using haccepts
    obtain ⟨⟨v', item⟩, hobj, rfl⟩ := Option.map_eq_some_iff.mp hversion
    rw [hobj, (hcurrent v' man rfl).2 item hobj]
    rfl

theorem publish_ok {s : Site} {r : Run} (h : SiteOk t s) (hr : s.run = some r) {now : Timestamp}
    (hat : r.stage = .publish now) : SiteOk t (s.publish t r now) := by
  have hrun := h.run r hr
  have hstage := hrun.stage
  unfold StageOk at hstage
  rw [hat] at hstage
  obtain ⟨hnamed, hrefs⟩ := hstage
  rw [Site.publish]
  split
  · rename_i m hmade
    split
    · rename_i b hput
      obtain ⟨hb, hswapped⟩ := put_base hrun.current hput
      have hclosed : SiteOk t { s with bucket := b, marker := none, run := none } :=
        h.keep hb (fun _ => id) rfl (fun _ => id) (fun _ => Or.inl) (Or.inr (Or.inl rfl))
          fun r' hr' => by cases hr'
      refine hclosed.add ⟨hmade, ⟨now, ?_⟩, hswapped, hrun.begun, fun l hl o ho => ?_,
        hb.keys _ hrefs, ?_⟩
      · rw [hrun.marker.seq, hrun.head]
      · exact hb.keys _ (hrun.marker.there _ (hnamed l hl o ho))
      · obtain ⟨q, hq, hrepo, htips⟩ := hrun.marker.checked (hrun.past (by simp [hat]))
        exact ⟨q, hq, hrepo.trans hrun.repo, htips.trans hrun.tips⟩
    · exact h.halt
  · exact h.halt

theorem step_ok {s s' : Site} {move : Move} (h : SiteOk t s) (hs' : s.step t move = some s') :
    SiteOk t s' := by
  unfold Site.step at hs'
  cases hrun : s.run with
  | none =>
    rw [hrun] at hs'
    cases move with
    | begin q =>
      cases hs'
      exact begin_ok h q
    | other key item =>
      cases hs'
      have hwrite := h.grow (.write s.bucket key item)
      rw [hrun] at hwrite
      exact hwrite
    | _ => cases hs'
  | some r =>
    rw [hrun] at hs'
    cases move with
    | begin q => cases hs'
    | verified =>
      simp only at hs'
      split_ifs at hs' with hat
      cases hs'
      exact verify_ok h hrun
    | sideFiles size =>
      simp only at hs'
      split_ifs at hs' with hat
      cases hs'
      exact sideFiles_ok h hrun hat size
    | history pack =>
      simp only at hs'
      split_ifs at hs' with hat
      cases hs'
      exact history_ok h hrun hat pack
    | upload => exact upload_ok h hrun hs'
    | candidates now =>
      simp only at hs'
      split_ifs at hs' with hat
      cases hs'
      exact candidates_ok h hrun hat now
    | checkpoint attempt =>
      simp only at hs'
      split at hs'
      · rename_i packs now hat
        cases hs'
        exact checkpoint_ok h hrun hat attempt
      · cases hs'
    | publish =>
      simp only at hs'
      split at hs'
      · rename_i now hat
        cases hs'
        exact publish_ok h hrun hat
      · cases hs'
    | stop =>
      cases hs'
      exact h.halt
    | other key item =>
      cases hs'
      have hwrite := h.grow (.write s.bucket key item)
      rw [hrun] at hwrite
      exact hwrite

theorem runMoves_ok {s s' : Site} {moves : List Move} (h : SiteOk t s)
    (hs' : s.runMoves t moves = some s') : SiteOk t s' :=
  Checks.foldlM_some (fun _ _ _ _ hb hstep => step_ok hb hstep) h hs'

end Invariant

section Safety

/-- A bucket that no import has touched. -/
def start (b : Bucket) : Site := ⟨b, none, none, [], [], []⟩

theorem start_ok (t : Tools) {b : Bucket} (hb : b.Bounded) : SiteOk t (start b) :=
  ⟨hb, by simp [start], by simp [start], by simp [start], by simp [start]⟩

theorem retained_checksum {base : Manifest} {pack pack' : PackRef}
    (h : DirectImport.retained base pack = .ok pack') : pack'.checksum = pack.checksum := by
  unfold DirectImport.retained at h
  split at h
  · cases h
    rfl
  · rename_i previous hfind
    split_ifs at h
    cases h
    simpa using List.find?_some hfind

/-- What an import published answers the next one like it: there is nothing to do. -/
theorem manifest_held {d : DirectImport} {base : Option Manifest} {m : Manifest}
    (h : d.manifest base = .ok (some m)) (hseq : 0 < d.seq) (hhistory : d.historyPack = false) :
    d.heldBy m = true := by
  simp only [DirectImport.manifest] at h
  split at h
  · cases h
  · simp only [Checks.guard_ok, Checks.bind_eq_ok] at h
    obtain ⟨-, packs, hpacks, -, h⟩ := h
    cases h
    rw [DirectImport.heldBy, hhistory, Bool.and_eq_true, Bool.and_eq_true, List.all_eq_true]
    refine ⟨⟨fun id hid => ?_, rfl⟩, decide_eq_true hseq⟩
    obtain ⟨p, hp, rfl⟩ := List.mem_map.mp hid
    obtain ⟨p', hp', hkept⟩ := Checks.mapM_ok_mem hpacks (List.mem_filter.mp hp).1
    rw [List.any_eq_true]
    exact ⟨p', hp', by simp [retained_checksum hkept]⟩

theorem manifest_serves {d : DirectImport} {base : Option Manifest} {m : Manifest}
    (h : d.manifest base = .ok (some m)) {id : String}
    (hid : (base.getD {}).servesPack id = true) : m.servesPack id = true := by
  have hmoved := d.moved h
  rw [Manifest.servesPack_iff] at hid ⊢
  rcases hid with hlive | hretired
  · by_cases hkept : id ∈ m.checksums
    · exact Or.inl hkept
    · exact Or.inr (hmoved.recorded id hlive hlive hkept)
  · exact Or.inr ((hmoved.retired.map RetiredPack.checksum).subset hretired)

/-- One pack without side-files, and a branch. -/
def onePack : Request where
  repo := "acme/one"
  refs := ⟨.ofList [("refs/heads/main", "c0")], "refs/heads/main"⟩
  packs := [⟨"ab", 3, 2, none, none, none, 1, none⟩]
  replace := false
  force := false
  commitGraph := false
  historyPack := false
  verifyClosure := true

def plainTools : Tools := ⟨fun _ _ _ => true, fun _ => "tips", fun _ => "checkpoints/refs/0", "host"⟩

/-- The first run ends behind its first upload, the second one goes on from the marker. -/
def interrupted : List Move :=
  [.begin onePack, .verified, .sideFiles 0, .history none, .upload, .upload, .upload, .stop,
    .begin onePack, .verified, .sideFiles 0, .history none, .upload, .upload, .upload, .upload,
    .upload, .upload, .candidates default, .checkpoint "0", .publish]

end Safety

end Walgit.Importing
