import Walgit.Chain
import Walgit.Interference
import Walgit.Overlay

/-!
# One batch or one request at a time

`process_batch` on a synced repository nobody else writes to, once over a whole list of
requests and once over each of them in turn. The two differ where the overlay of a batch
differs from the state its members leave: in how HEAD is read, in the forge state, and in
the time below which an explicit time is refused.
-/
namespace Walgit

/-- A synced repository: its forge state stands at the head, and its items have the numbers
below the next one. -/
structure Repo where
  manifest : Manifest
  version : ℕ
  refs : RefState
  forge : ForgeState
  lastEntryTime : Option ℕ
  forgeAt : forge.seq = manifest.headSeq
  numbered : forge.Below (max manifest.forgeNextNumber 1)

/-- What the host contributes: its name, its policy and its clock. `now` gives the read made
for the entry at each sequence number. -/
structure Host where
  writer : String
  policy : PackPolicy
  startedAt : Timestamp
  stampedAt : Timestamp
  now : ℕ → Timestamp
  encodedLen : List LogEntry → ℕ

section Judged

variable [Text.CharTables]

theorem judgeAll_forgeNext_le (b : Basis) (w : Working) (reqs : List PublishRequest) :
    w.forgeNext ≤ (judgeAll b w reqs).2.forgeNext := by
  induction reqs generalizing w with
  | nil => exact le_rfl
  | cons req reqs ih =>
    refine le_trans ?_ (ih (judge b w req).2)
    rw [judge_forgeNext]
    split_ifs
    · exact ForgeState.number_le req.forge w.forgeNext
    · exact le_rfl

/-- The entries of a judged batch open items with the numbers the loop gave out. -/
theorem foldl_judgeAll_below (b : Basis) (writer : String) (startedAt : Timestamp)
    (now : ℕ → Timestamp) {w : Working} {reqs : List PublishRequest} {s : ForgeState} {seq : ℕ}
    (hseq : s.seq < seq) (h : s.Below w.forgeNext) :
    ((buildEntries writer startedAt now seq (accepted reqs (judgeAll b w reqs).1)).foldl
      ForgeState.foldEntry s).Below (judgeAll b w reqs).2.forgeNext := by
  induction reqs generalizing w s seq with
  | nil => exact h
  | cons req reqs ih =>
    simp only [judgeAll, accepted]
    cases hvalid : (judge b w req).1.valid with
    | false =>
      have hnext := judge_forgeNext b w req
      simp only [hvalid, Bool.false_eq_true, if_false] at hnext ⊢
      exact ih hseq (hnext ▸ h)
    | true =>
      have hnext := judge_forgeNext b w req
      simp only [hvalid, if_true] at hnext ⊢
      simp only [buildEntries, List.foldl_cons]
      set entry := buildEntry writer startedAt (now seq) seq req (judge b w req).1.forge
      have hforge : entry.forge = (ForgeState.number req.forge w.forgeNext).1 := rfl
      obtain ⟨-, hbelow, -⟩ := ForgeState.foldEntry_frame hforge hseq le_rfl (.refl s) h le_rfl
      refine ih ?_ (hnext ▸ hbelow)
      rw [ForgeState.foldEntry_seq]
      have hentry : entry.seq = seq := rfl
      omega

end Judged

namespace Repo

variable [Text.CharTables] (host : Host)

def basis (s : Repo) : Basis :=
  ⟨s.manifest, some s.version, .new s.refs, s.forge, s.lastEntryTime⟩

def attempt (s : Repo) : Attempt := ⟨s.basis, host.policy, host.writer, host.startedAt⟩

/-- The entries of the accepted requests, in the slot after the head. -/
def entries (s : Repo) (reqs : List PublishRequest) : List LogEntry :=
  buildEntries host.writer host.startedAt host.now (s.manifest.headSeq + 1)
    (accepted reqs (verifyBatch s.basis reqs).1)

/-- The manifest that commits them. -/
def nextManifest (s : Repo) (reqs : List PublishRequest) : Manifest :=
  let es := s.entries host reqs
  let seg := segmentRef (s.manifest.headSeq + 1) (s.manifest.headSeq + es.length)
    (host.encodedLen es)
  match (Job.batch reqs).manifest (s.attempt host) host.stampedAt seg with
  | .ok m => m
  | .error _ => s.manifest

theorem nextManifest_headSeq (s : Repo) (reqs : List PublishRequest) :
    (s.nextManifest host reqs).headSeq = s.manifest.headSeq + (s.entries host reqs).length := rfl

theorem nextManifest_forgeNext (s : Repo) (reqs : List PublishRequest) :
    max (s.nextManifest host reqs).forgeNextNumber 1 = (verifyBatch s.basis reqs).2.forgeNext := by
  have hle : max s.manifest.forgeNextNumber 1 ≤ (verifyBatch s.basis reqs).2.forgeNext :=
    judgeAll_forgeNext_le s.basis s.basis.working reqs
  change max (if max s.manifest.forgeNextNumber 1 < (verifyBatch s.basis reqs).2.forgeNext then
    (verifyBatch s.basis reqs).2.forgeNext else s.manifest.forgeNextNumber) 1 = _
  split_ifs <;> omega

theorem entries_seqs (s : Repo) (reqs : List PublishRequest) :
    (s.entries host reqs).map LogEntry.seq =
      List.range' (s.manifest.headSeq + 1) (s.entries host reqs).length := by
  unfold entries
  rw [buildEntries_seqs, buildEntries_length]

/-- The refs after a batch: git writes them transaction by transaction, and where it refuses
one the next sync replays the entries. -/
def commitRefs (s : Repo) (reqs : List PublishRequest) : RefState :=
  let r := s.refs.applyRefTxns
    ((accepted reqs (verifyBatch s.basis reqs).1).map fun m => m.1.txn)
  if r.2 then r.1 else foldRefs r.1 (s.entries host reqs)

/-- The repository after a batch: manifest swapped, refs, forge state and entry time moved on. -/
def commit (s : Repo) (reqs : List PublishRequest) : Repo where
  manifest := s.nextManifest host reqs
  version := s.version + 1
  refs := s.commitRefs host reqs
  forge := s.forge.foldEntries s.manifest.headSeq (s.entries host reqs)
  lastEntryTime := (s.entries host reqs).foldl noteEntryTime s.lastEntryTime
  forgeAt := by
    rw [ForgeState.foldEntries, if_neg (by simp [s.forgeAt]), nextManifest_headSeq]
    exact ForgeState.foldl_foldEntry_seq _ _ s.forgeAt (s.entries_seqs host reqs)
  numbered := by
    rw [ForgeState.foldEntries, if_neg (by simp [s.forgeAt]), nextManifest_forgeNext]
    exact foldl_judgeAll_below _ _ _ _ (by rw [s.forgeAt]; omega) s.numbered

/-- `process_batch` on a repository nobody else writes to. -/
def handle (s : Repo) (reqs : List PublishRequest) : List PublishResult × Repo :=
  let vs := (verifyBatch s.basis reqs).1
  match accepted reqs vs with
  | [] => (responses 0 vs, s)
  | _ => (responses (s.manifest.headSeq + 1) vs, s.commit host reqs)

/-- The same requests, each in a batch of its own. -/
def handleEach (s : Repo) : List PublishRequest → List PublishResult × Repo
  | [] => ([], s)
  | req :: reqs =>
    let first := s.handle host [req]
    let rest := first.2.handleEach reqs
    (first.1 ++ rest.1, rest.2)

/-- Answers, refs, HEAD target and forge state do not tell one batch from many. -/
def BatchingInvisible (s : Repo) (reqs : List PublishRequest) : Prop :=
  (s.handle host reqs).1 = (s.handleEach host reqs).1 ∧
    (s.handle host reqs).2.refs = (s.handleEach host reqs).2.refs ∧
    (s.handle host reqs).2.forge = (s.handleEach host reqs).2.forge

/-- No forge event interferes with an event of a later request. -/
def ForgeApart (s : Repo) (reqs : List PublishRequest) : Prop :=
  reqs.Pairwise fun r t => ∀ e ∈ r.forge, ∀ f ∈ t.forge,
    s.forge.interferes (max s.manifest.forgeNextNumber 1) e f = false

instance (s : Repo) (reqs : List PublishRequest) : Decidable (s.ForgeApart reqs) :=
  inferInstanceAs (Decidable (reqs.Pairwise _))

end Repo

/-- Explicit times come before requests that leave theirs to the clock, and with ref updates. -/
def TimesFirst (reqs : List PublishRequest) : Prop :=
  reqs.Pairwise fun r s => s.createdAt.isSome → r.createdAt.isSome ∧ r.txn.updates ≠ []

instance (reqs : List PublishRequest) : Decidable (TimesFirst reqs) :=
  inferInstanceAs (Decidable (reqs.Pairwise _))

/-- What the loop over a batch that started from `s₀` carries tells about the members to come
what the repository `s` before them does. -/
structure Follows (s₀ : Repo) (w : Working) (s : Repo) (rest : List PublishRequest) : Prop where
  off : w.refs.SameOffHead (.new s.refs)
  head : (∃ r ∈ rest, r.txn.namesHead) → w.refs.head = (RefView.new s.refs).head
  next : w.forgeNext = max s.manifest.forgeNextNumber 1
  access : s₀.manifest.access = s.manifest.access
  floor : (∃ r ∈ rest, r.createdAt.isSome) → w.floor = s.lastEntryTime
  first : max s₀.manifest.forgeNextNumber 1 ≤ max s.manifest.forgeNextNumber 1
  seq : s₀.forge.seq ≤ s.forge.seq
  keeps : s₀.forge.Keeps s.forge
  checks : ∀ r ∈ rest, ∀ f ∈ r.forge, ForgeState.SameFor f s.forge s₀.forge

theorem Follows.refl (s : Repo) (reqs : List PublishRequest) :
    Follows s s.basis.working s reqs :=
  ⟨fun _ _ => rfl, fun _ => rfl, rfl, rfl, fun _ => rfl, le_rfl, le_rfl, .refl _,
    fun _ _ f _ => .refl f _⟩

theorem verifyUpdate_value {v w : RefView} {u : RefUpdate} (h : v.value u.name = w.value u.name) :
    verifyUpdate v u = verifyUpdate w u := by
  have hget : (v.get u.name).getD "" = (w.get u.name).getD "" := h
  simp only [verifyUpdate, hget]

/-- No request depends on an earlier one through what the overlay of a batch misses. -/
structure Repo.Independent (s : Repo) (reqs : List PublishRequest) : Prop where
  head : HeadOnce reqs
  plain : ∀ r ∈ reqs, r.txn.plainHead = false
  times : TimesFirst reqs
  forge : s.ForgeApart reqs

theorem Repo.Independent.tail {s : Repo} {req : PublishRequest} {rest : List PublishRequest}
    (h : s.Independent (req :: rest)) : s.Independent rest :=
  ⟨⟨fun r hr => h.head.1 r (List.mem_cons_of_mem _ hr), (List.pairwise_cons.mp h.head.2).2⟩,
    fun r hr => h.plain r (List.mem_cons_of_mem _ hr), (List.pairwise_cons.mp h.times).2,
    (List.pairwise_cons.mp h.forge).2⟩

theorem responses_of_none_valid {vs : List Verified} (h : ∀ v ∈ vs, v.valid = false) (m n : ℕ) :
    responses m vs = responses n vs := by
  induction vs with
  | nil => rfl
  | cons v vs ih =>
    have hv := h v List.mem_cons_self
    simp only [responses, hv, Bool.false_eq_true, if_false]
    rw [ih fun x hx => h x (List.mem_cons_of_mem _ hx)]

section Follow

variable [Text.CharTables] (host : Host)

/-- The forge events of the next member are refused for the same reason. -/
theorem Follows.forgeErrorOf {s₀ s : Repo} {w : Working} {req : PublishRequest}
    {rest : List PublishRequest} (h : Follows s₀ w s (req :: rest)) (next : ℕ) :
    Walgit.forgeErrorOf s₀.basis req (ForgeState.number req.forge next).1 =
      Walgit.forgeErrorOf s.basis req (ForgeState.number req.forge next).1 := by
  have hverify := ForgeState.verify_congr (h.checks req List.mem_cons_self)
  simp only [Walgit.forgeErrorOf, Repo.basis, h.access, hverify]

/-- The next member is judged alike. -/
theorem Follows.judge {s₀ s : Repo} {w : Working} {req : PublishRequest}
    {rest : List PublishRequest} (h : Follows s₀ w s (req :: rest))
    (hsym : ∀ u ∈ req.txn.updates, u.symbolic → u.name = "HEAD") :
    (judge s₀.basis w req).1 = (judge s.basis s.basis.working req).1 := by
  have hnames : ∀ u ∈ req.txn.updates, u.name = "HEAD" →
      w.refs.head = (RefView.new s.refs).head := by
    intro u hu hname
    exact h.head ⟨req, List.mem_cons_self, List.any_eq_true.mpr ⟨u, hu, by simp [hname]⟩⟩
  have hvalue : ∀ u ∈ req.txn.updates, w.refs.value u.name = (RefView.new s.refs).value u.name := by
    intro u hu
    by_cases hname : u.name = "HEAD"
    · exact RefView.value_eq h.off (hnames u hu hname) _
    · exact h.off _ hname
  have hverify : verifyTxn req.txn w.refs = verifyTxn req.txn (.new s.refs) := by
    refine List.map_congr_left fun u hu => ?_
    rw [verifyUpdate_value (hvalue u hu)]
  have hchanges : requestChanges w.refs req = requestChanges (.new s.refs) req := by
    have hupdate : ∀ u ∈ req.txn.updates,
        updateChanges w.refs u = updateChanges (.new s.refs) u := by
      intro u hu
      cases hs : u.symbolic with
      | false => exact updateChanges_value hs (hvalue u hu)
      | true =>
        have htarget : w.refs.headTarget = (RefView.new s.refs).headTarget :=
          congrArg Prod.snd (hnames u hu (hsym u hu hs))
        simp only [updateChanges, hs, htarget, if_true]
    have hany : req.txn.updates.any (updateChanges w.refs) =
        req.txn.updates.any (updateChanges (.new s.refs)) := by
      rw [Bool.eq_iff_iff, List.any_eq_true, List.any_eq_true]
      exact exists_congr fun u => and_congr_right fun hu => by rw [hupdate u hu]
    simp only [requestChanges, hany]
  have hrefs : refsErrorOf s₀.basis req = refsErrorOf s.basis req := by
    simp only [refsErrorOf, Repo.basis, h.access]
    rfl
  have hfloor : ∀ p, floorCheck w.floor req p = floorCheck s.lastEntryTime req p := by
    intro p
    cases hat : req.createdAt with
    | none => simp [floorCheck, hat]
    | some ts => rw [h.floor ⟨req, List.mem_cons_self, by simp [hat]⟩]
  simp only [Walgit.judge, h.next, h.forgeErrorOf, hverify, hchanges, hrefs, hfloor]
  rfl

/-- Without plain updates of HEAD the refs follow the log, whatever git refused. -/
theorem Repo.commitRefs_eq (s : Repo) {reqs : List PublishRequest}
    (hplain : ∀ r ∈ reqs, r.txn.plainHead = false) :
    s.commitRefs host reqs = foldRefs s.refs (s.entries host reqs) := by
  set ts := (accepted reqs (verifyBatch s.basis reqs).1).map fun m => m.1.txn with hts
  have hno : ∀ t ∈ ts, t.plainHead = false := by
    intro t ht
    obtain ⟨m, hm, rfl⟩ := List.mem_map.mp ht
    exact hplain m.1 (accepted_subset m hm)
  have hfold : ∀ r, foldRefs r (s.entries host reqs) = r.applyTxns ts :=
    fun r => foldRefs_buildEntries r _ _ _ _ _
  obtain ⟨done, rest, hsplit, hdone, hall⟩ := s.refs.applyRefTxns_eq hno
  simp only [commitRefs, hfold]
  split_ifs with hok
  · rw [hdone, hsplit, hall hok, List.append_nil]
  · rw [hdone, hsplit, RefState.applyTxns_replay]

/-- A batch of one commits one entry, or nothing. -/
theorem Repo.handle_single (s : Repo) (req : PublishRequest) :
    let v := (judge s.basis s.basis.working req).1
    let e := buildEntry host.writer host.startedAt (host.now (s.manifest.headSeq + 1))
      (s.manifest.headSeq + 1) req v.forge
    (v.valid = false ∧ s.handle host [req] = (responses 0 [v], s)) ∨
    (v.valid = true ∧ s.entries host [req] = [e] ∧
      s.handle host [req] = (responses (s.manifest.headSeq + 1) [v], s.commit host [req])) := by
  intro v e
  have hvs : (verifyBatch s.basis [req]).1 = [v] := rfl
  cases hvalid : v.valid with
  | false =>
    refine Or.inl ⟨rfl, ?_⟩
    simp only [handle, hvs, accepted, hvalid]
    rfl
  | true =>
    refine Or.inr ⟨rfl, ?_, ?_⟩
    · simp only [entries, hvs, accepted, hvalid, if_true, buildEntries]
      rfl
    · simp only [handle, hvs, accepted, hvalid, if_true]

/-- The repository after the batch of one. -/
theorem Repo.commit_single {s : Repo} {req : PublishRequest} {e : LogEntry}
    (hplain : req.txn.plainHead = false)
    (hvalid : (judge s.basis s.basis.working req).1.valid = true)
    (he : s.entries host [req] = [e]) :
    (s.commit host [req]).manifest.headSeq = s.manifest.headSeq + 1 ∧
    (s.commit host [req]).manifest.access = s.manifest.access ∧
    max (s.commit host [req]).manifest.forgeNextNumber 1 =
      (ForgeState.number req.forge (max s.manifest.forgeNextNumber 1)).2 ∧
    (s.commit host [req]).refs = foldRefs s.refs [e] ∧
    (s.commit host [req]).forge = s.forge.foldEntry e ∧
    (s.commit host [req]).lastEntryTime = noteEntryTime s.lastEntryTime e := by
  refine ⟨?_, rfl, ?_, ?_, ?_, ?_⟩
  · exact (s.nextManifest_headSeq host [req]).trans (by rw [he]; rfl)
  · refine (s.nextManifest_forgeNext host [req]).trans ?_
    simp only [verifyBatch, judgeAll, judge_forgeNext, hvalid, if_true]
    rfl
  · exact (s.commitRefs_eq host (by simpa using hplain)).trans (by rw [he])
  · simp only [commit, he, ForgeState.foldEntries, s.forgeAt]
    simp
  · simp only [commit, he, List.foldl_cons, List.foldl_nil]

/-- What a batch carries on to its next member and what a batch of one leaves behind still
tell the same about the rest. -/
theorem Follows.step {s₀ s : Repo} {w : Working} {req : PublishRequest}
    {rest : List PublishRequest} (h : Follows s₀ w s (req :: rest))
    (hind : s₀.Independent (req :: rest)) :
    Follows s₀ (Walgit.judge s₀.basis w req).2 (s.handle host [req]).2 rest := by
  have hsym := hind.head.1 req List.mem_cons_self
  have hjudge := h.judge hsym
  have hw := judge_cases s₀.basis w req
  simp only [applyTxnToMap] at hw
  have hnames : (∃ r ∈ rest, r.txn.namesHead) → ∀ u ∈ req.txn.updates, u.name ≠ "HEAD" := by
    rintro ⟨r, hr, hrn⟩ u hu hname
    have hreq : req.txn.namesHead := List.any_eq_true.mpr ⟨u, hu, by simp [hname]⟩
    simp [(List.pairwise_cons.mp hind.head.2).1 r hr hreq] at hrn
  have hkept : (∃ r ∈ rest, r.txn.namesHead) →
      (Walgit.judge s₀.basis w req).2.refs.head = w.refs.head := by
    intro hr
    obtain ⟨-, -, -, -, -, hrefs⟩ | ⟨-, -, -, -, hrefs⟩ | ⟨-, -, hrefs⟩ := hw <;> rw [hrefs]
    · exact foldl_applyUpdateToMap_head (hnames hr)
    · exact foldl_applyUpdateToMap_head (hnames hr)
  have hmem : (∃ r ∈ rest, r.txn.namesHead) → ∃ r ∈ req :: rest, r.txn.namesHead :=
    fun ⟨r, hr, hrn⟩ => ⟨r, List.mem_cons_of_mem _ hr, hrn⟩
  have htime : (∃ r ∈ rest, r.createdAt.isSome) →
      ∃ ts, req.createdAt = some ts ∧ req.txn.updates ≠ [] ∧ w.floor = s.lastEntryTime := by
    rintro ⟨r, hr, hrs⟩
    obtain ⟨hsome, hne⟩ := (List.pairwise_cons.mp hind.times).1 r hr hrs
    obtain ⟨ts, hts⟩ := Option.isSome_iff_exists.mp hsome
    exact ⟨ts, hts, hne, h.floor ⟨r, List.mem_cons_of_mem _ hr, hrs⟩⟩
  obtain ⟨hno, hs⟩ | ⟨hyes, hentry, hs⟩ := s.handle_single host req
  · rw [hs]
    have hnext := judge_forgeNext s₀.basis w req
    rw [hjudge, if_neg (by simp [hno])] at hnext
    refine ⟨?_, fun hr => (hkept hr).trans (h.head (hmem hr)), hnext.trans h.next, h.access,
      fun hr => ?_, h.first, h.seq, h.keeps, fun r hr => h.checks r (List.mem_cons_of_mem _ hr)⟩
    · obtain ⟨hv, -⟩ | ⟨-, -, -, hchanges, hrefs⟩ | ⟨-, -, hrefs⟩ := hw
      · rw [hjudge, hno] at hv
        cases hv
      · rw [hrefs]
        have hoff := foldl_unchanged_sameOffHead (requestChanges_eq_false hchanges).2.2
        exact fun name hname => (hoff name hname).trans (h.off name hname)
      · rw [hrefs]
        exact h.off
    · obtain ⟨ts, hts, hne, hfloor⟩ := htime hr
      have hjf := (judge_floor_some s₀.basis w hts hne).1
      rw [hjudge, if_neg (by simp [hno])] at hjf
      exact hjf.trans hfloor
  · obtain ⟨hseq, haccess, hforgeNext, hrefs, hforge, htimes'⟩ := Repo.commit_single host (hind.plain req List.mem_cons_self) hyes hentry
    rw [hs]
    have hvalid : (Walgit.judge s₀.basis w req).1.valid = true := by rw [hjudge, hyes]
    have hnext := judge_forgeNext s₀.basis w req
    rw [if_pos hvalid, h.next] at hnext
    have hle := ForgeState.number_le req.forge (max s.manifest.forgeNextNumber 1)
    have hrefs : (s.commit host [req]).refs = s.refs.applyTxn req.txn :=
      hrefs.trans (foldRefs_buildEntries s.refs host.writer host.startedAt host.now
        (s.manifest.headSeq + 1) [(req, _)])
    obtain ⟨hkeeps, -, hsame⟩ := ForgeState.foldEntry_frame
      (rfl : (buildEntry host.writer host.startedAt (host.now (s.manifest.headSeq + 1))
        (s.manifest.headSeq + 1) req
        (ForgeState.number req.forge (max s.manifest.forgeNextNumber 1)).1).forge = _)
      (by rw [s.forgeAt]; exact Nat.lt_succ_self _) h.seq h.keeps s.numbered h.first
    have hwrefs : (Walgit.judge s₀.basis w req).2.refs = req.txn.updates.foldl applyUpdateToMap w.refs := by
      obtain ⟨-, -, -, -, -, hrefs⟩ | ⟨hv, -⟩ | ⟨hv, -⟩ := hw
      · exact hrefs
      · exact absurd hvalid (by simp [hv])
      · exact absurd hvalid (by simp [hv])
    refine ⟨?_, fun hr => ?_, ?_, h.access.trans haccess.symm, fun hr => ?_, ?_, ?_, ?_, fun r hr f hf => ?_⟩
    · rw [hwrefs, hrefs]
      exact foldl_sameOffHead_new hsym h.off
    · rw [hkept hr, h.head (hmem hr), hrefs]
      exact (foldl_new_head (hnames hr)).symm
    · rw [hnext, hforgeNext]
    · obtain ⟨ts, hts, hne, hfloor⟩ := htime hr
      obtain ⟨hjf, hmono⟩ := judge_floor_some s₀.basis w hts hne
      rw [hjf, if_pos hvalid, htimes']
      have hmono := hmono hvalid
      rw [hfloor] at hmono
      simp only [noteEntryTime, buildEntry, hts, Option.getD_some]
      cases hlast : s.lastEntryTime with
      | none => rfl
      | some p =>
        have hp := hmono p (by simp [hlast])
        simp only
        split_ifs
        · rfl
        · rw [Nat.le_antisymm hp (by omega)]
    · rw [hforgeNext]
      exact h.first.trans hle
    · rw [hforge, ForgeState.foldEntry_seq]
      exact h.seq.trans (le_max_left _ _)
    · rw [hforge]
      exact hkeeps
    · rw [hforge]
      refine (hsame f fun e he => ?_).trans (h.checks r (List.mem_cons_of_mem _ hr) f hf)
      exact (List.pairwise_cons.mp hind.forge).1 r hr e he f hf

/-- One request at a time: the answers and the states a batch of them would have led to. -/
theorem Follows.handleEach {s₀ s : Repo} {w : Working} {reqs : List PublishRequest}
    (h : Follows s₀ w s reqs) (hind : s₀.Independent reqs) :
    let vs := (judgeAll s₀.basis w reqs).1
    let es := buildEntries host.writer host.startedAt host.now (s.manifest.headSeq + 1)
      (accepted reqs vs)
    (s.handleEach host reqs).1 = responses (s.manifest.headSeq + 1) vs ∧
      (s.handleEach host reqs).2.refs = foldRefs s.refs es ∧
      (s.handleEach host reqs).2.forge = es.foldl ForgeState.foldEntry s.forge := by
  induction reqs generalizing w s with
  | nil => exact ⟨rfl, rfl, rfl⟩
  | cons req reqs ih =>
    have hjudge := h.judge (hind.head.1 req List.mem_cons_self)
    obtain ⟨hanswers, hrefs, hforge⟩ := ih (h.step host hind) hind.tail
    simp only [Repo.handleEach, judgeAll, accepted]
    rw [hanswers, hrefs, hforge]
    obtain ⟨hno, hs⟩ | ⟨hyes, hentry, hs⟩ := s.handle_single host req
    · rw [hs, hjudge]
      simp only [hno, responses, Bool.false_eq_true, if_false]
      exact ⟨rfl, trivial, trivial⟩
    · obtain ⟨hseq, -, -, hcrefs, hcforge, -⟩ := Repo.commit_single host (hind.plain req List.mem_cons_self) hyes hentry
      rw [hs, hjudge]
      simp only [hyes, responses, if_true, hseq, hcrefs, hcforge, buildEntries]
      refine ⟨rfl, ?_, rfl⟩
      exact (foldRefs_append _ [_] _).symm

/-- The whole batch at once, in the same terms. -/
theorem Repo.handle_eq (s : Repo) {reqs : List PublishRequest}
    (hplain : ∀ r ∈ reqs, r.txn.plainHead = false) :
    let vs := (verifyBatch s.basis reqs).1
    (s.handle host reqs).1 = responses (s.manifest.headSeq + 1) vs ∧
      (s.handle host reqs).2.refs = foldRefs s.refs (s.entries host reqs) ∧
      (s.handle host reqs).2.forge = (s.entries host reqs).foldl ForgeState.foldEntry s.forge := by
  intro vs
  simp only [handle]
  split
  · rename_i hnil
    have hnone := valid_of_accepted_nil (judgeAll_length _ _ _) hnil
    refine ⟨responses_of_none_valid hnone _ _, ?_, ?_⟩
    · simp [entries, hnil, buildEntries]
    · simp [entries, hnil, buildEntries]
  · refine ⟨rfl, s.commitRefs_eq host hplain, ?_⟩
    simp only [commit, ForgeState.foldEntries, s.forgeAt, lt_irrefl, if_false]

end Follow

section OneAtATime

attribute [local instance] Text.asciiTables

theorem created_forgeAt :
    ForgeState.empty.seq = (createdManifest none ⟨1, 0⟩ "w").headSeq := rfl

def newRepo : Repo where
  manifest := createdManifest none ⟨1, 0⟩ "w"
  version := 1
  refs := .fresh
  forge := .empty
  lastEntryTime := none
  forgeAt := created_forgeAt
  numbered := by
    intro n i hi
    cases hi

def plainHost : Host := ⟨"w", ⟨"", .empty⟩, ⟨1, 0⟩, ⟨2, 0⟩, fun _ => ⟨2, 0⟩, List.length⟩

def pushRef (name old new : String) : PublishRequest := { txn := ⟨[⟨name, old, new, ""⟩], [], true⟩ }

def setHead (target : String) : PublishRequest := { txn := ⟨[⟨"HEAD", "", "", target⟩], [], true⟩ }

/-- Three requests of one batch, the second building on the first. -/
def threeRequests : List PublishRequest :=
  [pushRef "refs/heads/dev" "" "1111111111111111111111111111111111111111",
    pushRef "refs/heads/dev" "1111111111111111111111111111111111111111"
      "2222222222222222222222222222222222222222",
    setHead "refs/heads/dev"]

end OneAtATime

end Walgit
