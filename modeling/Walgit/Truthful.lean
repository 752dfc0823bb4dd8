import Walgit.Overlay
import Walgit.Receipts

/-!
# Publish receipts

What `process_batch` answers and what was committed. A request judged invalid in the
committed claim has no entry, and one called unchanged changes nothing as long as the
overlay it was judged by shows HEAD as it is.
-/
namespace Walgit

section Answers

variable [Text.CharTables]

/-- The view a member of a batch is verified at: the basis, overlaid with the members
accepted before it the way `LocalRepo::ref_view` overlays applied transactions. -/
def verifiedState (b : Basis) (reqs : List PublishRequest) (i : ℕ) : RefView :=
  stateAfter b.refs (accepted (reqs.take i) (verifyBatch b reqs).1)

/-- The entry a claim wrote for the `i`-th request of its batch, if it wrote one. -/
def Origin.entryOf (o : Origin) (i : ℕ) : Option LogEntry :=
  match o.job with
  | .batch reqs =>
    let vs := (verifyBatch o.attempt.basis reqs).1
    match vs[i]? with
    | some v => if v.valid then o.slot.bytes[validBefore vs i]? else none
    | none => none
  | _ => none

/-- An entry of the `i`-th request of task `t` is committed. -/
def CommittedFor (w : World) (t i : ℕ) (e : LogEntry) : Prop :=
  ∃ o, Committed w o ∧ o.slot.task = t ∧ o.entryOf i = some e

def LogEntry.updates (e : LogEntry) : List RefUpdate := (e.txn.map RefTransaction.updates).getD []

/-- What an answer says about the log, now and after any further steps. -/
def AnswerTruthful (cfg : Config) (actions : List Action) (w : World) (t : ℕ)
    (reqs : List PublishRequest) (i : ℕ) (req : PublishRequest) : Answer → Prop
  | .ok r =>
    (r.seq ≠ 0 → r.perRef.allOk →
      ∃ e ∈ committedEntries w.gens, CommittedFor w t i e ∧ e.seq = r.seq ∧
        e.updates = req.txn.updates) ∧
    (r.perRef.allOk = false ∨ r.forgeError.isSome →
      ∀ later w', Runs.run (step cfg) w later = some w' → ∀ e, ¬ CommittedFor w' t i e) ∧
    (r.seq = 0 → r.perRef.allOk → r.forgeError = none →
      ∃ a, lastCapture t actions = some a ∧ req.forge = [] ∧ req.pack = none ∧
        RefView.Same ((verifiedState a.basis reqs i).applyTxn req.txn)
          (verifiedState a.basis reqs i))
  | .error (.commitUnknown _) => True
  | .error _ => ∀ later w', Runs.run (step cfg) w later = some w' → ∀ e, ¬ CommittedFor w' t i e

/-- Every answer sent so far is truthful. -/
def ReceiptsTruthful (cfg : Config) (actions : List Action) (w : World) : Prop :=
  ∀ t task reqs answers, w.tasks t = some task → task.job = .batch reqs →
    task.phase = .done answers → ∀ i req answer, reqs[i]? = some req → answers[i]? = some answer →
      AnswerTruthful cfg actions w t reqs i req answer

end Answers

theorem failAll_getElem? {reqs : List PublishRequest} {e : WalError} {i : ℕ} {answer : Answer}
    (h : (failAll (.batch reqs) e)[i]? = some answer) : answer = .error e := by
  simp only [failAll, List.getElem?_map, Option.map_eq_some_iff] at h
  obtain ⟨req, -, rfl⟩ := h
  rfl

section Truthful

variable [Text.CharTables] {cfg : Config} {w w' : World} {actions : List Action}

/-- A valid member's entry is in its claim, under the answered sequence number. -/
theorem Origin.entryOf_valid {o : Origin} {reqs : List PublishRequest} {i : ℕ}
    {req : PublishRequest} {v : Verified} (hwrote : o.Wrote) (hjob : o.job = .batch reqs)
    (hreq : reqs[i]? = some req) (hv : (verifyBatch o.attempt.basis reqs).1[i]? = some v)
    (hvalid : v.valid) :
    ∃ e ∈ o.slot.bytes, o.entryOf i = some e ∧
      e.seq = o.slot.firstSeq + validBefore (verifyBatch o.attempt.basis reqs).1 i ∧
      e.updates = req.txn.updates := by
  obtain ⟨clock, es, hes, -, hbytes⟩ := hwrote
  rw [hjob] at hes
  simp only [Job.entries, Except.ok.injEq] at hes
  have hentry := buildEntries_getElem? o.attempt.writer o.attempt.startedAt clock o.slot.firstSeq
    (accepted reqs (verifyBatch o.attempt.basis reqs).1)
    (validBefore (verifyBatch o.attempt.basis reqs).1 i)
  rw [accepted_getElem? hreq hv hvalid, Option.map_some, hes] at hentry
  obtain ⟨e, he, heq⟩ := withNonce_getElem? o.slot.nonce hentry
  rw [← hbytes] at he
  refine ⟨e, List.mem_of_getElem? he, ?_, congrArg LogEntry.seq heq, ?_⟩
  · unfold Origin.entryOf
    rw [hjob]
    simp only [hv, hvalid, if_true]
    exact he
  · rw [LogEntry.updates, congrArg LogEntry.txn heq]
    by_cases honly : req.forgeOnly
    · have hempty : req.txn.updates = [] := by
        simpa using (Bool.and_eq_true_iff.mp honly).2
      simp [buildEntry, honly, hempty]
    · simp [buildEntry, honly]

/-- An invalid member has no entry in a claim. -/
theorem Origin.entryOf_invalid {o : Origin} {reqs : List PublishRequest} {i : ℕ} {v : Verified}
    (hjob : o.job = .batch reqs) (hv : (verifyBatch o.attempt.basis reqs).1[i]? = some v)
    (hvalid : v.valid = false) : o.entryOf i = none := by
  unfold Origin.entryOf
  rw [hjob]
  simp [hv, hvalid]

/-- The answer an accepted, an unchanged or a refused member gets. -/
theorem answer_cases {b : Basis} {reqs : List PublishRequest} {next i : ℕ} {answer : Answer}
    (h : ((responses next (verifyBatch b reqs).1).map Answer.ok)[i]? = some answer) :
    ∃ v, (verifyBatch b reqs).1[i]? = some v ∧
      ((v.valid = true ∧ answer = .ok ⟨next + validBefore (verifyBatch b reqs).1 i, v.perRef, none⟩) ∨
       (v.valid = false ∧ answer = .ok ⟨0, v.perRef, v.forgeError⟩)) := by
  rw [List.getElem?_map, responses_getElem?, Option.map_map, Option.map_eq_some_iff] at h
  obtain ⟨v, hv, rfl⟩ := h
  refine ⟨v, hv, ?_⟩
  cases hvalid : v.valid with
  | true => exact Or.inl ⟨rfl, by simp [hvalid]⟩
  | false => exact Or.inr ⟨rfl, by simp [hvalid]⟩

/-- Each verdict falls into one of the three cases of `judge`. -/
theorem verdict_cases {b : Basis} {reqs : List PublishRequest} {i : ℕ} {req : PublishRequest}
    {v : Verified} (hreq : reqs[i]? = some req) (hv : (verifyBatch b reqs).1[i]? = some v) :
    (v.valid = true ∧ v.perRef.allOk ∧ v.forgeError = none) ∨
    (v.valid = false ∧ v.perRef.allOk ∧ v.forgeError = none ∧
      requestChanges (judgeAll b b.working (reqs.take i)).2.refs req = false) ∨
    (v.valid = false ∧ (v.perRef.allOk = false ∨ v.forgeError.isSome)) := by
  rw [verifyBatch, judgeAll_getElem?, hreq, Option.map_some, Option.some.injEq] at hv
  subst hv
  rcases judge_cases b (judgeAll b b.working (reqs.take i)).2 req with
    ⟨hvalid, hok, hforge, -⟩ | ⟨hvalid, hok, hforge, hno, -⟩ | ⟨hvalid, herr, -⟩
  · exact Or.inl ⟨hvalid, hok, hforge⟩
  · exact Or.inr (Or.inl ⟨hvalid, hok, hforge, hno⟩)
  · exact Or.inr (Or.inr ⟨hvalid, herr⟩)

/-- A refusing answer is never followed by an entry. -/
theorem AnswersOk.no_entry {last : Option Attempt} {t i : ℕ} {reqs : List PublishRequest}
    {req : PublishRequest} {answers : List Answer} {answer : Answer}
    (h : AnswersOk last w t (.batch reqs) answers) (hreq : reqs[i]? = some req)
    (hans : answers[i]? = some answer)
    (hno : ∀ r, answer = .ok r → r.perRef.allOk = false ∨ r.forgeError.isSome)
    (hdef : ∀ message, answer ≠ .error (.commitUnknown message)) (e : LogEntry) :
    ¬ CommittedFor w t i e := by
  rintro ⟨o, hc, howner, hentry⟩
  cases h with
  | unknown message => exact hdef message (failAll_getElem? hans)
  | failed e' definite idle => exact idle.1 o hc howner
  | unchanged a reqs' batch attempt none idle => exact idle.1 o hc howner
  | committed a σ reqs' batch attempt kept owner sole =>
    cases batch
    obtain rfl := sole o (Or.inl hc) howner
    obtain ⟨v, hv, ⟨hvalid, rfl⟩ | ⟨hvalid, rfl⟩⟩ := answer_cases hans
    · rcases verdict_cases hreq hv with ⟨-, hok, -⟩ | ⟨hval, -⟩ | ⟨hval, -⟩
      · simpa [hok] using hno _ rfl
      · rw [hvalid] at hval
        cases hval
      · rw [hvalid] at hval
        cases hval
    · rw [Origin.entryOf_invalid rfl hv hvalid] at hentry
      cases hentry

/-- A positive sequence number names the committed entry. -/
theorem AnswersOk.entry {last : Option Attempt} {t i : ℕ} {reqs : List PublishRequest}
    {req : PublishRequest} {answers : List Answer} {r : PublishResult} (hinv : Inv cfg w)
    (h : AnswersOk last w t (.batch reqs) answers) (hreq : reqs[i]? = some req)
    (hans : answers[i]? = some (.ok r)) (hseq : r.seq ≠ 0) :
    ∃ e ∈ committedEntries w.gens, CommittedFor w t i e ∧ e.seq = r.seq ∧
      e.updates = req.txn.updates := by
  cases h with
  | unknown message => cases failAll_getElem? hans
  | failed e definite idle => cases failAll_getElem? hans
  | unchanged a reqs' batch attempt none idle =>
    cases batch
    obtain ⟨v, hv, ⟨hvalid, heq⟩ | ⟨-, heq⟩⟩ := answer_cases hans
    · have hlen : (verifyBatch a.basis reqs).1.length = reqs.length := judgeAll_length _ _ _
      rw [valid_of_accepted_nil hlen none v (List.mem_of_getElem? hv)] at hvalid
      cases hvalid
    · cases heq
      exact absurd rfl hseq
  | committed a σ reqs' batch attempt kept owner sole =>
    cases batch
    obtain ⟨v, hv, ⟨hvalid, heq⟩ | ⟨-, heq⟩⟩ := answer_cases hans
    · cases heq
      have hwrote := (hinv.claims _ (hinv.claimed _ kept)).wrote
      obtain ⟨e, hmem, hentry, hes, hupdates⟩ :=
        Origin.entryOf_valid hwrote rfl hreq hv hvalid
      obtain ⟨g, hg, ho⟩ := kept
      exact ⟨e, mem_committedEntries hg ho hmem, ⟨_, ⟨g, hg, ho⟩, owner, hentry⟩, hes, hupdates⟩
    · cases heq
      exact absurd rfl hseq

/-- A request the overlay calls unchanged changes nothing at the verified state. -/
theorem unchanged_same {b : Basis} {reqs : List PublishRequest} {i : ℕ} {req : PublishRequest}
    (hhead : HeadOnce reqs) (hreq : reqs[i]? = some req)
    (hno : requestChanges (judgeAll b b.working (reqs.take i)).2.refs req = false) :
    RefView.Same ((verifiedState b reqs i).applyTxn req.txn) (verifiedState b reqs i) := by
  have haccepted : verifiedState b reqs i =
      stateAfter b.refs (accepted (reqs.take i) (judgeAll b b.working (reqs.take i)).1) := by
    rw [verifiedState, verifyBatch, judgeAll_take, accepted_take]
  have hoff : (judgeAll b b.working (reqs.take i)).2.refs.SameOffHead (verifiedState b reqs i) := by
    rw [haccepted]
    exact judgeAll_sameOffHead b (fun r hr => hhead.1 r (List.mem_of_mem_take hr)) fun _ _ => rfl
  refine RefView.applyTxn_same fun u hu => ?_
  have hu' := (requestChanges_eq_false hno).2.2 u hu
  rw [← hu']
  by_cases hname : req.txn.namesHead
  · have hfree : ∀ r ∈ reqs.take i, r.txn.namesHead = false := by
      intro r hr
      by_contra hr'
      have hlt : i < reqs.length := (List.getElem?_eq_some_iff.mp hreq).1
      have hmem : req ∈ reqs.drop i := by
        rw [List.drop_eq_getElem_cons hlt, (List.getElem?_eq_some_iff.mp hreq).2]
        exact List.mem_cons_self
      have hpairs := hhead.2
      rw [← List.take_append_drop i reqs, List.pairwise_append] at hpairs
      have := hpairs.2.2 r hr req hmem (by simpa using hr')
      rw [hname] at this
      cases this
    have hh : (judgeAll b b.working (reqs.take i)).2.refs.head = (verifiedState b reqs i).head := by
      rw [haccepted]
      exact judgeAll_head b hfree rfl
    exact (updateChanges_congr ⟨RefView.value_eq hoff hh, congrArg Prod.snd hh⟩ u).symm
  · have hne : u.name ≠ "HEAD" := by
      intro heq
      exact hname (List.any_eq_true.mpr ⟨u, hu, by simp [heq]⟩)
    have hp : u.symbolic = false := by
      by_contra hs
      exact hne (hhead.1 req (List.mem_of_getElem? hreq) u hu (by simpa using hs))
    exact (updateChanges_value hp (hoff u.name hne)).symm

/-- Sequence number zero without an error: the request changes nothing. -/
theorem AnswersOk.unchanged_request {last : Option Attempt} {t i : ℕ} {reqs : List PublishRequest}
    {req : PublishRequest} {answers : List Answer} {r : PublishResult} (hinv : Inv cfg w)
    (h : AnswersOk last w t (.batch reqs) answers) (hhead : HeadOnce reqs)
    (hreq : reqs[i]? = some req) (hans : answers[i]? = some (.ok r)) (hseq : r.seq = 0)
    (hall : r.perRef.allOk) (hforge : r.forgeError = none) :
    ∃ a, last = some a ∧ req.forge = [] ∧ req.pack = none ∧
      RefView.Same ((verifiedState a.basis reqs i).applyTxn req.txn)
        (verifiedState a.basis reqs i) := by
  have hcase : ∀ a v, last = some a → (verifyBatch a.basis reqs).1[i]? = some v →
      v.valid = false → v.perRef.allOk → v.forgeError = none → ∃ a, last = some a ∧
      req.forge = [] ∧ req.pack = none ∧
      RefView.Same ((verifiedState a.basis reqs i).applyTxn req.txn)
        (verifiedState a.basis reqs i) := by
    intro a v ha hv hvalid hok hnone
    rcases verdict_cases hreq hv with ⟨hval, -⟩ | ⟨-, -, -, hno⟩ | ⟨-, herr⟩
    · rw [hvalid] at hval
      cases hval
    · obtain ⟨hf, hp, -⟩ := requestChanges_eq_false hno
      exact ⟨a, ha, hf, hp, unchanged_same hhead hreq hno⟩
    · simp [hok, hnone] at herr
  cases h with
  | unknown message => cases failAll_getElem? hans
  | failed e definite idle => cases failAll_getElem? hans
  | unchanged a reqs' batch attempt none idle =>
    cases batch
    obtain ⟨v, hv, ⟨hvalid, heq⟩ | ⟨hvalid, heq⟩⟩ := answer_cases hans
    · have hlen : (verifyBatch a.basis reqs).1.length = reqs.length := judgeAll_length _ _ _
      rw [valid_of_accepted_nil hlen none v (List.mem_of_getElem? hv)] at hvalid
      cases hvalid
    · cases heq
      exact hcase a v attempt hv hvalid hall hforge
  | committed a σ reqs' batch attempt kept owner sole =>
    cases batch
    obtain ⟨v, hv, ⟨-, heq⟩ | ⟨hvalid, heq⟩⟩ := answer_cases hans
    · -- A claimed slot lies above the head, so its numbers are positive.
      cases heq
      have := (hinv.claims _ (hinv.claimed _ kept)).burned.1
      simp only at hseq this
      omega
    · cases heq
      exact hcase a v attempt hv hvalid hall hforge

/-- Every batch is started in a shape its overlay can show. -/
def headOnceStart (_ : World) : Action → Prop
  | .start _ (.batch reqs) => HeadOnce reqs
  | _ => True

theorem headOnce_run {access : Option RepoAccess} {now : Timestamp} {writer : String}
    (hrun : Runs.run (step cfg) (World.created (createdManifest access now writer)) actions =
      some w)
    (hok : Runs.AllSteps (step cfg) headOnceStart
      (World.created (createdManifest access now writer)) actions) :
    ∀ t task reqs, w.tasks t = some task → task.job = .batch reqs → HeadOnce reqs := by
  refine Runs.invariant (I := fun w => ∀ t task reqs, w.tasks t = some task →
    task.job = .batch reqs → HeadOnce reqs) ?_ hrun hok ?_
  · intro w action w' hw hstart hstep t task reqs htask hjob
    rcases step_jobs hstep htask with rfl | ⟨old, hold, hsame⟩
    · rw [hjob] at hstart
      exact hstart
    · exact hw t old reqs hold (hsame.trans hjob)
  · intro t task reqs htask
    cases htask

/-- Every answer is truthful, in runs whose batches name HEAD at most once. -/
theorem receipts_truthful {access : Option RepoAccess} {now : Timestamp} {writer : String}
    (hrun : Runs.run (step cfg) (World.created (createdManifest access now writer)) actions =
      some w)
    (hok : Runs.AllSteps (step cfg) headOnceStart
      (World.created (createdManifest access now writer)) actions) :
    ReceiptsTruthful cfg actions w := by
  obtain ⟨hinv, hrec⟩ := receipts_run hrun
  intro t task reqs answers htask hjob hdone i req answer hreq hans
  have hhead := headOnce_run hrun hok t task reqs htask hjob
  have hb : task.job.isBatch := by
    rw [hjob]
    rfl
  have hset : AnswersOk (lastCapture t actions) w t (.batch reqs) answers := by
    have := hrec.settled htask hdone hb
    simpa only [Settled, hjob] using this
  -- The task stays answered, so later worlds settle it the same way.
  have hlater : ∀ later w', Runs.run (step cfg) w later = some w' →
      AnswersOk (lastCapture t (actions ++ later)) w' t (.batch reqs) answers := by
    intro later w' hw'
    have hrun' : Runs.run (step cfg) (World.created (createdManifest access now writer))
        (actions ++ later) = some w' := by
      rw [Runs.run_append, hrun]
      exact hw'
    have htask' : w'.tasks t = some task :=
      Runs.invariant (I := fun w => w.tasks t = some task)
        (fun _ _ _ h _ hstep => step_done hstep h hdone) hw' (Runs.allSteps_true _ _) htask
    have := (receipts_run hrun').2.settled htask' hdone hb
    simpa only [Settled, hjob] using this
  have hnever : (∀ r, answer = .ok r → r.perRef.allOk = false ∨ r.forgeError.isSome) →
      (∀ message, answer ≠ .error (.commitUnknown message)) →
      ∀ later w', Runs.run (step cfg) w later = some w' → ∀ e, ¬ CommittedFor w' t i e :=
    fun hno hdef later w' hw' => (hlater later w' hw').no_entry hreq hans hno hdef
  cases answer with
  | error e =>
    cases e with
    | commitUnknown message => trivial
    | corrupt | store | invalid | retry => exact hnever (by simp) (by simp)
  | ok r =>
    refine ⟨fun hseq _ => hset.entry hinv hreq hans hseq, fun hno => hnever ?_ (by simp), ?_⟩
    · rintro r' heq
      cases heq
      exact hno
    · exact fun hseq hall hforge => hset.unchanged_request hinv hhead hreq hans hseq hall hforge

end Truthful

section HeadSwitch

attribute [local instance] Text.asciiTables

def switchHead (target : String) : PublishRequest := { txn := ⟨[⟨"HEAD", "", "", target⟩], [], true⟩ }

/-- HEAD is switched to another branch and back, in one batch. -/
def switchTwice : List Action :=
  [.start 1 (.batch [switchHead "refs/heads/dev", switchHead "refs/heads/main"]),
    .capture 1 firstAttempt, .claim 1 "a" (fun _ => ⟨2, 0⟩) .delivered, .swap 1 ⟨3, 0⟩ .delivered,
    .finish 1]

theorem receipts_truthful_race : ∃ w : World, w.gens.length = 2 ∧
    ReceiptsTruthful ⟨3, List.length⟩ race w := by
  obtain ⟨w, hrun, -, hgens⟩ := race_runs
  refine ⟨w, by simpa using congrArg List.length hgens, receipts_truthful hrun ?_⟩
  refine Runs.allSteps_of_forall _ fun action hmem s => ?_
  simp only [race, List.mem_cons, List.not_mem_nil, or_false] at hmem
  rcases hmem with rfl | rfl | hmem
  · change HeadOnce _
    decide
  · change HeadOnce _
    decide
  · rcases hmem with rfl | rfl | rfl | rfl | rfl | rfl | rfl | rfl | rfl | rfl | rfl | rfl | rfl |
      rfl | rfl | rfl <;> trivial

/-- The second switch is answered as unchanged although HEAD points elsewhere by then. -/
theorem receipts_switchTwice : ∃ w,
    Runs.run (step ⟨3, List.length⟩) (World.created (createdManifest none ⟨1, 0⟩ "w")) switchTwice =
      some w ∧ ¬ ReceiptsTruthful ⟨3, List.length⟩ switchTwice w := by
  have hsome : ((Runs.run (step ⟨3, List.length⟩)
      (World.created (createdManifest none ⟨1, 0⟩ "w")) switchTwice).map fun w => w.tasks 1) =
      some (some ⟨.batch [switchHead "refs/heads/dev", switchHead "refs/heads/main"], 0,
        .done [.ok ⟨1, [("HEAD", none)], none⟩, .ok ⟨0, [("HEAD", none)], none⟩]⟩) := by
    decide
  obtain ⟨w, hrun, htask⟩ := Option.map_eq_some_iff.mp hsome
  refine ⟨w, hrun, fun htrue => ?_⟩
  obtain ⟨a, ha, -, -, hsame⟩ := (htrue 1 _ _ _ htask rfl rfl 1 _ _ rfl rfl).2.2 rfl rfl rfl
  have heq : a = firstAttempt := by
    simpa [switchTwice, lastCapture] using ha.symm
  subst heq
  exact absurd hsame.2 (by decide)

end HeadSwitch

end Walgit
