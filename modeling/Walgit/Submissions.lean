import Walgit.CompareAndSwap
import Walgit.PushContract

/-!
# Submitted requests

What the publishers' steps mean for the requests clients submitted: which are in the log, and
which their clients were told about. A task sends one claim in all its attempts, and the answer
that says so comes after the claim is committed.
-/
namespace Walgit

open PushContract (Entry Stage Moves)

/-- A request goes by the task it was started with and its place in the batch. -/
abbrev RequestId := ℕ × ℕ

/-- The log's clients expect the old values they name. -/
def refRules : PushContract.Rules RefState RefTransaction :=
  ⟨.fresh, RefState.Swaps, RefState.applyTxn⟩

/-- The accepted requests of a batch. -/
def memberPushes (t : ℕ) (reqs : List PublishRequest) (vs : List Verified) :
    List (RequestId × RefTransaction) :=
  ((reqs.zip vs).zipIdx.filter fun m => m.1.2.valid).map fun m => ((t, m.2), m.1.1.txn)

/-- Whether an answer tells that the request is in the log, if it tells. -/
def Answer.tells : Answer → Option Bool
  | .ok r => some (r.seq ≠ 0)
  | .error (.commitUnknown _) => none
  | .error _ => some false

/-- What the client of a request was told. -/
def World.answer (w : World) (id : RequestId) : Option Answer :=
  match (w.tasks id.1).map Task.phase with
  | some (.done answers) => answers[id.2]?
  | _ => none

section Contract

variable [Text.CharTables]

def Origin.pushes (o : Origin) : List (RequestId × RefTransaction) :=
  match o.job with
  | .batch reqs => memberPushes o.slot.task reqs (verifyBatch o.attempt.basis reqs).1
  | _ => []

/-- What a claim adds to the log: its accepted requests, or entries that change no refs. -/
def Origin.contract (o : Origin) : List (Entry RequestId RefTransaction) :=
  match o.job with
  | .batch _ => o.pushes.map fun p => .push p.1 p.2
  | _ => List.replicate o.slot.bytes.length .fold

/-- The committed log as its clients see it. -/
def contractLog : List Generation → List (Entry RequestId RefTransaction)
  | [] => []
  | g :: gens => contractLog gens ++ (g.origin.map Origin.contract).getD []

theorem contractLog_prefix (newer gens : List Generation) :
    contractLog gens <+: contractLog (newer ++ gens) := by
  induction newer with
  | nil => exact List.prefix_refl _
  | cons g newer ih => exact ih.trans (List.prefix_append _ _)

def World.logged (w : World) (id : RequestId) : Bool :=
  (contractLog w.gens).any fun e => e.id? = some id

/-- A request is at the stage its client was told, whatever the log has of it. -/
def World.stage (w : World) (id : RequestId) : Stage :=
  match (w.answer id).bind Answer.tells with
  | some true => .acknowledged
  | some false => .refused
  | none => if w.logged id then .committed else .new

/-- The submitted requests and how far they have come. -/
def World.pend (w : World) (id : RequestId) : Option (RefTransaction × Stage) :=
  match (w.tasks id.1).map Task.job with
  | some (.batch reqs) => reqs[id.2]?.map fun req => (req.txn, w.stage id)
  | _ => none

end Contract

theorem map_memberPushes (t : ℕ) (reqs : List PublishRequest) (vs : List Verified) :
    (memberPushes t reqs vs).map Prod.snd = (accepted reqs vs).map fun m => m.1.txn := by
  have hfrom : ∀ i, (((reqs.zip vs).zipIdx i).filter fun m => m.1.2.valid).map (fun m => m.1.1.txn) =
      (accepted reqs vs).map fun m => m.1.txn := by
    induction reqs generalizing vs with
    | nil => exact fun _ => rfl
    | cons req reqs ih =>
      cases vs with
      | nil => exact fun _ => rfl
      | cons v vs =>
        intro i
        cases hv : v.valid <;> simp [accepted, hv, ih vs]
  rw [memberPushes, List.map_map]
  exact hfrom 0

theorem mem_memberPushes {t : ℕ} {reqs : List PublishRequest} {vs : List Verified}
    {p : RequestId × RefTransaction} : p ∈ memberPushes t reqs vs ↔ ∃ k req v,
      p = ((t, k), req.txn) ∧ reqs[k]? = some req ∧ vs[k]? = some v ∧ v.valid := by
  rw [memberPushes, List.mem_map]
  constructor
  · rintro ⟨⟨⟨req, v⟩, k⟩, hmem, rfl⟩
    obtain ⟨hmem, hvalid⟩ := List.mem_filter.mp hmem
    obtain ⟨hreq, hv⟩ := List.getElem?_zip_eq_some.mp (List.mem_zipIdx_iff_getElem?.mp hmem)
    exact ⟨k, req, v, rfl, hreq, hv, hvalid⟩
  · rintro ⟨k, req, v, rfl, hreq, hv, hvalid⟩
    refine ⟨((req, v), k), List.mem_filter.mpr ⟨?_, hvalid⟩, rfl⟩
    exact List.mem_zipIdx_iff_getElem?.mpr (List.getElem?_zip_eq_some.mpr ⟨hreq, hv⟩)

theorem memberPushes_nodup (t : ℕ) (reqs : List PublishRequest) (vs : List Verified) :
    ((memberPushes t reqs vs).map Prod.fst).Nodup := by
  have hplaces : (((reqs.zip vs).zipIdx.filter fun m => m.1.2.valid).map Prod.snd).Nodup := by
    refine List.Nodup.sublist (List.filter_sublist.map Prod.snd) ?_
    rw [List.zipIdx_map_snd]
    exact List.nodup_range'
  have hids := hplaces.map (f := fun k => (t, k)) fun _ _ heq => congrArg Prod.snd heq
  rw [List.map_map] at hids
  rwa [memberPushes, List.map_map]

section Log

variable [Text.CharTables] {cfg : Config}

/-- A push of a claim is an accepted request of its batch. -/
theorem Origin.mem_pushes {o : Origin} {p : RequestId × RefTransaction} (h : p ∈ o.pushes) :
    ∃ reqs k req v, o.job = .batch reqs ∧ p = ((o.slot.task, k), req.txn) ∧ reqs[k]? = some req ∧
      (verifyBatch o.attempt.basis reqs).1[k]? = some v ∧ v.valid := by
  unfold Origin.pushes at h
  cases hjob : o.job with
  | batch reqs =>
    rw [hjob] at h
    obtain ⟨k, req, v, hpush⟩ := mem_memberPushes.mp h
    exact ⟨reqs, k, req, v, rfl, hpush⟩
  | compact | control | sealPacks =>
    rw [hjob] at h
    cases h

theorem Origin.task_of_mem_pushes {o : Origin} {id : RequestId}
    (h : id ∈ o.pushes.map Prod.fst) : id.1 = o.slot.task := by
  obtain ⟨p, hp, rfl⟩ := List.mem_map.mp h
  obtain ⟨_, _, _, _, -, rfl, -⟩ := o.mem_pushes hp
  rfl

theorem Origin.mem_pushes_iff {o : Origin} {reqs : List PublishRequest} {k : ℕ} {v : Verified}
    (hjob : o.job = .batch reqs) (hv : (verifyBatch o.attempt.basis reqs).1[k]? = some v) :
    (o.slot.task, k) ∈ o.pushes.map Prod.fst ↔ v.valid := by
  constructor
  · intro hmem
    obtain ⟨p, hp, heq⟩ := List.mem_map.mp hmem
    obtain ⟨reqs', k', req, v', hjob', rfl, -, hv', hvalid⟩ := o.mem_pushes hp
    rw [hjob] at hjob'
    cases hjob'
    obtain rfl : k' = k := congrArg Prod.snd heq
    rw [hv] at hv'
    cases hv'
    exact hvalid
  · intro hvalid
    have hlength : (verifyBatch o.attempt.basis reqs).1.length = reqs.length :=
      judgeAll_length _ _ _
    have hlt : k < reqs.length := hlength ▸ (List.getElem?_eq_some_iff.mp hv).1
    unfold Origin.pushes
    rw [hjob]
    exact List.mem_map_of_mem (mem_memberPushes.mpr
      ⟨k, reqs.get ⟨k, hlt⟩, v, rfl, List.getElem?_eq_getElem hlt, hv, hvalid⟩)

theorem Origin.pushes_nodup (o : Origin) : (o.pushes.map Prod.fst).Nodup := by
  unfold Origin.pushes
  split
  · exact memberPushes_nodup ..
  · exact List.nodup_nil

theorem Origin.id_mem_contract {o : Origin} {e : Entry RequestId RefTransaction} {id : RequestId}
    (he : e ∈ o.contract) (hid : e.id? = some id) : id ∈ o.pushes.map Prod.fst := by
  unfold Origin.contract at he
  split at he
  · obtain ⟨p, hp, rfl⟩ := List.mem_map.mp he
    cases hid
    exact List.mem_map_of_mem hp
  · rw [List.eq_of_mem_replicate he] at hid
    cases hid

theorem Origin.mem_contract_of_id {o : Origin} {id : RequestId}
    (h : id ∈ o.pushes.map Prod.fst) : ∃ e ∈ o.contract, e.id? = some id := by
  obtain ⟨p, hp, rfl⟩ := List.mem_map.mp h
  obtain ⟨reqs, -, -, -, hjob, -⟩ := o.mem_pushes hp
  refine ⟨.push p.1 p.2, ?_, rfl⟩
  rw [Origin.contract, hjob]
  exact List.mem_map.mpr ⟨p, hp, rfl⟩

theorem logged_iff {w : World} {id : RequestId} :
    w.logged id ↔ ∃ o, Committed w o ∧ id ∈ o.pushes.map Prod.fst := by
  have hgens : ∀ gens : List Generation,
      ((contractLog gens).any fun e => e.id? = some id) = true ↔
        ∃ g ∈ gens, ∃ o ∈ g.origin, id ∈ o.pushes.map Prod.fst := by
    intro gens
    induction gens with
    | nil => simp [contractLog]
    | cons g gens ih =>
      rw [contractLog, List.any_append, Bool.or_eq_true, ih, or_comm]
      simp only [List.mem_cons, exists_eq_or_imp]
      refine or_congr ?_ Iff.rfl
      cases ho : g.origin with
      | none => simp
      | some o =>
        simp only [Option.map_some, Option.getD_some, List.any_eq_true, decide_eq_true_eq,
          Option.mem_def, Option.some.injEq, exists_eq_left']
        constructor
        · rintro ⟨e, he, hid⟩
          exact o.id_mem_contract he hid
        · exact o.mem_contract_of_id
  rw [World.logged, hgens]
  constructor
  · rintro ⟨g, hg, o, ho, hid⟩
    exact ⟨o, ⟨g, hg, ho⟩, hid⟩
  · rintro ⟨o, ⟨g, hg, ho⟩, hid⟩
    exact ⟨g, hg, o, ho, hid⟩

omit [Text.CharTables] in
theorem foldl_pushes (s : RefState) (ps : List (RequestId × RefTransaction)) :
    (ps.map fun p => Entry.push p.1 p.2).foldl refRules.next s = s.applyTxns (ps.map Prod.snd) := by
  induction ps generalizing s with
  | nil => rfl
  | cons p ps ih =>
    rw [List.map_cons, List.foldl_cons, ih]
    rfl

omit [Text.CharTables] in
theorem foldl_folds (s : RefState) (n : ℕ) :
    (List.replicate n (Entry.fold : Entry RequestId RefTransaction)).foldl refRules.next s = s := by
  induction n with
  | zero => rfl
  | succ n ih => exact ih

/-- A claim changes the refs the way its pushes do, and it has an entry for each of them. -/
theorem Origin.Wrote.contract {o : Origin} (h : o.Wrote) (s : RefState) :
    o.contract.foldl refRules.next s = foldRefs s o.slot.bytes ∧
      o.contract.length = o.slot.bytes.length := by
  obtain ⟨clock, es, hes, -, hbytes⟩ := h
  unfold Origin.contract Origin.pushes
  cases hjob : o.job with
  | batch reqs =>
    rw [hjob] at hes
    cases hes
    simp only
    rw [foldl_pushes, map_memberPushes, hbytes, foldRefs_withNonce, foldRefs_buildEntries,
      List.length_map, withNonce_length, buildEntries_length]
    refine ⟨rfl, ?_⟩
    have hlength := congrArg List.length (map_memberPushes o.slot.task reqs
      (verifyBatch o.attempt.basis reqs).1)
    rwa [List.length_map, List.length_map] at hlength
  | compact | control | sealPacks =>
    refine ⟨(foldl_folds ..).trans ?_, List.length_replicate⟩
    have hnone : es.filterMap LogEntry.txn = [] := List.filterMap_eq_nil_iff.mpr fun e he =>
      (Job.entries_of_not_batch hes (by rw [hjob]; rfl) e he).1
    rw [hbytes, foldRefs_withNonce, foldRefs, hnone]
    rfl

/-- The log as its clients see it has the refs of the log, entry by entry. -/
theorem Chain.contract {gens : List Generation} (h : Chain cfg gens) :
    refRules.after (contractLog gens) = foldRefs .fresh (committedEntries gens) ∧
      (contractLog gens).length = (committedEntries gens).length := by
  induction h with
  | created access now writer version => exact ⟨rfl, rfl⟩
  | append older o now m version basis wrote burned edit newer ih =>
    obtain ⟨hrefs, hlength⟩ := ih
    obtain ⟨hnew, hcount⟩ := wrote.contract (foldRefs .fresh (committedEntries _))
    rw [contractLog, committedEntries, refRules.after_append, hrefs, foldRefs_append]
    exact ⟨hnew, by rw [List.length_append, List.length_append, hlength]; exact congrArg _ hcount⟩
  | rewrite older job policy writer now m version edit folded newer ih =>
    rw [contractLog, committedEntries]
    simpa using ih

end Log

section Sent

variable [Text.CharTables] {cfg : Config} {w w' : World} {action : Action}

/-- The steps that may write a manifest. -/
def Action.writes : Action → Bool
  | .swap .. | .rewrite .. | .land .. => true
  | _ => false

/-- The other steps commit nothing and put no swap on the wire. -/
theorem step_quiet (h : step cfg w action = some w') (hquiet : action.writes = false) :
    w'.gens = w.gens ∧ ∀ mode m o, Request.swap mode m (some o) ∈ w'.wire →
      Request.swap mode m (some o) ∈ w.wire := by
  cases action with
  | start t job =>
    obtain ⟨-, rfl⟩ := step_start h
    exact ⟨rfl, fun _ _ _ hmem => hmem⟩
  | capture t a =>
    obtain ⟨task, -, -, -, rfl⟩ := step_capture h
    exact ⟨rfl, fun _ _ _ hmem => hmem⟩
  | abort t message =>
    obtain ⟨task, -, -, rfl⟩ := step_abort h
    exact ⟨rfl, fun _ _ _ hmem => hmem⟩
  | claim t uuid clock reply =>
    refine ⟨claim_gens h, fun mode m o hmem => ?_⟩
    obtain ⟨task, a, seq, burned, -, -, h⟩ := step_claim h
    cases reply with
    | delivered =>
      simp only [World.claim] at h
      split_ifs at h
      split at h
      · cases h
      · split at h <;> cases h <;> exact hmem
    | lost message =>
      simp only [World.claim] at h
      split_ifs at h
      split at h <;> cases h
      simpa [World.send, World.setTask] using hmem
  | probe t failure =>
    obtain ⟨task, a, seq, burned, probes, -, -, h | ⟨e, rfl⟩⟩ := step_probe h
    · obtain ⟨_, rfl, -⟩ := probe_sets h
      exact ⟨rfl, fun _ _ _ hmem => hmem⟩
    · exact ⟨rfl, fun _ _ _ hmem => hmem⟩
  | head t failure =>
    obtain ⟨task, a, seq, burned, probes, -, -, rfl | ⟨e, rfl⟩⟩ := step_head h
    · obtain ⟨_, hw, -⟩ := head_sets w t task a seq burned probes
      rw [hw]
      exact ⟨rfl, fun _ _ _ hmem => hmem⟩
    · exact ⟨rfl, fun _ _ _ hmem => hmem⟩
  | refuse t message dropSlot =>
    obtain ⟨task, -, -, rfl | ⟨a, σ, -, rfl⟩⟩ := step_refuse h
    · exact ⟨rfl, fun _ _ _ hmem => hmem⟩
    · refine ⟨rfl, fun mode m o hmem => ?_⟩
      simpa [World.send, World.setTask] using hmem
  | reread t failure =>
    obtain ⟨task, a, σ, message, -, -, h | ⟨e, rfl⟩⟩ := step_reread h
    · obtain ⟨_, rfl, -⟩ := reread_sets h
      exact ⟨rfl, fun _ _ _ hmem => hmem⟩
    · exact ⟨rfl, fun _ _ _ hmem => hmem⟩
  | confirm t failure =>
    obtain ⟨task, a, σ, m, v, message, -, -, rfl | ⟨e, rfl⟩⟩ := step_confirm h
    · obtain ⟨_, hw, -⟩ := confirm_sets w t task a σ m v message
      rw [hw]
      exact ⟨rfl, fun _ _ _ hmem => hmem⟩
    · exact ⟨rfl, fun _ _ _ hmem => hmem⟩
  | finish t =>
    obtain ⟨task, a, σ, m, v, -, -, rfl⟩ := step_finish h
    refine ⟨rfl, fun mode m o hmem => ?_⟩
    simpa [World.send, World.setTask] using hmem
  | crash t =>
    obtain ⟨task, -, -, rfl⟩ := step_crash h
    exact ⟨rfl, fun _ _ _ hmem => hmem⟩
  | lose k =>
    obtain rfl := step_lose h
    exact ⟨rfl, fun _ _ _ hmem => List.mem_of_mem_eraseIdx hmem⟩
  | swap | rewrite | land => cases hquiet

/-- The claim that a task is about to commit. -/
def Swapping (w : World) (o : Origin) : Prop :=
  ∃ task, w.tasks o.slot.task = some task ∧ task.job = o.job ∧
    task.phase = .swapping o.attempt o.slot

omit [Text.CharTables] in
/-- A landing request leads to a commit of its own claim at most. -/
theorem land_committed {r : Request} {o : Origin} (ho : Committed (w.land r) o) :
    Committed w o ∨ ∃ mode m, r = .swap mode m (some o) := by
  obtain ⟨g, hg, horigin⟩ := ho
  rcases land_gens w r with hl | ⟨mode, m, origin, rfl, hl⟩
  · exact Or.inl ⟨g, hl ▸ hg, horigin⟩
  · rw [hl] at hg
    rcases List.mem_cons.mp hg with rfl | hg
    · obtain rfl : origin = some o := horigin
      exact Or.inr ⟨mode, m, rfl⟩
    · exact Or.inl ⟨g, hg, horigin⟩

/-- Only a swap of the task's own claim sends one. -/
theorem step_sends (h : step cfg w action = some w') (hinv : Inv cfg w) {o : Origin}
    (ho : Sent w' o) : Sent w o ∨ Swapping w o := by
  cases hwrites : action.writes with
  | false =>
    obtain ⟨hgens, hwire⟩ := step_quiet h hwrites
    rcases ho with ⟨g, hg, horigin⟩ | ⟨mode, m, hmem⟩
    · exact Or.inl (Or.inl ⟨g, hgens ▸ hg, horigin⟩)
    · exact Or.inl (Or.inr ⟨mode, m, hwire mode m o hmem⟩)
  | true =>
    cases action with
    | swap t now reply =>
      obtain ⟨task, a, σ, htask, hphase, h⟩ := step_swap h
      have hown : o = ⟨task.job, a, σ⟩ → Swapping w o := by
        rintro rfl
        have hok := hinv.tasks t task htask
        unfold TaskOk at hok
        rw [hphase] at hok
        refine ⟨task, ?_, rfl, hphase⟩
        rw [hok.2.2]
        exact htask
      simp only [World.swap, Option.bind_eq_bind, Option.bind_eq_some_iff] at h
      obtain ⟨m, -, h⟩ := h
      cases reply with
      | delivered =>
        simp only at h
        split_ifs at h <;> cases h
        · rcases ho with ⟨g, hg, horigin⟩ | hwire
          · rcases List.mem_cons.mp hg with rfl | hg
            · exact Or.inr (hown (Option.some.inj horigin).symm)
            · exact Or.inl (Or.inl ⟨g, hg, horigin⟩)
          · exact Or.inl (Or.inr hwire)
        · rcases ho with hc | ⟨mode, m', hmem⟩
          · exact Or.inl (Or.inl hc)
          · refine Or.inl (Or.inr ⟨mode, m', ?_⟩)
            simpa [World.send, World.setTask] using hmem
      | lost message =>
        have hnew : ∀ {task' : Task}, Sent ((w.send [.swap a.basis.putMode m
            (some ⟨task.job, a, σ⟩)]).setTask t task') o → Sent w o ∨ o = ⟨task.job, a, σ⟩ := by
          rintro task' (hc | ⟨mode, m', hmem⟩)
          · exact Or.inl (Or.inl hc)
          · rcases List.mem_append.mp hmem with hmem | hmem
            · exact Or.inl (Or.inr ⟨mode, m', hmem⟩)
            · cases List.mem_singleton.mp hmem
              exact Or.inr rfl
        simp only at h
        split at h <;> cases h <;> exact (hnew ho).imp_right hown
    | rewrite job basis version policy writer now reply =>
      obtain ⟨m, -, -, rfl | rfl⟩ := step_rewrite h
      · rcases ho with hc | ⟨mode, m', hmem⟩
        · rcases land_committed hc with hc | ⟨_, _, heq⟩
          · exact Or.inl (Or.inl hc)
          · cases heq
        · rw [land_wire] at hmem
          exact Or.inl (Or.inr ⟨mode, m', hmem⟩)
      · rcases ho with hc | ⟨mode, m', hmem⟩
        · exact Or.inl (Or.inl hc)
        · refine Or.inl (Or.inr ⟨mode, m', ?_⟩)
          simpa [World.send] using hmem
    | land k =>
      obtain ⟨r, hr, rfl⟩ := step_land h
      rcases ho with hc | ⟨mode, m', hmem⟩
      · rcases land_committed hc with hc | ⟨mode, m', rfl⟩
        · exact Or.inl (Or.inl hc)
        · exact Or.inl (Or.inr ⟨mode, m', hr⟩)
      · rw [land_wire] at hmem
        exact Or.inl (Or.inr ⟨mode, m', List.mem_of_mem_eraseIdx hmem⟩)
    | start | capture | abort | claim | probe | head | refuse | reread | confirm | finish | crash
    | lose => cases hwrites

/-- A task sends one claim at most, of the job it was started with. -/
structure SentOnce (w : World) : Prop where
  unique : ∀ o p, Sent w o → Sent w p → o.slot.task = p.slot.task → o = p
  jobs : ∀ o, Sent w o → ∃ task, w.tasks o.slot.task = some task ∧ task.job = o.job

omit [Text.CharTables] in
theorem sentOnce_created (m : Manifest) : SentOnce (.created m) := by
  have hnone : ∀ o, ¬ Sent (.created m) o := by
    rintro o (⟨g, hg, ho⟩ | ⟨mode, m', hmem⟩)
    · rw [List.mem_singleton.mp hg] at ho
      cases ho
    · cases hmem
  exact ⟨fun o _ ho => absurd ho (hnone o), fun o ho => absurd ho (hnone o)⟩

theorem step_task (h : step cfg w action = some w') {t : ℕ} {task : Task}
    (htask : w.tasks t = some task) : ∃ task', w'.tasks t = some task' ∧ task'.job = task.job := by
  rcases step_tasks h with ⟨t', job, -, hnew, htasks⟩ | htasks | ⟨t', x, x', hx, -, hjob, htasks⟩
  · refine ⟨task, ?_, rfl⟩
    rw [htasks, Function.update_of_ne, htask]
    rintro rfl
    rw [htask] at hnew
    cases hnew
  · exact ⟨task, htasks ▸ htask, rfl⟩
  · rw [htasks, Function.update_apply]
    split_ifs with heq
    · subst heq
      rw [htask] at hx
      cases hx
      exact ⟨x', rfl, hjob⟩
    · exact ⟨task, htask, rfl⟩

theorem SentOnce.step (h : SentOnce w) (hinv : Inv cfg w)
    (hstep : Walgit.step cfg w action = some w') : SentOnce w' := by
  -- A task that is about to swap has sent nothing before.
  have hidle : ∀ o p : Origin, Swapping w o → Sent w p → o.slot.task ≠ p.slot.task := by
    rintro o p ⟨task, htask, -, hphase⟩ hp heq
    have hok := hinv.tasks _ task htask
    unfold TaskOk at hok
    rw [hphase] at hok
    exact idle_iff.mp hok.1 p hp heq.symm
  refine ⟨fun o p ho hp heq => ?_, fun o ho => ?_⟩
  · rcases step_sends hstep hinv ho with ho | ho <;> rcases step_sends hstep hinv hp with hp | hp
    · exact h.unique o p ho hp heq
    · exact absurd heq.symm (hidle p o hp ho)
    · exact absurd heq (hidle o p ho hp)
    · obtain ⟨task, htask, hjob, hphase⟩ := ho
      obtain ⟨task', htask', hjob', hphase'⟩ := hp
      rw [heq, htask'] at htask
      cases htask
      rw [hphase', Phase.swapping.injEq] at hphase
      obtain ⟨job, attempt, slot⟩ := o
      obtain ⟨job', attempt', slot'⟩ := p
      rw [Origin.mk.injEq]
      exact ⟨hjob.symm.trans hjob', hphase.1.symm, hphase.2.symm⟩
  · rcases step_sends hstep hinv ho with ho | ⟨task, htask, hjob, -⟩
    · obtain ⟨task, htask, hjob⟩ := h.jobs o ho
      obtain ⟨task', htask', hjob'⟩ := step_task hstep htask
      exact ⟨task', htask', hjob'.trans hjob⟩
    · obtain ⟨task', htask', hjob'⟩ := step_task hstep htask
      exact ⟨task', htask', hjob'.trans hjob⟩

end Sent

section Moves

variable [Text.CharTables] {cfg : Config} {w w' : World} {action : Action}

omit [Text.CharTables] in
theorem answer_of_unanswered {id : RequestId} {task : Task} (htask : w.tasks id.1 = some task)
    (hnot : ∀ answers, task.phase ≠ .done answers) : w.answer id = none := by
  unfold World.answer
  rw [htask, Option.map_some]
  split
  · rename_i answers hdone
    exact absurd (Option.some.inj hdone) (hnot answers)
  · rfl

/-- What the client of a batch was told is so. -/
theorem Receipts.tells {actions : List Action} (hrec : Receipts actions w) (hinv : Inv cfg w)
    {t i : ℕ} {task : Task} {reqs : List PublishRequest} (htask : w.tasks t = some task)
    (hjob : task.job = .batch reqs) {b : Bool}
    (htold : (w.answer (t, i)).bind Answer.tells = some b) : w.logged (t, i) = b := by
  obtain ⟨answer, hanswer, htells⟩ := Option.bind_eq_some_iff.mp htold
  have hdone : ∃ answers, task.phase = .done answers ∧ answers[i]? = some answer := by
    unfold World.answer at hanswer
    rw [htask, Option.map_some] at hanswer
    split at hanswer
    · rename_i answers hdone
      exact ⟨answers, Option.some.inj hdone, hanswer⟩
    · cases hanswer
  obtain ⟨answers, hdone, hanswer⟩ := hdone
  have hunlogged : (∀ o, Committed w o → o.slot.task = t → (t, i) ∉ o.pushes.map Prod.fst) →
      w.logged (t, i) = false := by
    intro hnone
    rw [Bool.eq_false_iff]
    intro hlog
    obtain ⟨o, hc, hmem⟩ := logged_iff.mp hlog
    exact hnone o hc (o.task_of_mem_pushes hmem).symm hmem
  have hset := hrec.settled htask hdone (by rw [hjob]; rfl)
  simp only [Settled, hjob] at hset
  cases hset with
  | unknown message =>
    rw [failAll_getElem? hanswer] at htells
    cases htells
  | failed e definite idle =>
    rw [failAll_getElem? hanswer] at htells
    have hb : b = false := by
      cases e with
      | commitUnknown message => exact absurd rfl (definite message)
      | corrupt | store | invalid | retry => exact (Option.some.inj htells).symm
    rw [hb]
    exact hunlogged fun o hc ht => absurd ht (idle_iff.mp idle o (Or.inl hc))
  | unchanged a reqs' batch attempt none idle =>
    cases batch
    obtain ⟨v, hv, ⟨hvalid, rfl⟩ | ⟨-, rfl⟩⟩ := answer_cases hanswer
    · rw [valid_of_accepted_nil (judgeAll_length _ _ _) none v (List.mem_of_getElem? hv)] at hvalid
      cases hvalid
    · obtain rfl : false = b := Option.some.inj htells
      exact hunlogged fun o hc ht => absurd ht (idle_iff.mp idle o (Or.inl hc))
  | committed a σ reqs' batch attempt kept owner sole =>
    cases batch
    obtain ⟨v, hv, ⟨hvalid, rfl⟩ | ⟨hvalid, rfl⟩⟩ := answer_cases hanswer
    · -- The claimed slot lies above the head.
      have hpositive : a.basis.manifest.headSeq < σ.firstSeq :=
        (hinv.claims _ (hinv.claimed _ kept)).burned.1
      have hseq : σ.firstSeq + validBefore (verifyBatch a.basis reqs).1 i ≠ 0 := by omega
      obtain rfl : true = b := (decide_eq_true hseq).symm.trans (Option.some.inj htells)
      refine logged_iff.mpr ⟨_, kept, ?_⟩
      rw [← owner]
      exact (Origin.mem_pushes_iff (o := ⟨.batch reqs, a, σ⟩) rfl hv).mpr hvalid
    · obtain rfl : false = b := Option.some.inj htells
      refine hunlogged fun o hc ht hmem => ?_
      obtain rfl := sole o (Or.inl hc) ht
      rw [← owner, Origin.mem_pushes_iff (o := ⟨.batch reqs, a, σ⟩) rfl hv, hvalid] at hmem
      cases hmem

/-- A task that is answered moves its requests to the stages the answers tell. -/
theorem moves_stage {id : RequestId} (txn : RefTransaction) (hlogged : w'.logged id = w.logged id)
    (hnone : w.answer id = none)
    (htells : ∀ b, (w'.answer id).bind Answer.tells = some b → w'.logged id = b) :
    Moves (some (txn, w.stage id)) (some (txn, w'.stage id)) := by
  unfold World.stage
  rw [hnone, Option.bind_none, ← hlogged]
  cases htold : (w'.answer id).bind Answer.tells with
  | none => exact .same _
  | some b =>
    rw [htells b htold]
    cases b with
    | true => exact .acknowledge txn
    | false => exact .refuse txn

/-- Without a new claim in the log requests are only submitted or answered, those of one task. -/
theorem step_moves {actions : List Action} (h : step cfg w action = some w') (hinv : Inv cfg w)
    (hsent : SentOnce w) (hrec : Receipts actions w)
    (hlogged : ∀ id, w'.logged id = w.logged id) :
    ∃ ids : List RequestId, (∀ id ∉ ids, w'.pend id = w.pend id) ∧
      ∀ id ∈ ids, Moves (w.pend id) (w'.pend id) := by
  have hkept : ∀ {id}, w'.tasks id.1 = w.tasks id.1 → w'.pend id = w.pend id := by
    intro id htask
    have hstage : w'.stage id = w.stage id := by
      rw [World.stage, World.stage, hlogged, World.answer, World.answer, htask]
    rw [World.pend, World.pend, htask, hstage]
  have hplaces : ∀ {t : ℕ} {reqs : List PublishRequest} {id : RequestId},
      id ∉ (List.range reqs.length).map (fun i => (t, i)) → id.1 = t → reqs[id.2]? = none := by
    intro t reqs id hid ht
    refine List.getElem?_eq_none (le_of_not_gt fun hlt => hid ?_)
    exact List.mem_map.mpr ⟨id.2, List.mem_range.mpr hlt, by rw [← ht]⟩
  rcases step_tasks h with ⟨t, job, -, hnew, htasks⟩ | htasks | ⟨t, x, x', hx, hnot, hjob, htasks⟩
  · have hself : w'.tasks t = some ⟨job, 0, .ready⟩ := by rw [htasks, Function.update_self]
    have hother : ∀ id : RequestId, id.1 ≠ t → w'.tasks id.1 = w.tasks id.1 :=
      fun id hne => by rw [htasks, Function.update_of_ne hne]
    cases job with
    | batch reqs =>
      refine ⟨(List.range reqs.length).map fun i => (t, i), fun id hid => ?_, fun id hid => ?_⟩
      · by_cases ht : id.1 = t
        · rw [World.pend, World.pend, ht, hself, hnew]
          simp [hplaces hid ht]
        · exact hkept (hother id ht)
      · obtain ⟨i, hi, rfl⟩ := List.mem_map.mp hid
        have hunlogged : w.logged (t, i) = false := by
          rw [Bool.eq_false_iff]
          intro hlog
          obtain ⟨o, hc, hmem⟩ := logged_iff.mp hlog
          obtain ⟨task, htask, -⟩ := hsent.jobs o (Or.inl hc)
          rw [← o.task_of_mem_pushes hmem, hnew] at htask
          cases htask
        have hstage : w'.stage (t, i) = .new := by
          rw [World.stage, hlogged, hunlogged,
            @answer_of_unanswered _ (t, i) _ hself (by simp)]
          rfl
        rw [World.pend, World.pend, hnew, hself, hstage]
        simp only [Option.map_none, Option.map_some,
          List.getElem?_eq_getElem (List.mem_range.mp hi)]
        exact .submit _
    | compact | control | sealPacks =>
      refine ⟨[], fun id _ => ?_, fun id hid => by cases hid⟩
      by_cases ht : id.1 = t
      · rw [World.pend, World.pend, ht, hself, hnew]
        rfl
      · exact hkept (hother id ht)
  · exact ⟨[], fun id _ => hkept (by rw [htasks]), fun id hid => by cases hid⟩
  · have hself : w'.tasks t = some x' := by rw [htasks, Function.update_self]
    have hother : ∀ id : RequestId, id.1 ≠ t → w'.tasks id.1 = w.tasks id.1 :=
      fun id hne => by rw [htasks, Function.update_of_ne hne]
    cases hbatch : x.job with
    | batch reqs =>
      refine ⟨(List.range reqs.length).map fun i => (t, i), fun id hid => ?_, fun id hid => ?_⟩
      · by_cases ht : id.1 = t
        · rw [World.pend, World.pend, ht, hself, hx]
          simp [hjob, hbatch, hplaces hid ht]
        · exact hkept (hother id ht)
      · obtain ⟨i, hi, rfl⟩ := List.mem_map.mp hid
        rw [World.pend, World.pend, hx, hself]
        simp only [Option.map_some, hjob, hbatch,
          List.getElem?_eq_getElem (List.mem_range.mp hi)]
        exact moves_stage _ (hlogged _) (@answer_of_unanswered _ (t, i) _ hx hnot) fun b =>
          (hrec.step hinv action h).tells (hinv.step action h) hself (hjob.trans hbatch)
    | compact | control | sealPacks =>
      refine ⟨[], fun id _ => ?_, fun id hid => by cases hid⟩
      by_cases ht : id.1 = t
      · rw [World.pend, World.pend, ht, hself, hx]
        simp [hjob, hbatch]
      · exact hkept (hother id ht)

/-- A step that commits answers nobody and starts no task. -/
theorem step_commit_tasks (h : step cfg w action = some w') {g : Generation}
    (hg : w'.gens = g :: w.gens) :
    (∀ t, (w'.tasks t).map Task.job = (w.tasks t).map Task.job) ∧
      ∀ id, w'.answer id = w.answer id := by
  have hsame : w'.tasks = w.tasks → (∀ t, (w'.tasks t).map Task.job = (w.tasks t).map Task.job) ∧
      ∀ id, w'.answer id = w.answer id := by
    intro htasks
    exact ⟨fun t => by rw [htasks], fun id => by rw [World.answer, htasks, World.answer]⟩
  cases hwrites : action.writes with
  | false =>
    have hlength := congrArg List.length (hg.symm.trans (step_quiet h hwrites).1)
    simp at hlength
  | true =>
    cases action with
    | swap t now reply =>
      obtain ⟨task, a, σ, htask, hphase, h⟩ := step_swap h
      simp only [World.swap, Option.bind_eq_bind, Option.bind_eq_some_iff] at h
      obtain ⟨m, -, h⟩ := h
      have hloop : w.gens ≠ g :: w.gens := by
        intro heq
        simpa using congrArg List.length heq
      cases reply with
      | delivered =>
        simp only at h
        split_ifs at h <;> cases h
        · refine ⟨fun t' => ?_, fun id => ?_⟩
          · change (Function.update w.tasks t _ t').map Task.job = _
            rw [Function.update_apply]
            split_ifs with heq
            · rw [heq, htask]
              rfl
            · rfl
          · by_cases heq : id.1 = t
            · subst heq
              have hbefore : w.answer id = none := answer_of_unanswered htask (by simp [hphase])
              rw [hbefore]
              exact answer_of_unanswered (Function.update_self ..) (by simp [Task.goto])
            · unfold World.answer
              rw [World.setTask]
              simp only [Function.update_of_ne heq]
              rfl
        · exact absurd hg hloop
      | lost message =>
        simp only at h
        split at h <;> cases h <;> exact absurd hg hloop
    | rewrite job basis version policy writer now reply =>
      obtain ⟨m, -, -, rfl | rfl⟩ := step_rewrite h
      · exact hsame (land_tasks w _)
      · exact hsame rfl
    | land k =>
      obtain ⟨r, -, rfl⟩ := step_land h
      exact hsame (land_tasks _ r)
    | start | capture | abort | claim | probe | head | refuse | reread | confirm | finish | crash
    | lose => cases hwrites

/-- Until its claim is committed a batch is told that the outcome is unknown, if anything. -/
theorem Receipts.unsettled {actions : List Action} (hrec : Receipts actions w) {o : Origin}
    {reqs : List PublishRequest} (hsent : Sent w o) (hnew : ¬ Committed w o)
    (hjob : o.job = .batch reqs) {task : Task} (htask : w.tasks o.slot.task = some task)
    (hsame : task.job = o.job) {answers : List Answer} (hdone : task.phase = .done answers) :
    ∃ message, answers = failAll (.batch reqs) (.commitUnknown message) := by
  have hset := hrec.settled htask hdone (by rw [hsame, hjob]; rfl)
  simp only [Settled, hsame, hjob] at hset
  cases hset with
  | unknown message => exact ⟨message, rfl⟩
  | failed e definite idle => exact absurd rfl (idle_iff.mp idle o hsent)
  | unchanged a reqs' batch attempt none idle => exact absurd rfl (idle_iff.mp idle o hsent)
  | committed a σ reqs' batch attempt kept owner sole =>
    rw [sole o hsent rfl] at hnew
    exact absurd kept hnew

/-- A claim that a step commits was not committed before. -/
theorem not_committed_before (hinv' : Inv cfg w') {g : Generation} {o : Origin}
    (hg : w'.gens = g :: w.gens) (ho : g.origin = some o) : ¬ Committed w o := by
  rintro ⟨g₀, hg₀, ho₀⟩
  have hchain := hinv'.chain
  cases hgens : w.gens with
  | nil => simp [hgens] at hg₀
  | cons g₁ gens =>
    rw [hg, hgens] at hchain
    have hwrote : o.Wrote := (hchain.ref_mem List.mem_cons_self ho).1
    obtain ⟨e, he⟩ := List.exists_mem_of_ne_nil _ hwrote.bytes_ne_nil
    have hlater := hchain.new_entries (e := e) (by simpa [ho] using he)
    have hearlier := (hchain.older.1.entry_bounds (mem_committedEntries (hgens ▸ hg₀) ho₀ he)).2
    omega

/-- A commit takes the claim's accepted requests from submitted to committed. -/
theorem step_commits {actions : List Action} (h : step cfg w action = some w')
    (hinv : Inv cfg w) (hsent : SentOnce w) (hrec : Receipts actions w) {g : Generation}
    {o : Origin} (hg : w'.gens = g :: w.gens) (ho : g.origin = some o) :
    (∀ p ∈ o.pushes, w.pend p.1 = some (p.2, .new)) ∧
      (∀ id ∉ o.pushes.map Prod.fst, w'.pend id = w.pend id) ∧
      ∀ p ∈ o.pushes, w'.pend p.1 = some (p.2, .committed) := by
  obtain ⟨hjobs, hanswers⟩ := step_commit_tasks h hg
  have hinv' := hinv.step action h
  have hsent' := hsent.step hinv h
  have hcommitted : Committed w' o := ⟨g, hg ▸ List.mem_cons_self, ho⟩
  have hnew : ¬ Committed w o := not_committed_before hinv' hg ho
  have hlogged : ∀ id, w'.logged id ↔ w.logged id ∨ id ∈ o.pushes.map Prod.fst := by
    intro id
    rw [World.logged, hg, contractLog, List.any_append, Bool.or_eq_true, ho]
    refine or_congr Iff.rfl ?_
    simp only [Option.map_some, Option.getD_some, List.any_eq_true, decide_eq_true_eq]
    constructor
    · rintro ⟨e, he, hid⟩
      exact o.id_mem_contract he hid
    · exact o.mem_contract_of_id
  have hunlogged : ∀ id ∈ o.pushes.map Prod.fst, w.logged id = false := by
    intro id hid
    rw [Bool.eq_false_iff]
    intro hlog
    obtain ⟨p, hp, hidp⟩ := logged_iff.mp hlog
    have hp' : Committed w' p := by
      obtain ⟨g₀, hg₀, ho₀⟩ := hp
      exact ⟨g₀, hg ▸ List.mem_cons_of_mem _ hg₀, ho₀⟩
    have htask := (o.task_of_mem_pushes hid).symm.trans (p.task_of_mem_pushes hidp)
    exact hnew (hsent'.unique o p (Or.inl hcommitted) (Or.inl hp') htask ▸ hp)
  -- Before the commit nobody was told anything about these requests.
  have hsilent : ∀ p ∈ o.pushes, w.pend p.1 = some (p.2, w.stage p.1) ∧
      w'.pend p.1 = some (p.2, w'.stage p.1) ∧ (w.answer p.1).bind Answer.tells = none := by
    intro p hp
    obtain ⟨reqs, k, req, v, hjob, rfl, hreq, -⟩ := o.mem_pushes hp
    have hold : Sent w o ∨ Swapping w o := step_sends h hinv (Or.inl hcommitted)
    have hmine : ∃ task, w.tasks o.slot.task = some task ∧ task.job = o.job := by
      rcases hold with hs | ⟨task, htask, hsame, -⟩
      · exact hsent.jobs o hs
      · exact ⟨task, htask, hsame⟩
    obtain ⟨task, htask, hsame⟩ := hmine
    have hpend : ∀ {x : World}, (x.tasks o.slot.task).map Task.job = some o.job →
        x.pend (o.slot.task, k) = some (req.txn, x.stage (o.slot.task, k)) := by
      intro x hx
      simp only [World.pend, hx, hjob, hreq, Option.map_some]
    refine ⟨hpend (by rw [htask, ← hsame]; rfl), hpend (by rw [hjobs, htask, ← hsame]; rfl), ?_⟩
    by_cases hdone : ∃ answers, task.phase = .done answers
    · obtain ⟨answers, hdone⟩ := hdone
      have hs : Sent w o := by
        rcases hold with hs | ⟨task', htask', -, hphase⟩
        · exact hs
        · rw [htask] at htask'
          cases htask'
          rw [hdone] at hphase
          cases hphase
      obtain ⟨message, rfl⟩ := hrec.unsettled hs hnew hjob htask hsame hdone
      have hanswer : w.answer (o.slot.task, k) =
          (failAll (.batch reqs) (.commitUnknown message))[k]? := by
        unfold World.answer
        simp only [htask, Option.map_some, hdone]
      rw [hanswer]
      cases hk : (failAll (.batch reqs) (.commitUnknown message))[k]? with
      | none => rfl
      | some answer =>
        rw [failAll_getElem? hk]
        rfl
    · rw [answer_of_unanswered htask (not_exists.mp hdone)]
      rfl
  refine ⟨fun p hp => ?_, fun id hid => ?_, fun p hp => ?_⟩
  · obtain ⟨hpend, -, htold⟩ := hsilent p hp
    rw [hpend, World.stage, htold, hunlogged p.1 (List.mem_map_of_mem hp)]
    rfl
  · have hlog : w'.logged id = w.logged id := by
      rw [Bool.eq_iff_iff, hlogged]
      exact or_iff_left hid
    have hstage : w'.stage id = w.stage id := by
      rw [World.stage, hlog, hanswers, World.stage]
    rw [World.pend, World.pend, hjobs, hstage]
  · obtain ⟨-, hpend, htold⟩ := hsilent p hp
    have hlog : w'.logged p.1 = true := (hlogged p.1).mpr (Or.inr (List.mem_map_of_mem hp))
    rw [hpend, World.stage, hanswers, htold, hlog]
    rfl

end Moves

end Walgit
