import Walgit.Forge
import Walgit.Refs

/-!
# Judging a batch

The verification loop of `process_batch`: every request is judged against the basis
of the attempt plus an overlay of the members accepted before it, and the accepted
ones become log entries with consecutive sequence numbers.
-/
namespace Walgit

inductive RefError where
  | nonFastForward
  | conflict (expected actual : String)
  | rejected (message : String)
  | missing
  deriving DecidableEq, Repr

/-- A ref name with its result; no error is `Ok`. -/
abbrev PerRef := List (String × Option RefError)

structure IngestedPack where
  checksum : String
  packSize : ℕ
  idxSize : ℕ
  objectCount : ℕ
  deriving DecidableEq, Repr

structure PublishRequest where
  pack : Option IngestedPack := none
  txn : RefTransaction := ⟨[], [], false⟩
  metadata : SortedMap String String := .empty
  synced : Bool := false
  createdAt : Option Timestamp := none
  forge : List ForgeEvent := []
  actor : Option Actor := none
  deriving DecidableEq, Inhabited

structure PublishResult where
  /-- Committed entry, or zero for a no-op or a rejection. -/
  seq : ℕ
  perRef : PerRef
  forgeError : Option String
  deriving DecidableEq, Repr

namespace PerRef

def allOk (p : PerRef) : Bool := p.all fun r => r.2.isNone

/-- Every result replaced by one rejection. -/
def rejectAll (p : PerRef) (message : String) : PerRef :=
  p.map fun r => (r.1, some (.rejected message))

/-- The results that were still `Ok` fail with their siblings. -/
def rejectOk (p : PerRef) : PerRef :=
  p.map fun r => (r.1, r.2.or (some (.rejected "another ref in the submission was rejected")))

end PerRef

def verifyUpdate (refs : RefView) (u : RefUpdate) : Option RefError :=
  if u.symbolic then none
  else
    let actual := (refs.get u.name).getD ""
    if isNullOid u.oldOid then
      if actual = "" then none else some (.conflict "(new)" actual)
    else if actual = u.oldOid then none
    else some (.conflict u.oldOid actual)

/-- Per-ref results of a transaction against a working view. -/
def verifyTxn (t : RefTransaction) (refs : RefView) : PerRef :=
  t.updates.map fun u => (u.name, verifyUpdate refs u)

def applyUpdateToMap (refs : RefView) (u : RefUpdate) : RefView :=
  if u.symbolic then refs.set u.name u.newSymbolicTarget
  else if isNullOid u.newOid then refs.remove u.name
  else refs.set u.name u.newOid

/-- The working view after an accepted transaction. -/
def applyTxnToMap (t : RefTransaction) (refs : RefView) : RefView :=
  t.updates.foldl applyUpdateToMap refs

/-- The update would leave the working view different. -/
def updateChanges (refs : RefView) (u : RefUpdate) : Bool :=
  if u.symbolic then u.name != "HEAD" || u.newSymbolicTarget != refs.headTarget
  else
    let current := (refs.get u.name).getD ""
    if isNullOid u.newOid then current != "" else current != u.newOid

namespace PerRef

theorem allOk_rejectAll {p : PerRef} {message : String} (h : (p.rejectAll message).allOk) :
    p = [] := by
  cases p with
  | nil => rfl
  | cons r p => simp [rejectAll, allOk] at h

theorem allOk_rejectOk {p : PerRef} : p.rejectOk.allOk = p.isEmpty := by
  cases p with
  | nil => rfl
  | cons r p =>
    obtain ⟨name, status⟩ := r
    cases status <;> simp [rejectOk, allOk]

end PerRef

/-- What the verification loop carries from one member to the next. -/
structure Working where
  refs : RefView
  forgeNext : ℕ
  floor : Option ℕ
  deriving DecidableEq

structure Verified where
  perRef : PerRef
  valid : Bool
  forge : List ForgeEvent
  forgeError : Option String
  deriving DecidableEq

/-- What one attempt captured: the handle's manifest with its version, the ref view paired
with it, the forge state and the newest entry time known. -/
structure Basis where
  manifest : Manifest
  version : Option ℕ
  refs : RefView
  forge : ForgeState
  lastEntryTime : Option ℕ
  deriving DecidableEq

def createdAtTooOld (t floor : ℕ) : String :=
  "created_at " ++ Text.rfc3339 t ++ " is before the WAL head's " ++ Text.rfc3339 floor ++
    " (entries must be monotonic)"

def requestChanges (refs : RefView) (req : PublishRequest) : Bool :=
  !req.forge.isEmpty || req.pack.isSome || req.txn.updates.any (updateChanges refs)

/-- An explicit time below the floor rejects every ref of the request. -/
def floorCheck (floor : Option ℕ) (req : PublishRequest) (p : PerRef) : PerRef :=
  match req.createdAt, floor with
  | some ts, some f => if ts.toSystem < f then p.rejectAll (createdAtTooOld ts.toSystem f) else p
  | _, _ => p

def floorAfter (floor : Option ℕ) (req : PublishRequest) (p : PerRef) (changes : Bool) :
    Option ℕ :=
  match req.createdAt with
  | some ts => if changes && p.allOk then some ts.toSystem else floor
  | none => floor

theorem allOk_floorCheck {floor : Option ℕ} {req : PublishRequest} {p : PerRef}
    (h : (floorCheck floor req p).allOk) : p.allOk := by
  unfold floorCheck at h
  split at h
  · split_ifs at h
    · rw [PerRef.allOk_rejectAll h]
      rfl
    · exact h
  · exact h

section Judge

variable [Text.CharTables]

def noWriteAccess : String :=
  "you don't have write access to this repository (permission changed during push)"

/-- Why the request's forge events are refused, if they are. -/
def forgeErrorOf (b : Basis) (req : PublishRequest) (events : List ForgeEvent) : Option String :=
  if events.isEmpty then none
  else match req.actor with
    | none => some "forge events need an actor"
    | some actor =>
      match b.forge.verify actor (actor.role b.manifest.access) events with
      | .ok _ => none
      | .error e => some e

/-- Why the request's ref updates are refused for the role of its actor. -/
def refsErrorOf (b : Basis) (req : PublishRequest) : Option String :=
  match req.actor with
  | none => none
  | some actor =>
    if actor.role b.manifest.access < .write && !req.txn.updates.isEmpty then some noWriteAccess
    else none

/-- One iteration of the verification loop. -/
def judge (b : Basis) (w : Working) (req : PublishRequest) : Verified × Working :=
  let numbered := ForgeState.number req.forge w.forgeNext
  let forgeError := forgeErrorOf b req numbered.1
  let verdict := verifyTxn req.txn w.refs
  let verdict := match forgeError.or (refsErrorOf b req) with
    | some message => verdict.rejectAll message
    | none => verdict
  let changes := requestChanges w.refs req
  let verdict := floorCheck w.floor req verdict
  let floor := floorAfter w.floor req verdict changes
  let allOk := forgeError.isNone && verdict.allOk
  let w' : Working :=
    { refs := if allOk then applyTxnToMap req.txn w.refs else w.refs
      forgeNext := if allOk && changes then numbered.2 else w.forgeNext
      floor := floor }
  ({ perRef := if allOk then verdict else verdict.rejectOk
     valid := allOk && changes
     forge := numbered.1
     forgeError := forgeError }, w')

/-- The three ways a request is judged: accepted, accepted without a change, or refused. -/
theorem judge_cases (b : Basis) (w : Working) (req : PublishRequest) :
    let v := (judge b w req).1
    let w' := (judge b w req).2
    (v.valid = true ∧ v.perRef.allOk ∧ v.forgeError = none ∧
      (∀ u ∈ req.txn.updates, verifyUpdate w.refs u = none) ∧
      requestChanges w.refs req = true ∧ w'.refs = applyTxnToMap req.txn w.refs) ∨
    (v.valid = false ∧ v.perRef.allOk ∧ v.forgeError = none ∧
      requestChanges w.refs req = false ∧ w'.refs = applyTxnToMap req.txn w.refs) ∨
    (v.valid = false ∧ (v.perRef.allOk = false ∨ v.forgeError.isSome) ∧ w'.refs = w.refs) := by
  intro v w'
  -- The verdict just before siblings are rejected.
  set verdict : PerRef := floorCheck w.floor req
    (match (forgeErrorOf b req (ForgeState.number req.forge w.forgeNext).1).or
        (refsErrorOf b req) with
      | some message => (verifyTxn req.txn w.refs).rejectAll message
      | none => verifyTxn req.txn w.refs) with hverdict
  have hverify : verdict.allOk → ∀ u ∈ req.txn.updates, verifyUpdate w.refs u = none := by
    intro hok u hu
    have hinner := allOk_floorCheck hok
    split at hinner
    · have hnil := PerRef.allOk_rejectAll hinner
      rw [verifyTxn, List.map_eq_nil_iff] at hnil
      rw [hnil] at hu
      cases hu
    · have hmem : (u.name, verifyUpdate w.refs u) ∈ verifyTxn req.txn w.refs :=
        List.mem_map.mpr ⟨u, hu, rfl⟩
      simpa using List.all_eq_true.mp hinner _ hmem
  have hv : v = ⟨if (v.forgeError.isNone && verdict.allOk) then verdict else verdict.rejectOk,
      v.forgeError.isNone && verdict.allOk && requestChanges w.refs req,
      v.forge, v.forgeError⟩ := rfl
  have hw : w'.refs = if (v.forgeError.isNone && verdict.allOk) then applyTxnToMap req.txn w.refs
      else w.refs := rfl
  cases hforge : v.forgeError with
  | some e =>
    refine Or.inr (Or.inr ⟨?_, Or.inr rfl, ?_⟩)
    · rw [hv, hforge]
      rfl
    · rw [hw, hforge]
      rfl
  | none =>
    by_cases hok : verdict.allOk
    · have hper : v.perRef.allOk := by
        rw [hv, hforge]
        simp [hok]
      have hrefs : w'.refs = applyTxnToMap req.txn w.refs := by
        rw [hw, hforge]
        simp [hok]
      cases hchanges : requestChanges w.refs req with
      | true =>
        refine Or.inl ⟨?_, hper, rfl, hverify hok, rfl, hrefs⟩
        rw [hv, hforge]
        simp [hok, hchanges]
      | false =>
        refine Or.inr (Or.inl ⟨?_, hper, rfl, rfl, hrefs⟩)
        rw [hv, hforge]
        simp [hchanges]
    · have hno : verdict.allOk = false := by simpa using hok
      refine Or.inr (Or.inr ⟨?_, Or.inl ?_, ?_⟩)
      · rw [hv, hforge]
        simp [hno]
      · rw [hv, hforge]
        simp only [Option.isNone_none, Bool.true_and, hno, Bool.false_eq_true, if_false]
        rw [PerRef.allOk_rejectOk]
        cases hnil : verdict with
        | nil => simp [hnil, PerRef.allOk] at hno
        | cons r p => rfl
      · rw [hw, hforge]
        simp [hno]

/-- A valid verdict means that neither the events nor the updates were refused. -/
theorem judge_valid {b : Basis} {w : Working} {req : PublishRequest}
    (h : (judge b w req).1.valid) :
    forgeErrorOf b req (judge b w req).1.forge = none ∧ refsErrorOf b req = none := by
  set forgeError := forgeErrorOf b req (ForgeState.number req.forge w.forgeNext).1 with hforge
  set inner : PerRef := match forgeError.or (refsErrorOf b req) with
    | some message => (verifyTxn req.txn w.refs).rejectAll message
    | none => verifyTxn req.txn w.refs with hinner
  have hvalid : (forgeError.isNone && (floorCheck w.floor req inner).allOk &&
      requestChanges w.refs req) = true := h
  simp only [Bool.and_eq_true, Option.isNone_iff_eq_none] at hvalid
  obtain ⟨⟨hnone, hok⟩, -⟩ := hvalid
  refine ⟨hnone, ?_⟩
  cases hrefs : refsErrorOf b req with
  | none => rfl
  | some message =>
    have hin := allOk_floorCheck hok
    rw [hinner, hnone, hrefs] at hin
    have hnil : req.txn.updates = [] := by
      simpa [verifyTxn] using PerRef.allOk_rejectAll hin
    simp only [refsErrorOf] at hrefs
    split at hrefs
    · cases hrefs
    · simp [hnil] at hrefs

theorem judge_forgeNext (b : Basis) (w : Working) (req : PublishRequest) :
    (judge b w req).2.forgeNext = if (judge b w req).1.valid then
      (ForgeState.number req.forge w.forgeNext).2 else w.forgeNext := rfl

/-- Without an explicit time the floor stays. -/
theorem judge_floor_none (b : Basis) (w : Working) {req : PublishRequest}
    (h : req.createdAt = none) : (judge b w req).2.floor = w.floor := by
  simp [judge, floorAfter, h]

/-- With an explicit time and ref updates the floor moves to it exactly on acceptance. -/
theorem judge_floor_some (b : Basis) (w : Working) {req : PublishRequest} {ts : Timestamp}
    (h : req.createdAt = some ts) (hne : req.txn.updates ≠ []) :
    (judge b w req).2.floor =
        (if (judge b w req).1.valid then some ts.toSystem else w.floor) ∧
      ((judge b w req).1.valid → ∀ f ∈ w.floor, f ≤ ts.toSystem) := by
  set forgeError := forgeErrorOf b req (ForgeState.number req.forge w.forgeNext).1 with hforge
  set inner : PerRef := match forgeError.or (refsErrorOf b req) with
    | some message => (verifyTxn req.txn w.refs).rejectAll message
    | none => verifyTxn req.txn w.refs with hinner
  set verdict := floorCheck w.floor req inner with hverdict
  have hverify : verifyTxn req.txn w.refs ≠ [] := by
    simpa [verifyTxn] using hne
  have hsome : inner ≠ [] := by
    rw [hinner]
    split
    · simpa [PerRef.rejectAll] using hverify
    · exact hverify
  -- A refused request has a refused ref, so the verdict alone decides.
  have hnone : verdict.allOk → forgeError = none := by
    intro hok
    have hin : inner.allOk := allOk_floorCheck hok
    cases herr : forgeError with
    | none => rfl
    | some e =>
      rw [hinner, herr] at hin
      exact absurd (PerRef.allOk_rejectAll hin) hverify
  have hvalid : (judge b w req).1.valid = (verdict.allOk && requestChanges w.refs req) := by
    change (forgeError.isNone && verdict.allOk && requestChanges w.refs req) = _
    cases hok : verdict.allOk with
    | false => simp
    | true => simp [hnone hok]
  have hfloor : (judge b w req).2.floor =
      floorAfter w.floor req verdict (requestChanges w.refs req) := rfl
  rw [hfloor, hvalid]
  refine ⟨by simp [floorAfter, h, Bool.and_comm], fun hv f hf => ?_⟩
  by_contra hlt
  rw [Option.mem_def] at hf
  have hcheck : verdict = inner.rejectAll (createdAtTooOld ts.toSystem f) := by
    rw [hverdict]
    simp [floorCheck, h, hf, Nat.lt_of_not_le hlt]
  rw [Bool.and_eq_true, hcheck] at hv
  exact hsome (PerRef.allOk_rejectAll hv.1)

def Basis.working (b : Basis) : Working :=
  ⟨b.refs, max b.manifest.forgeNextNumber 1, b.lastEntryTime⟩

/-- The verification loop: the verdicts in order and what the loop ended with. -/
def judgeAll (b : Basis) : Working → List PublishRequest → List Verified × Working
  | w, [] => ([], w)
  | w, req :: reqs =>
    let v := judge b w req
    let r := judgeAll b v.2 reqs
    (v.1 :: r.1, r.2)

@[simp] theorem judgeAll_length (b : Basis) (w : Working) (reqs : List PublishRequest) :
    (judgeAll b w reqs).1.length = reqs.length := by
  induction reqs generalizing w with
  | nil => rfl
  | cons req reqs ih => simp [judgeAll, ih]

/-- The loop over a prefix is a prefix of the loop. -/
theorem judgeAll_take (b : Basis) (w : Working) (reqs : List PublishRequest) (i : ℕ) :
    (judgeAll b w (reqs.take i)).1 = (judgeAll b w reqs).1.take i := by
  induction reqs generalizing w i with
  | nil => simp [judgeAll]
  | cons req reqs ih =>
    cases i with
    | zero => simp [judgeAll]
    | succ i => simp [judgeAll, ih]

/-- Each verdict is that of one iteration after the members before it. -/
theorem judgeAll_getElem? (b : Basis) (w : Working) (reqs : List PublishRequest) (i : ℕ) :
    (judgeAll b w reqs).1[i]? =
      reqs[i]?.map fun req => (judge b (judgeAll b w (reqs.take i)).2 req).1 := by
  induction reqs generalizing w i with
  | nil => simp [judgeAll]
  | cons req reqs ih =>
    cases i with
    | zero => simp [judgeAll]
    | succ i => simp [judgeAll, ih]

def verifyBatch (b : Basis) (reqs : List PublishRequest) : List Verified × Working :=
  judgeAll b b.working reqs

end Judge

def packRefFromIngested (p : IngestedPack) (seq : ℕ) (publishedAt : Timestamp) : PackRef :=
  { checksum := p.checksum, packSize := p.packSize, idxSize := p.idxSize
    objectCount := p.objectCount, seq := seq, publishedAt := some publishedAt }

/-- A request that carries neither a pack nor a ref update. -/
def PublishRequest.forgeOnly (req : PublishRequest) : Bool :=
  req.pack.isNone && req.txn.updates.isEmpty

/-- The log entry of one accepted request. -/
def buildEntry (writer : String) (publishedAt now : Timestamp) (seq : ℕ) (req : PublishRequest)
    (forge : List ForgeEvent) : LogEntry where
  seq := seq
  kind := if req.forgeOnly then .forge else .push
  pack := req.pack.map fun p => packRefFromIngested p seq publishedAt
  txn := if req.forgeOnly then none else some req.txn
  supersedes := []
  createdAt := some (req.createdAt.getD now)
  writer := writer
  metadata := req.metadata
  forge := forge

/-- The accepted requests of a judged batch with their numbered forge events. -/
def accepted : List PublishRequest → List Verified → List (PublishRequest × List ForgeEvent)
  | req :: reqs, v :: vs =>
    if v.valid then (req, v.forge) :: accepted reqs vs else accepted reqs vs
  | _, _ => []

/-- Verdicts beyond the requests do not matter. -/
theorem accepted_take (reqs : List PublishRequest) (vs : List Verified) (i : ℕ) :
    accepted (reqs.take i) (vs.take i) = accepted (reqs.take i) vs := by
  induction reqs generalizing vs i with
  | nil => simp [accepted]
  | cons req reqs ih =>
    cases i with
    | zero => simp [accepted]
    | succ i =>
      cases vs with
      | nil => simp [accepted]
      | cons v vs => simp [accepted, ih]

/-- Accepted members before position `i`. -/
def validBefore (vs : List Verified) (i : ℕ) : ℕ := ((vs.take i).filter Verified.valid).length

/-- An accepted member's place among the accepted ones. -/
theorem accepted_getElem? {reqs : List PublishRequest} {vs : List Verified} {i : ℕ}
    {req : PublishRequest} {v : Verified} (hreq : reqs[i]? = some req) (hv : vs[i]? = some v)
    (hvalid : v.valid) : (accepted reqs vs)[validBefore vs i]? = some (req, v.forge) := by
  induction reqs generalizing vs i with
  | nil => simp at hreq
  | cons r reqs ih =>
    cases vs with
    | nil => simp at hv
    | cons x vs =>
      cases i with
      | zero =>
        simp only [List.getElem?_cons_zero, Option.some.injEq] at hreq hv
        subst hreq
        subst hv
        simp [accepted, validBefore, hvalid]
      | succ i =>
        simp only [List.getElem?_cons_succ] at hreq hv
        have hrest := ih hreq hv
        cases hx : x.valid with
        | true => simpa [accepted, validBefore, hx] using hrest
        | false => simpa [accepted, validBefore, hx] using hrest

/-- Each accepted member is a request of the batch with its valid verdict. -/
theorem of_accepted_getElem? {reqs : List PublishRequest} {vs : List Verified} {k : ℕ}
    {m : PublishRequest × List ForgeEvent} (h : (accepted reqs vs)[k]? = some m) :
    ∃ (i : ℕ) (v : Verified), reqs[i]? = some m.1 ∧ vs[i]? = some v ∧ v.valid ∧ v.forge = m.2 ∧
      validBefore vs i = k := by
  induction reqs generalizing vs k with
  | nil => simp [accepted] at h
  | cons req reqs ih =>
    cases vs with
    | nil => simp [accepted] at h
    | cons v vs =>
      cases hvalid : v.valid with
      | true =>
        simp only [accepted, hvalid, if_true] at h
        cases k with
        | zero =>
          simp only [List.getElem?_cons_zero, Option.some.injEq] at h
          subst h
          exact ⟨0, v, rfl, rfl, hvalid, rfl, rfl⟩
        | succ k =>
          obtain ⟨i, v', hreq, hv, hrest, hforge, hk⟩ := ih h
          refine ⟨i + 1, v', hreq, hv, hrest, hforge, ?_⟩
          simpa [validBefore, hvalid] using hk
      | false =>
        simp only [accepted, hvalid, Bool.false_eq_true, if_false] at h
        obtain ⟨i, v', hreq, hv, hrest, hforge, hk⟩ := ih h
        refine ⟨i + 1, v', hreq, hv, hrest, hforge, ?_⟩
        simpa [validBefore, hvalid] using hk

theorem accepted_subset {reqs : List PublishRequest} {vs : List Verified} :
    ∀ m ∈ accepted reqs vs, m.1 ∈ reqs := by
  intro m hm
  obtain ⟨k, hk⟩ := List.mem_iff_getElem?.mp hm
  obtain ⟨i, v, hreq, -⟩ := of_accepted_getElem? hk
  exact List.mem_of_getElem? hreq

theorem valid_of_accepted_nil {reqs : List PublishRequest} {vs : List Verified}
    (hlen : vs.length = reqs.length) (h : accepted reqs vs = []) : ∀ v ∈ vs, v.valid = false := by
  intro v hv
  by_contra hvalid
  obtain ⟨i, hi, rfl⟩ := List.mem_iff_getElem.mp hv
  have hreq : reqs[i]? = some reqs[i] := List.getElem?_eq_getElem (hlen ▸ hi)
  have hmem := accepted_getElem? hreq (List.getElem?_eq_getElem hi) (by simpa using hvalid)
  simp [h] at hmem

/-- Entries with consecutive sequence numbers; `now i` is the clock read for the `i`-th one. -/
def buildEntries (writer : String) (publishedAt : Timestamp) (now : ℕ → Timestamp) :
    ℕ → List (PublishRequest × List ForgeEvent) → List LogEntry
  | _, [] => []
  | seq, (req, forge) :: rest =>
    buildEntry writer publishedAt (now seq) seq req forge ::
      buildEntries writer publishedAt now (seq + 1) rest

@[simp] theorem buildEntries_length (writer : String) (publishedAt : Timestamp)
    (now : ℕ → Timestamp) (seq : ℕ) (members : List (PublishRequest × List ForgeEvent)) :
    (buildEntries writer publishedAt now seq members).length = members.length := by
  induction members generalizing seq with
  | nil => rfl
  | cons m members ih => simp [buildEntries, ih]

theorem buildEntries_getElem? (writer : String) (publishedAt : Timestamp) (now : ℕ → Timestamp)
    (seq : ℕ) (members : List (PublishRequest × List ForgeEvent)) (k : ℕ) :
    (buildEntries writer publishedAt now seq members)[k]? = members[k]?.map fun m =>
      buildEntry writer publishedAt (now (seq + k)) (seq + k) m.1 m.2 := by
  induction members generalizing seq k with
  | nil => simp [buildEntries]
  | cons m members ih =>
    cases k with
    | zero => simp [buildEntries]
    | succ k => simp [buildEntries, ih, Nat.add_assoc, Nat.add_comm 1 k]

theorem mem_buildEntries {writer : String} {publishedAt : Timestamp} {now : ℕ → Timestamp}
    {seq : ℕ} {members : List (PublishRequest × List ForgeEvent)} {e : LogEntry}
    (h : e ∈ buildEntries writer publishedAt now seq members) :
    ∃ m ∈ members, ∃ n, e = buildEntry writer publishedAt (now n) n m.1 m.2 := by
  obtain ⟨k, hk⟩ := List.mem_iff_getElem?.mp h
  rw [buildEntries_getElem?, Option.map_eq_some_iff] at hk
  obtain ⟨m, hm, rfl⟩ := hk
  exact ⟨m, List.mem_of_getElem? hm, _, rfl⟩

theorem foldRefs_buildEntries (r : RefState) (writer : String) (startedAt : Timestamp)
    (now : ℕ → Timestamp) (seq : ℕ) (members : List (PublishRequest × List ForgeEvent)) :
    foldRefs r (buildEntries writer startedAt now seq members) =
      r.applyTxns (members.map fun m => m.1.txn) := by
  induction members generalizing r seq with
  | nil => rfl
  | cons m members ih =>
    rw [buildEntries, foldRefs_cons, ih]
    by_cases honly : m.1.forgeOnly
    · have hnil : m.1.txn.updates = [] := by simpa using (Bool.and_eq_true_iff.mp honly).2
      simp [buildEntry, honly, RefState.applyTxns, RefState.applyTxn, hnil]
    · simp [buildEntry, honly, RefState.applyTxns]

/-- `note_entry_time`: the newest entry time known. -/
def noteEntryTime (last : Option ℕ) (e : LogEntry) : Option ℕ :=
  match e.createdAt with
  | none => last
  | some ts =>
    match last with
    | none => some ts.toSystem
    | some p => if p < ts.toSystem then some ts.toSystem else some p

/-- The answers after a commit: accepted requests get consecutive sequence numbers. -/
def responses : ℕ → List Verified → List PublishResult
  | _, [] => []
  | next, v :: vs =>
    if v.valid then ⟨next, v.perRef, none⟩ :: responses (next + 1) vs
    else ⟨0, v.perRef, v.forgeError⟩ :: responses next vs

theorem responses_getElem? (next : ℕ) (vs : List Verified) (i : ℕ) :
    (responses next vs)[i]? = vs[i]?.map fun v =>
      if v.valid then ⟨next + validBefore vs i, v.perRef, none⟩
      else ⟨0, v.perRef, v.forgeError⟩ := by
  induction vs generalizing next i with
  | nil => simp [responses]
  | cons v vs ih =>
    cases i with
    | zero =>
      cases hv : v.valid <;> simp [responses, validBefore, hv]
    | succ i =>
      cases hv : v.valid with
      | true => simp [responses, validBefore, hv, ih, Nat.add_assoc, Nat.add_comm 1]
      | false => simp [responses, validBefore, hv, ih]

end Walgit
