import Walgit.Checks
import Walgit.Reports

/-!
# Answering a push

What `receive_pack` answers when a request was parsed. The statuses of the report come from the
policy, the answers of the publisher are merged into them by name, and an answer about `HEAD` is
left out because the server may have added that update itself.
-/
namespace Walgit

open Text Report

namespace RefError

/-- The text of an error in a report. -/
def display : RefError → String
  | nonFastForward => "non-fast-forward"
  | conflict expected actual => "conflict: expected " ++ expected ++ ", got " ++ actual
  | rejected message => "rejected: " ++ message
  | missing => "ref missing"

end RefError

/-- What a publisher answers for a transaction: one result for each update, and either all of
them are accepted or none is. -/
structure PublishOutcome (t : RefTransaction) where
  perRef : PerRef
  names : perRef.map Prod.fst = t.updates.map RefUpdate.name
  settled : perRef.allOk ∨ ∀ x ∈ perRef, x.2.isSome

section Judged

theorem PerRef.names_rejectAll (p : PerRef) (message : String) :
    (p.rejectAll message).map Prod.fst = p.map Prod.fst := by
  rw [rejectAll, List.map_map]
  rfl

theorem PerRef.names_rejectOk (p : PerRef) : p.rejectOk.map Prod.fst = p.map Prod.fst := by
  rw [rejectOk, List.map_map]
  rfl

theorem names_verifyTxn (t : RefTransaction) (refs : RefView) :
    (verifyTxn t refs).map Prod.fst = t.updates.map RefUpdate.name := by
  rw [verifyTxn, List.map_map]
  rfl

theorem names_floorCheck (floor : Option ℕ) (req : PublishRequest) (p : PerRef) :
    (floorCheck floor req p).map Prod.fst = p.map Prod.fst := by
  unfold floorCheck
  split
  · split_ifs
    · exact p.names_rejectAll _
    · rfl
  · rfl

variable [CharTables]

theorem names_judge (b : Basis) (w : Working) (req : PublishRequest) :
    (judge b w req).1.perRef.map Prod.fst = req.txn.updates.map RefUpdate.name := by
  unfold judge
  extract_lets numbered forgeError ordinary verdict changes floored floor allOk
  have hverdict : verdict.map Prod.fst = req.txn.updates.map RefUpdate.name := by
    simp only [verdict]
    split
    · rw [PerRef.names_rejectAll, names_verifyTxn]
    · exact names_verifyTxn _ _
  have hfloored : floored.map Prod.fst = req.txn.updates.map RefUpdate.name :=
    (names_floorCheck _ _ _).trans hverdict
  dsimp only
  split_ifs
  · exact hfloored
  · rw [PerRef.names_rejectOk, hfloored]

theorem settled_judge (b : Basis) (w : Working) (req : PublishRequest) :
    (judge b w req).1.perRef.allOk ∨ ∀ x ∈ (judge b w req).1.perRef, x.2.isSome := by
  simp only [judge]
  split_ifs with hok
  · rw [Bool.and_eq_true] at hok
    exact Or.inl hok.2
  · right
    intro x hx
    obtain ⟨y, -, rfl⟩ := List.mem_map.mp hx
    cases y.2 <;> rfl

/-- The publisher answers with what it judged. -/
def PublishOutcome.judged (b : Basis) (w : Working) (req : PublishRequest) :
    PublishOutcome req.txn :=
  ⟨(judge b w req).1.perRef, names_judge b w req, settled_judge b w req⟩

end Judged

/-- What a request meets on its way to the report. -/
structure Reception where
  /-- The client reads progress beside the report, so that late failures are reported too. -/
  sideBand64k : Bool
  /-- Why the push is refused before any work. -/
  refusal : Option String
  sync : Option String
  ingest : Option String
  connectivity : List String → Option String
  /-- The reasons to deny an update, unless the policy cannot be loaded. -/
  policy : Except String (RefUpdate → Option String)
  /-- The local refs, if they can be read. -/
  seen : Option RefState
  publish : (t : RefTransaction) → Except String (PublishOutcome t)

namespace Receive

/-- How far a request gets. -/
inductive Course where
  | failed
  | refused (message : String)
  | denied (verdict : RefUpdate → Option String)
  | published (verdict : RefUpdate → Option String) (results : PerRef)

def tips (t : RefTransaction) : List String :=
  (t.updates.map RefUpdate.newOid).filter fun oid => !isNullOid oid

/-- One answer of the publisher goes into the status of its ref. -/
def mergeStatus (statuses : List Status) (result : Status) : List Status :=
  if result.1 = "HEAD" then statuses
  else if statuses.any fun s => s.1 == result.1 then
    statuses.replaceF fun s => if s.1 = result.1 then some result else none
  else statuses ++ [result]

def policyStatuses (verdict : RefUpdate → Option String) (t : RefTransaction) : List Status :=
  t.updates.map fun u => (u.name, verdict u)

def publishStatuses (results : PerRef) : List Status :=
  results.map fun x => (x.1, x.2.map RefError.display)

end Receive

namespace Reception

open Receive

/-- An internal error is reported as a refusal when the client is still being talked to. -/
def internal (r : Reception) (message : String) : Course :=
  if r.sideBand64k then .refused ("walgit: internal error: " ++ message) else .failed

/-- The transaction handed to the publisher. -/
def toPublish (r : Reception) (verdict : RefUpdate → Option String) (t : RefTransaction) :
    RefTransaction :=
  let allowed := evaluate (fun u => (verdict u).isNone) t
  r.seen.elim allowed fun seen => defaultBranchFromFirstPush seen allowed

/-- The steps after the sync. -/
def process (r : Reception) (t : RefTransaction) : Course :=
  match r.ingest with
  | some e => .refused ("unpack failed: " ++ e)
  | none =>
    match if (tips t).isEmpty then none else r.connectivity (tips t) with
    | some message => .refused message
    | none =>
      match r.policy with
      | .error e => r.internal ("load policy: " ++ e)
      | .ok verdict =>
        if (evaluate (fun u => (verdict u).isNone) t).updates.isEmpty then .denied verdict
        else match r.publish (r.toPublish verdict t) with
          | .error e => r.internal ("publish failed: " ++ e)
          | .ok outcome => .published verdict outcome.perRef

def course (r : Reception) (t : RefTransaction) : Course :=
  match r.refusal with
  | some message => .refused message
  | none =>
    match r.sync with
    | some e => if r.sideBand64k then .refused ("walgit: sync failed: " ++ e) else .failed
    | none => r.process t

/-- The report, unless the request ends in an HTTP error. -/
def report (r : Reception) (t : RefTransaction) : Option (List Char) :=
  match r.course t with
  | .failed => none
  | .refused message => some (body (some message) (t.updates.map fun u => (u.name, some message)))
  | .denied verdict => some (body none (policyStatuses verdict t))
  | .published verdict results =>
    some (body none ((publishStatuses results).foldl mergeStatus (policyStatuses verdict t)))

/-- The update the request asks for was accepted by the publisher. -/
def Committed (r : Reception) (t : RefTransaction) (name : String) : Prop :=
  match r.course t with
  | .published verdict results =>
    results.allOk ∧ ∃ u ∈ (evaluate (fun u => (verdict u).isNone) t).updates, u.name = name
  | _ => False

/-- Each ref is named once, no message runs on to a line that reads as a status, an atomic
request is allowed or denied as a whole, and no request for `HEAD` is left to a publisher that
rejects it. -/
def Honest (r : Reception) (t : RefTransaction) : Prop :=
  let names := t.updates.map RefUpdate.name
  match r.course t with
  | .failed => True
  | .refused message => names.Nodup ∧ Harmless names message
  | .denied verdict =>
    names.Nodup ∧ ∀ u ∈ t.updates, ∃ message, verdict u = some message ∧ Harmless names message
  | .published verdict results =>
    names.Nodup ∧ (∀ u ∈ t.updates, ∀ message, verdict u = some message → Harmless names message) ∧
      (results.allOk ∨ (∀ u ∈ t.updates, u.name = "HEAD" → (verdict u).isSome) ∧
        ∀ x ∈ results, x.1 ≠ "HEAD" → ∀ e, x.2 = some e → Harmless names e.display)

end Reception

section Parsed

variable [CharTables]

theorem Receive.parseCommandLine_valid {line : String} {u : RefUpdate} {caps : List Char}
    (h : Receive.parseCommandLine line = .ok (u, caps)) :
    validateRefUpdate u = .ok () ∧ u.plain := by
  unfold Receive.parseCommandLine at h
  simp only [Checks.throw_bind, pure_bind] at h
  split at h
  · split at h
    · split at h
      · rename_i hvalid
        cases h
        exact ⟨hvalid, rfl⟩
      · cases h
    · cases h
  · cases h

theorem Receive.parseCommands_valid {lines rest : List PktLine} {updates : List RefUpdate}
    (h : Receive.parseCommands lines = .ok (updates, rest)) :
    ∀ u ∈ updates, validateRefUpdate u = .ok () ∧ u.plain := by
  induction lines generalizing updates with
  | nil =>
    cases h
    simp
  | cons line lines ih =>
    cases line with
    | flush | delim | responseEnd =>
      cases h
      simp
    | data text =>
      unfold Receive.parseCommands at h
      split_ifs at h
      · exact ih h
      · simp only [Checks.bind_eq_ok] at h
        obtain ⟨⟨u, caps⟩, hu, ⟨us, rest'⟩, hus, heq⟩ := h
        cases heq
        rw [List.forall_mem_cons]
        exact ⟨Receive.parseCommandLine_valid hu, ih hus⟩

/-- What a request asks for is well formed. -/
theorem Receive.parse_valid {lines : List PktLine} {t : RefTransaction}
    (h : Receive.parse lines = .ok t) :
    ∀ u ∈ t.updates, validateRefUpdate u = .ok () ∧ u.plain := by
  induction lines with
  | nil =>
    cases h
    simp
  | cons line lines ih =>
    cases line with
    | flush =>
      cases h
      simp
    | delim | responseEnd => cases h
    | data text =>
      unfold Receive.parse at h
      split_ifs at h
      · exact ih h
      · simp only [Checks.bind_eq_ok] at h
        obtain ⟨⟨u, caps⟩, hu, ⟨us, rest⟩, hus, heq⟩ := h
        cases heq
        change ∀ v ∈ u :: us, _
        rw [List.forall_mem_cons]
        exact ⟨Receive.parseCommandLine_valid hu, Receive.parseCommands_valid hus⟩

theorem plain_of_validateRefName {name : String} (h : validateRefName name = .ok ()) :
    Plain name := by
  unfold validateRefName at h
  split_ifs at h with hhead hbad
  · rw [hhead]
    exact ⟨by decide, by decide⟩
  · simp only [Bool.or_eq_true, not_or] at hbad
    have hany := hbad.1.1.1.1.1.1.1.2
    rw [List.any_eq_true] at hany
    constructor
    · exact fun hmem => hany ⟨'\n', hmem, by decide⟩
    · exact fun hmem => hany ⟨' ', hmem, by decide⟩

theorem Receive.parse_plain {lines : List PktLine} {t : RefTransaction}
    (h : Receive.parse lines = .ok t) : ∀ name ∈ t.updates.map RefUpdate.name, Plain name := by
  intro name hname
  obtain ⟨u, hu, rfl⟩ := List.mem_map.mp hname
  obtain ⟨hvalid, hplain⟩ := Receive.parse_valid h u hu
  unfold validateRefUpdate at hvalid
  rw [if_neg (by simpa [RefUpdate.plain] using hplain), Checks.bind_eq_ok] at hvalid
  obtain ⟨_, hvalidName, _⟩ := hvalid
  exact plain_of_validateRefName hvalidName

end Parsed

section Merging

open Receive

theorem names_replaceF {acc : List Status} {x : Status} :
    (acc.replaceF fun s => if s.1 = x.1 then some x else none).map Prod.fst =
      acc.map Prod.fst := by
  induction acc with
  | nil => rfl
  | cons s acc ih =>
    by_cases h : s.1 = x.1
    · simp [List.replaceF, h]
    · simp [List.replaceF, h, ih]

theorem mem_replaceF {acc : List Status} {x s : Status} (hnodup : (acc.map Prod.fst).Nodup)
    (hmem : x.1 ∈ acc.map Prod.fst) :
    s ∈ (acc.replaceF fun s => if s.1 = x.1 then some x else none) ↔
      (s ∈ acc ∧ s.1 ≠ x.1) ∨ s = x := by
  induction acc with
  | nil => simp at hmem
  | cons a acc ih =>
    rw [List.map_cons, List.nodup_cons] at hnodup
    by_cases h : a.1 = x.1
    · have hothers : ∀ s ∈ acc, s.1 ≠ x.1 := by
        intro s hs heq
        exact hnodup.1 (List.mem_map.mpr ⟨s, hs, heq.trans h.symm⟩)
      simp only [List.replaceF, h, if_true, List.mem_cons]
      grind
    · rw [List.map_cons, List.mem_cons] at hmem
      have hrest := ih hnodup.2 (hmem.resolve_left fun heq => h heq.symm)
      simp only [List.replaceF, h, if_false, List.mem_cons, hrest]
      grind

theorem names_mergeStatus {acc : List Status} {x : Status}
    (h : x.1 = "HEAD" ∨ x.1 ∈ acc.map Prod.fst) :
    (mergeStatus acc x).map Prod.fst = acc.map Prod.fst := by
  unfold mergeStatus
  split_ifs with hhead hany
  · rfl
  · exact names_replaceF
  · obtain ⟨s, hs, heq⟩ := List.mem_map.mp (h.resolve_left hhead)
    exact absurd (List.any_eq_true.mpr ⟨s, hs, by simpa using heq⟩) hany

theorem names_merged {acc results : List Status}
    (h : ∀ x ∈ results, x.1 = "HEAD" ∨ x.1 ∈ acc.map Prod.fst) :
    (results.foldl mergeStatus acc).map Prod.fst = acc.map Prod.fst := by
  induction results generalizing acc with
  | nil => rfl
  | cons x results ih =>
    rw [List.forall_mem_cons] at h
    have hnames := names_mergeStatus h.1
    rw [List.foldl_cons, ih (by simpa only [hnames] using h.2), hnames]

theorem mem_mergeStatus {acc : List Status} {x s : Status} (hnodup : (acc.map Prod.fst).Nodup)
    (h : x.1 = "HEAD" ∨ x.1 ∈ acc.map Prod.fst) :
    s ∈ mergeStatus acc x ↔
      (s ∈ acc ∧ (s.1 = "HEAD" ∨ s.1 ≠ x.1)) ∨ (s = x ∧ s.1 ≠ "HEAD") := by
  unfold mergeStatus
  split_ifs with hhead hany
  · grind
  · rw [mem_replaceF hnodup (h.resolve_left hhead)]
    grind
  · obtain ⟨s, hs, heq⟩ := List.mem_map.mp (h.resolve_left hhead)
    exact absurd (List.any_eq_true.mpr ⟨s, hs, by simpa using heq⟩) hany

/-- Merged statuses are the answers for refs other than `HEAD`, and what nobody answered. -/
theorem mem_merged {acc results : List Status} {s : Status} (hnodup : (acc.map Prod.fst).Nodup)
    (hresults : (results.map Prod.fst).Nodup)
    (h : ∀ x ∈ results, x.1 = "HEAD" ∨ x.1 ∈ acc.map Prod.fst) :
    s ∈ results.foldl mergeStatus acc ↔
      (s ∈ acc ∧ (s.1 = "HEAD" ∨ s.1 ∉ results.map Prod.fst)) ∨
        (s ∈ results ∧ s.1 ≠ "HEAD") := by
  induction results generalizing acc with
  | nil => simp
  | cons x results ih =>
    rw [List.forall_mem_cons] at h
    rw [List.map_cons, List.nodup_cons] at hresults
    have hnames := names_mergeStatus h.1
    rw [List.foldl_cons, ih (hnames ▸ hnodup) hresults.2 (by simpa only [hnames] using h.2),
      mem_mergeStatus hnodup h.1, List.map_cons, List.mem_cons, List.mem_cons]
    have hother : s = x → s.1 ∉ results.map Prod.fst := by
      rintro rfl
      exact hresults.1
    grind

end Merging

section Honesty

open Receive

theorem evaluate_updates {allowed : RefUpdate → Bool} {t : RefTransaction}
    (h : (evaluate allowed t).updates.isEmpty = false) :
    (evaluate allowed t).updates = t.updates.filter allowed := by
  unfold evaluate at h ⊢
  split_ifs at h ⊢
  · cases h
  · rfl

namespace Reception

variable {r : Reception} {t : RefTransaction} {verdict : RefUpdate → Option String}

/-- The server adds at most an update of `HEAD`, and only if nobody asks for one. -/
theorem names_toPublish :
    (r.toPublish verdict t).updates.map RefUpdate.name =
        (evaluate (fun u => (verdict u).isNone) t).updates.map RefUpdate.name ∨
      (r.toPublish verdict t).updates.map RefUpdate.name =
          (evaluate (fun u => (verdict u).isNone) t).updates.map RefUpdate.name ++ ["HEAD"] ∧
        "HEAD" ∉ (evaluate (fun u => (verdict u).isNone) t).updates.map RefUpdate.name := by
  unfold toPublish
  cases r.seen with
  | none => exact Or.inl rfl
  | some seen =>
    simp only [Option.elim_some, defaultBranchFromFirstPush]
    split_ifs with hskip hnamed
    · exact Or.inl rfl
    · exact Or.inl rfl
    · split
      · exact Or.inl rfl
      · refine Or.inr ⟨by rw [List.map_append]; rfl, fun hmem => hskip ?_⟩
        obtain ⟨u, hu, hname⟩ := List.mem_map.mp hmem
        rw [Bool.or_eq_true]
        exact Or.inr (List.any_eq_true.mpr ⟨u, hu, by simpa using hname⟩)

theorem internal_refused {message : String} : r.internal message = .failed ∨
    ∃ m, r.internal message = .refused m := by
  unfold internal
  split_ifs
  · exact Or.inr ⟨_, rfl⟩
  · exact Or.inl rfl

/-- A request that is judged was either denied or answered by the publisher. -/
theorem course_cases : r.course t = .failed ∨ (∃ message, r.course t = .refused message) ∨
    (∃ verdict, r.course t = .denied verdict ∧
      (evaluate (fun u => (verdict u).isNone) t).updates = []) ∨
    ∃ verdict, ∃ outcome : PublishOutcome (r.toPublish verdict t),
      r.course t = .published verdict outcome.perRef ∧
        (evaluate (fun u => (verdict u).isNone) t).updates.isEmpty = false := by
  unfold course
  cases r.refusal with
  | some message => exact Or.inr (Or.inl ⟨message, rfl⟩)
  | none =>
    cases r.sync with
    | some e =>
      dsimp only
      split_ifs
      · exact Or.inr (Or.inl ⟨_, rfl⟩)
      · exact Or.inl rfl
    | none =>
      dsimp only
      unfold process
      cases r.ingest with
      | some e => exact Or.inr (Or.inl ⟨_, rfl⟩)
      | none =>
        dsimp only
        cases if (tips t).isEmpty then none else r.connectivity (tips t) with
        | some message => exact Or.inr (Or.inl ⟨_, rfl⟩)
        | none =>
          dsimp only
          cases r.policy with
          | error e => exact internal_refused.imp_right Or.inl
          | ok verdict =>
            dsimp only
            split_ifs with hempty
            · exact Or.inr (Or.inr (Or.inl ⟨verdict, rfl, List.isEmpty_iff.mp hempty⟩))
            · cases r.publish (r.toPublish verdict t) with
              | error e => exact internal_refused.imp_right Or.inl
              | ok outcome =>
                exact Or.inr (Or.inr (Or.inr ⟨verdict, outcome, rfl,
                  Bool.eq_false_iff.mpr hempty⟩))

theorem committed_named {name : String} (h : r.Committed t name) :
    name ∈ t.updates.map RefUpdate.name := by
  unfold Committed at h
  split at h
  · obtain ⟨-, u, hu, rfl⟩ := h
    refine List.mem_map_of_mem ?_
    unfold evaluate at hu
    split_ifs at hu
    · cases hu
    · exact (List.mem_filter.mp hu).1
  · exact h.elim

theorem names_policyStatuses :
    (policyStatuses verdict t).map Prod.fst = t.updates.map RefUpdate.name := by
  rw [policyStatuses, List.map_map]
  rfl

theorem truthful_refused {message : String}
    (hplain : ∀ name ∈ t.updates.map RefUpdate.name, Plain name) :
    Truthful (t.updates.map RefUpdate.name) (r.Committed t)
        (body (some message) (t.updates.map fun u => (u.name, some message))) ↔
      (t.updates.map RefUpdate.name).Nodup ∧ Harmless (t.updates.map RefUpdate.name) message := by
  have hnames : (t.updates.map fun u => (u.name, some message)).map Prod.fst =
      t.updates.map RefUpdate.name := by
    rw [List.map_map]
    rfl
  have hok : ∀ s ∈ t.updates.map (fun u => (u.name, some message)), s.2 = none →
      r.Committed t s.1 := by
    intro s hs hnone
    obtain ⟨u, -, rfl⟩ := List.mem_map.mp hs
    cases hnone
  have hmessages : ∀ m ∈ messages (some message) (t.updates.map fun u => (u.name, some message)),
      m = message := by
    intro m hm
    rcases List.mem_append.mp hm with hm | hm
    · simpa using hm
    · obtain ⟨s, hs, heq⟩ := List.mem_filterMap.mp hm
      obtain ⟨u, -, rfl⟩ := List.mem_map.mp hs
      exact (Option.some.inj heq).symm
  rw [truthful_iff hnames hplain fun name => committed_named]
  refine and_congr_right fun _ => ⟨fun hall => hall.1 message ?_, fun hone => ⟨?_, hok⟩⟩
  · exact List.mem_append_left _ (by simp)
  · intro m hm
    exact hmessages m hm ▸ hone

theorem mem_messages {perRef : List Status} {m : String} :
    m ∈ messages none perRef ↔ ∃ s ∈ perRef, s.2 = some m := by
  simp only [messages, Option.toList_none, List.nil_append, List.mem_filterMap]

theorem truthful_denied (h : r.course t = .denied verdict)
    (hplain : ∀ name ∈ t.updates.map RefUpdate.name, Plain name) :
    Truthful (t.updates.map RefUpdate.name) (r.Committed t)
        (body none (policyStatuses verdict t)) ↔
      (t.updates.map RefUpdate.name).Nodup ∧ ∀ u ∈ t.updates, ∃ message,
        verdict u = some message ∧ Harmless (t.updates.map RefUpdate.name) message := by
  have hnone : ∀ name, ¬ r.Committed t name := by
    intro name hc
    simp only [Committed, h] at hc
  rw [truthful_iff names_policyStatuses hplain fun name => committed_named]
  refine and_congr_right fun _ => ⟨fun ⟨hharmless, hok⟩ u hu => ?_, fun hall => ⟨?_, ?_⟩⟩
  · have hstatus : (u.name, verdict u) ∈ policyStatuses verdict t := List.mem_map_of_mem hu
    cases hverdict : verdict u with
    | none => exact absurd (hok _ hstatus hverdict) (hnone _)
    | some message =>
      exact ⟨message, rfl, hharmless message (mem_messages.mpr ⟨_, hstatus, hverdict⟩)⟩
  · intro m hm
    obtain ⟨s, hs, hsome⟩ := mem_messages.mp hm
    obtain ⟨u, hu, rfl⟩ := List.mem_map.mp hs
    obtain ⟨message, hverdict, hharmless⟩ := hall u hu
    cases hverdict.symm.trans hsome
    exact hharmless
  · intro s hs hok
    obtain ⟨u, hu, rfl⟩ := List.mem_map.mp hs
    obtain ⟨message, hverdict, -⟩ := hall u hu
    cases hverdict.symm.trans hok

theorem names_publishStatuses (results : PerRef) :
    (publishStatuses results).map Prod.fst = results.map Prod.fst := by
  rw [publishStatuses, List.map_map]
  rfl

variable (outcome : PublishOutcome (r.toPublish verdict t))

/-- The publisher answers for the refs that were let through, and maybe for `HEAD`. -/
theorem names_outcome
    (hsome : (evaluate (fun u => (verdict u).isNone) t).updates.isEmpty = false) :
    outcome.perRef.map Prod.fst =
        (t.updates.filter fun u => (verdict u).isNone).map RefUpdate.name ∨
      outcome.perRef.map Prod.fst =
          (t.updates.filter fun u => (verdict u).isNone).map RefUpdate.name ++ ["HEAD"] ∧
        "HEAD" ∉ (t.updates.filter fun u => (verdict u).isNone).map RefUpdate.name := by
  rw [outcome.names, ← evaluate_updates hsome]
  exact names_toPublish

theorem answered_iff {name : String}
    (hsome : (evaluate (fun u => (verdict u).isNone) t).updates.isEmpty = false)
    (hname : name ≠ "HEAD") : name ∈ outcome.perRef.map Prod.fst ↔
      ∃ u ∈ t.updates, u.name = name ∧ (verdict u).isNone := by
  have hmem : name ∈ outcome.perRef.map Prod.fst ↔
      name ∈ (t.updates.filter fun u => (verdict u).isNone).map RefUpdate.name := by
    rcases names_outcome outcome hsome with h | ⟨h, -⟩
    · rw [h]
    · rw [h, List.mem_append, List.mem_singleton]
      exact or_iff_left hname
  rw [hmem]
  simp only [List.mem_map, List.mem_filter]
  grind

theorem mem_policyStatuses
    (hsome : (evaluate (fun u => (verdict u).isNone) t).updates.isEmpty = false) :
    ∀ x ∈ publishStatuses outcome.perRef,
      x.1 = "HEAD" ∨ x.1 ∈ (policyStatuses verdict t).map Prod.fst := by
  intro x hx
  by_cases hname : x.1 = "HEAD"
  · exact Or.inl hname
  · have hanswered : x.1 ∈ outcome.perRef.map Prod.fst := by
      rw [← names_publishStatuses]
      exact List.mem_map_of_mem hx
    obtain ⟨u, hu, heq, -⟩ := (answered_iff outcome hsome hname).mp hanswered
    rw [names_policyStatuses]
    exact Or.inr (heq ▸ List.mem_map_of_mem hu)

/-- What the merged statuses say when the refs of a request are distinct. -/
theorem mem_published (hsome : (evaluate (fun u => (verdict u).isNone) t).updates.isEmpty = false)
    (hnodup : (t.updates.map RefUpdate.name).Nodup) {s : Status} :
    s ∈ (publishStatuses outcome.perRef).foldl mergeStatus (policyStatuses verdict t) ↔
      (∃ u ∈ t.updates, s = (u.name, verdict u) ∧ ((verdict u).isSome ∨ u.name = "HEAD")) ∨
        ∃ x ∈ outcome.perRef, s = (x.1, x.2.map RefError.display) ∧ x.1 ≠ "HEAD" := by
  have hallowed : ((t.updates.filter fun u => (verdict u).isNone).map RefUpdate.name).Nodup :=
    hnodup.sublist (List.filter_sublist.map _)
  have hresults : ((publishStatuses outcome.perRef).map Prod.fst).Nodup := by
    rw [names_publishStatuses]
    rcases names_outcome outcome hsome with h | ⟨h, hhead⟩
    · rw [h]
      exact hallowed
    · rw [h, List.nodup_append]
      refine ⟨hallowed, by simp, fun a ha b hb heq => hhead ?_⟩
      rw [← List.mem_singleton.mp hb, ← heq]
      exact ha
  have hinjective : ∀ u ∈ t.updates, ∀ v ∈ t.updates, u.name = v.name → u = v :=
    fun u hu v hv => List.inj_on_of_nodup_map hnodup hu hv
  rw [mem_merged (names_policyStatuses ▸ hnodup) hresults (mem_policyStatuses outcome hsome),
    names_publishStatuses]
  constructor
  · rintro (⟨hmem, hs⟩ | ⟨hmem, hs⟩)
    · obtain ⟨u, hu, rfl⟩ := List.mem_map.mp hmem
      refine Or.inl ⟨u, hu, rfl, ?_⟩
      by_contra hnot
      rw [not_or] at hnot
      refine hs.resolve_left hnot.2 ((answered_iff outcome hsome hnot.2).mpr ⟨u, hu, rfl, ?_⟩)
      simpa using hnot.1
    · obtain ⟨x, hx, rfl⟩ := List.mem_map.mp hmem
      exact Or.inr ⟨x, hx, rfl, hs⟩
  · rintro (⟨u, hu, rfl, hs⟩ | ⟨x, hx, rfl, hs⟩)
    · refine Or.inl ⟨List.mem_map_of_mem hu, ?_⟩
      by_cases hname : u.name = "HEAD"
      · exact Or.inl hname
      · refine Or.inr fun hmem => ?_
        obtain ⟨v, hv, heq, hnone⟩ := (answered_iff outcome hsome hname).mp hmem
        cases hinjective v hv u hu heq
        rw [Option.isNone_iff_eq_none.mp hnone] at hs
        exact hs.elim (by simp) hname
    · exact Or.inr ⟨List.mem_map_of_mem hx, hs⟩

theorem truthful_published (h : r.course t = .published verdict outcome.perRef)
    (hsome : (evaluate (fun u => (verdict u).isNone) t).updates.isEmpty = false)
    (hplain : ∀ name ∈ t.updates.map RefUpdate.name, Plain name) :
    Truthful (t.updates.map RefUpdate.name) (r.Committed t)
        (body none
          ((publishStatuses outcome.perRef).foldl mergeStatus (policyStatuses verdict t))) ↔
      r.Honest t := by
  have hcommitted : ∀ name, r.Committed t name ↔ outcome.perRef.allOk ∧
      ∃ u ∈ t.updates, (verdict u).isNone ∧ u.name = name := by
    intro name
    simp only [Committed, h, evaluate_updates hsome, List.mem_filter, and_assoc]
  have hnames := (names_merged (mem_policyStatuses outcome hsome)).trans names_policyStatuses
  rw [truthful_iff hnames hplain fun name => committed_named]
  simp only [Honest, h]
  refine and_congr_right fun hnodup => ?_
  have hmem : ∀ s, s ∈ (publishStatuses outcome.perRef).foldl mergeStatus _ ↔ _ :=
    fun s => mem_published outcome hsome hnodup
  constructor
  · rintro ⟨hharmless, hok⟩
    refine ⟨fun u hu message hverdict => ?_, ?_⟩
    · have hstatus := (hmem (u.name, verdict u)).mpr (Or.inl ⟨u, hu, rfl, Or.inl ?_⟩)
      · exact hharmless message (mem_messages.mpr ⟨_, hstatus, hverdict⟩)
      · rw [hverdict]
        rfl
    · by_cases hall : outcome.perRef.allOk
      · exact Or.inl hall
      refine Or.inr ⟨fun u hu hhead => ?_, fun x hx hname e he => ?_⟩
      · by_contra hallowed
        have hnone := Option.not_isSome_iff_eq_none.mp hallowed
        have hc := hok _ ((hmem _).mpr (Or.inl ⟨u, hu, rfl, Or.inr hhead⟩)) hnone
        exact hall ((hcommitted _).mp hc).1
      · have hstatus := (hmem _).mpr (Or.inr ⟨x, hx, rfl, hname⟩)
        refine hharmless e.display (mem_messages.mpr ⟨_, hstatus, ?_⟩)
        rw [he]
        rfl
  · rintro ⟨hdenied, hresults⟩
    constructor
    · intro m hm
      obtain ⟨s, hs, hsome'⟩ := mem_messages.mp hm
      rcases (hmem s).mp hs with ⟨u, hu, rfl, -⟩ | ⟨x, hx, rfl, hname⟩
      · exact hdenied u hu m hsome'
      · obtain ⟨e, he, rfl⟩ := Option.map_eq_some_iff.mp hsome'
        rcases hresults with hall | ⟨-, hresults⟩
        · have := List.all_eq_true.mp hall x hx
          rw [he] at this
          cases this
        · exact hresults x hx hname e he
    · intro s hs hnone
      rw [hcommitted]
      rcases (hmem s).mp hs with ⟨u, hu, rfl, hcase⟩ | ⟨x, hx, rfl, hname⟩
      · have hhead : u.name = "HEAD" := hcase.resolve_left fun hsome => by
          rw [show verdict u = none from hnone] at hsome
          cases hsome
        rcases hresults with hall | ⟨hnohead, -⟩
        · exact ⟨hall, u, hu, Option.isNone_iff_eq_none.mpr hnone, rfl⟩
        · exact absurd hnone (Option.isSome_iff_ne_none.mp (hnohead u hu hhead))
      · rcases outcome.settled with hall | hfailed
        · obtain ⟨u, hu, heq, hallowed⟩ := (answered_iff outcome hsome hname).mp (List.mem_map_of_mem hx)
          exact ⟨hall, u, hu, hallowed, heq⟩
        · have := hfailed x hx
          rw [Option.map_eq_none_iff.mp hnone] at this
          cases this

/-- A report is truthful exactly if the request keeps clear of the ways to lie. -/
theorem truthful_iff_honest (hplain : ∀ name ∈ t.updates.map RefUpdate.name, Plain name) :
    (∀ report, r.report t = some report →
      Truthful (t.updates.map RefUpdate.name) (r.Committed t) report) ↔ r.Honest t := by
  rcases (course_cases : r.course t = .failed ∨ _) with
    h | ⟨message, h⟩ | ⟨verdict, h, -⟩ | ⟨verdict, outcome, h, hsome⟩
  · simp [report, Honest, h]
  · simp only [report, Honest, h, Option.some.injEq, forall_eq']
    exact truthful_refused hplain
  · simp only [report, Honest, h, Option.some.injEq, forall_eq']
    exact truthful_denied h hplain
  · rw [← truthful_published outcome h hsome hplain]
    simp only [report, h, Option.some.injEq, forall_eq']

end Reception

end Honesty

section Answer

open Receive

variable [CharTables]

/-- The report of a push is truthful, for each thing it can meet, exactly if that is honest. -/
theorem report_truthful {lines : List PktLine} {t : RefTransaction}
    (hparse : Receive.parse lines = .ok t) (r : Reception) :
    (∀ report, r.report (normalize t) = some report →
        Truthful (t.updates.map RefUpdate.name) (r.Committed (normalize t)) report) ↔
      r.Honest (normalize t) := by
  have hnames : (normalize t).updates.map RefUpdate.name = t.updates.map RefUpdate.name := by
    rw [Receive.normalize, List.map_map]
    rfl
  rw [← hnames]
  exact Reception.truthful_iff_honest (hnames ▸ Receive.parse_plain hparse)

end Answer

section PartlyDenied

open Receive

attribute [local instance] Text.asciiTables

/-- An atomic push that creates two branches. -/
def twoBranches : List PktLine :=
  let command := repeated '0' ++ " " ++ repeated 'a' ++ " refs/heads/"
  [.data (command ++ "main\x00report-status atomic"), .data (command ++ "topic"), .flush]

def twoCreates : RefTransaction where
  updates := ["refs/heads/main", "refs/heads/topic"].map fun name =>
    ⟨name, repeated '0', repeated 'a', ""⟩
  pushOptions := []
  atomic := true

/-- The policy protects one of the branches; the repository is empty. -/
def protectedMain : Reception where
  sideBand64k := true
  refusal := none
  sync := none
  ingest := none
  connectivity := fun _ => none
  policy := .ok fun u =>
    if u.name = "refs/heads/main" then some "rejected by rule 'protect main'" else none
  seen := some .fresh
  publish := fun t =>
    .ok (.judged ⟨{}, none, .new .fresh, .empty, none⟩ ⟨.new .fresh, 1, none⟩ { txn := t })

theorem parse_twoBranches : Receive.parse twoBranches = .ok twoCreates := by
  have hsome : (Receive.parse twoBranches).toOption = some twoCreates := by decide +kernel
  exact Checks.toOption_eq_some.mp hsome

theorem report_truthful_twoBranches :
    (∀ report, protectedMain.report (normalize twoCreates) = some report →
        Truthful (twoCreates.updates.map RefUpdate.name)
          (protectedMain.Committed (normalize twoCreates)) report) ↔
      protectedMain.Honest (normalize twoCreates) :=
  report_truthful parse_twoBranches protectedMain

/-- The report calls a branch ok although nothing was committed. -/
theorem report_ok_uncommitted : Receive.parse twoBranches = .ok twoCreates ∧
    ∃ report, protectedMain.report (normalize twoCreates) = some report ∧
      ("refs/heads/topic".toList, true) ∈ statuses report ∧
      ∀ name, ¬ protectedMain.Committed (normalize twoCreates) name := by
  have hcourse : ∃ verdict, protectedMain.course (normalize twoCreates) = .denied verdict ∧
      ("refs/heads/topic".toList, true) ∈
        statuses (body none (policyStatuses verdict (normalize twoCreates))) := by
    refine ⟨_, rfl, ?_⟩
    decide
  obtain ⟨verdict, hcourse, hmem⟩ := hcourse
  refine ⟨parse_twoBranches, _, by simp only [Reception.report, hcourse], hmem, ?_⟩
  intro name hc
  simp only [Reception.Committed, hcourse] at hc

end PartlyDenied

end Walgit
