import Mathlib.Data.List.Nodup
import Mathlib.Logic.Function.Basic
import Walgit.ReplayBuffers
import Walgit.Runs

/-!
# Attaching to a task

Publishers record a packet, put it in the replay buffer and send it, each under a lock of its
own; the end of a task sets its outcome and publishes its record. One attach subscribes and takes
its snapshot under the lock of the buffer. Every call of `publish` has a number, which goes with
its packet; times are left out.
-/
namespace Walgit.TaskPackets

def keepLog : ℕ := 60

def replayLimit : ℕ := 200

/-- How many packets may wait for a receiver before it loses the oldest. -/
def capacity : ℕ := 1024

structure Bar where
  label : String
  done : ℕ
  total : Option ℕ
  unit : String
  deriving DecidableEq, Repr

structure TaskRecord where
  id : String
  kind : String
  repo : String
  ok : Option Bool
  summary : String
  progress : Option Bar
  logTail : List String
  deriving DecidableEq, Repr

inductive Progress where
  | notice (text : String)
  | progress (bar : Bar)
  | task (task : TaskRecord)
  deriving DecidableEq, Repr

structure TaskOutcome where
  task : TaskRecord
  value : Option String
  deriving DecidableEq, Repr

abbrev Outcome := Except (ℕ × String) TaskOutcome

/-- A new bar takes the place of those with its label. -/
def replaces : Progress → Progress → Bool
  | .progress bar, .progress old => bar.label = old.label
  | _, _ => false

/-- What `publish` notes in the record. -/
def TaskRecord.note (record : TaskRecord) : Progress → TaskRecord
  | .notice text =>
    let log := record.logTail ++ [text]
    { record with logTail := if keepLog < log.length then log.tail else log }
  | .progress bar => { record with progress := some bar }
  | .task _ => record

/-- What `finish` notes in the record. -/
def TaskRecord.finish (record : TaskRecord) : Except (ℕ × String) (String × Option String) → TaskRecord
  | .ok (summary, _) => { record with ok := some true, summary := summary }
  | .error (_, message) => { record with ok := some false, summary := message }

/-- A packet with the number of the call that published it. -/
abbrev Entry := ℕ × Progress

def Entry.replaces (e old : Entry) : Bool := TaskPackets.replaces e.2 old.2

/-- What is left of a call of `publish`. -/
inductive Phase where
  | recorded
  | pushed
  | sent
  deriving DecidableEq, Repr

structure Call where
  packet : Progress
  phase : Phase
  deriving DecidableEq, Repr

/-- How far `finish` has come; at the end it is a call of `publish`. -/
inductive Finish where
  | working
  | recorded (record : TaskRecord) (outcome : Outcome)
  | removed (record : TaskRecord) (outcome : Outcome)
  | settled (record : TaskRecord)
  | done (record : TaskRecord)
  | publishing (call : ℕ)
  deriving DecidableEq, Repr

inductive Attach where
  | idle
  /-- The lock of the buffer is held. -/
  | locked
  | subscribed
  | looked (outcome : Option Outcome)
  | attached (snapshot : List Entry) (outcome : Option Outcome)
  deriving DecidableEq, Repr

def Attach.holdsLock : Attach → Bool
  | .locked | .subscribed | .looked _ => true
  | .idle | .attached .. => false

def Attach.receives : Attach → Bool
  | .subscribed | .looked _ | .attached .. => true
  | .idle | .locked => false

structure TaskState where
  record : TaskRecord
  replay : List Entry
  outcome : Option Outcome
  done : Bool
  /-- The task holds its kind of its repository. -/
  running : Bool
  calls : ℕ → Option Call
  finish : Finish
  attach : Attach
  /-- Packets that wait for the receiver, and what it has received. -/
  inbox : List Entry
  received : List Entry
  /-- Every packet put in the buffer so far. -/
  log : List Entry

namespace TaskState

variable (s : TaskState)

/-- What the receiver has got or will get. -/
def delivered : List Entry := s.received ++ s.inbox

def set (call : ℕ) (packet : Progress) (phase : Phase) : TaskState :=
  { s with calls := Function.update s.calls call (some ⟨packet, phase⟩) }

def push (e : Entry) : TaskState :=
  { s with replay := ReplayBuffer.push Entry.replaces replayLimit s.replay e, log := s.log ++ [e] }

/-- A receiver that has not kept up loses what has waited longest. -/
def send (e : Entry) : TaskState :=
  if s.attach.receives then
    let inbox := s.inbox ++ [e]
    { s with inbox := inbox.drop (inbox.length - capacity) }
  else s

end TaskState

inductive Action where
  /-- A call of `publish` begins: the lock of the record. -/
  | record (call : ℕ) (packet : Progress)
  /-- The lock of the buffer. -/
  | push (call : ℕ)
  | send (call : ℕ)
  | finishRecord (outcome : Except (ℕ × String) (String × Option String))
  | finishRemove
  | finishOutcome
  | finishDone
  /-- `finish` calls `publish`. -/
  | finishPublish (call : ℕ)
  | lock
  | subscribe
  | readOutcome
  /-- The buffer is copied and its lock released. -/
  | unlock
  | recv
  deriving Repr

def begin (s : TaskState) (call : ℕ) (packet : Progress) : Option TaskState :=
  match s.calls call with
  | none => some ({ s with record := s.record.note packet }.set call packet .recorded)
  | some _ => none

def step (s : TaskState) : Action → Option TaskState
  | .record call packet => begin s call packet
  | .push call =>
    match s.calls call with
    | some ⟨packet, .recorded⟩ =>
      if s.attach.holdsLock then none else some ((s.push (call, packet)).set call packet .pushed)
    | _ => none
  | .send call =>
    match s.calls call with
    | some ⟨packet, .pushed⟩ => some ((s.send (call, packet)).set call packet .sent)
    | _ => none
  | .finishRecord outcome =>
    match s.finish with
    | .working =>
      let noted := s.record.finish outcome
      some { s with
        record := noted
        finish := .recorded noted (outcome.map fun o => ⟨noted, o.2⟩) }
    | _ => none
  | .finishRemove =>
    match s.finish with
    | .recorded record outcome =>
      some { s with running := false, finish := .removed record outcome }
    | _ => none
  | .finishOutcome =>
    match s.finish with
    | .removed record outcome =>
      some { s with outcome := some outcome, finish := .settled record }
    | _ => none
  | .finishDone =>
    match s.finish with
    | .settled record => some { s with done := true, finish := .done record }
    | _ => none
  | .finishPublish call =>
    match s.finish with
    | .done record => (begin s call (.task record)).map fun t => { t with finish := .publishing call }
    | _ => none
  | .lock =>
    match s.attach with
    | .idle => some { s with attach := .locked }
    | _ => none
  | .subscribe =>
    match s.attach with
    | .locked => some { s with attach := .subscribed }
    | _ => none
  | .readOutcome =>
    match s.attach with
    | .subscribed => some { s with attach := .looked s.outcome }
    | _ => none
  | .unlock =>
    match s.attach with
    | .looked outcome => some { s with attach := .attached s.replay outcome }
    | _ => none
  | .recv =>
    match s.inbox with
    | e :: inbox => some { s with inbox := inbox, received := s.received ++ [e] }
    | [] => none

/-- A task that has just begun. -/
def start (record : TaskRecord) : TaskState :=
  ⟨record, [], none, false, true, fun _ => none, .working, .idle, [], [], []⟩

/-- When the attach subscribes, no packet of the buffer is still to be sent; and when one is
sent, the receiver has room for it. -/
def Safe (s : TaskState) : Action → Prop
  | .subscribe => ∀ e ∈ s.replay, s.calls e.1 ≠ some ⟨e.2, .pushed⟩
  | .send _ => s.inbox.length < capacity
  | _ => True

/-- After an attach every published packet is in its snapshot or delivered, not both; one that is
neither was superseded or evicted before; and without an outcome the last packet is delivered. -/
structure Exact (s : TaskState) (snapshot : List Entry) (outcome : Option Outcome) : Prop where
  published : ∃ before, before <+: s.log ∧
    snapshot = ReplayBuffer.replay Entry.replaces replayLimit before ∧
    ∀ call packet, s.calls call = some ⟨packet, .sent⟩ →
      (call, packet) ∈ s.delivered ∨ (call, packet) ∈ snapshot ∨
        ReplayBuffer.Superseded Entry.replaces before (call, packet) ∨
        ReplayBuffer.Evicted Entry.replaces replayLimit before (call, packet)
  once : (snapshot ++ s.delivered).Nodup
  last : outcome = none → ∀ call, s.finish = .publishing call → ∀ packet,
    s.calls call = some ⟨packet, .sent⟩ → (call, packet) ∈ s.delivered

/-- The outcome is not set yet. -/
def Finish.early : Finish → Bool
  | .working | .recorded .. | .removed .. => true
  | .settled _ | .done _ | .publishing _ => false

def Attach.blind : Attach → Bool
  | .looked none | .attached _ none => true
  | _ => false

/-- What holds from the subscription on; `before` is what had been pushed by then. -/
structure Seen (s : TaskState) (before : List Entry) : Prop where
  isPrefix : before <+: s.log
  locked : s.attach.holdsLock = true → before = s.log
  snapshot : ∀ snapshot outcome, s.attach = .attached snapshot outcome →
    snapshot = ReplayBuffer.replay Entry.replaces replayLimit before
  sent : ∀ call packet, s.calls call = some ⟨packet, .sent⟩ →
    (call, packet) ∈ s.delivered ∨ (call, packet) ∈ before
  delivered : ∀ e ∈ s.delivered, s.calls e.1 = some ⟨e.2, .sent⟩ ∧
    e ∉ ReplayBuffer.replay Entry.replaces replayLimit before
  -- what is in the snapshot will not be sent any more
  pushed : ∀ e ∈ ReplayBuffer.replay Entry.replaces replayLimit before,
    s.calls e.1 ≠ some ⟨e.2, .pushed⟩
  nodup : s.delivered.Nodup
  last : s.attach.blind = true → ∀ call, s.finish = .publishing call → ∀ e ∈ before, e.1 ≠ call

structure Inv (s : TaskState) : Prop where
  replay : s.replay = ReplayBuffer.replay Entry.replaces replayLimit s.log
  logged : ∀ call packet, (call, packet) ∈ s.log ↔
    ∃ phase, s.calls call = some ⟨packet, phase⟩ ∧ phase ≠ .recorded
  nodup : s.log.Nodup
  idle : s.attach.receives = false → s.delivered = []
  seen : s.attach.receives = true → ∃ before, Seen s before
  early : s.outcome = none → s.finish.early = true

section Steps

attribute [local irreducible] replayLimit capacity

variable {s t : TaskState}

theorem TaskState.calls_set_self {call : ℕ} {packet : Progress} {phase : Phase} :
    (s.set call packet phase).calls call = some ⟨packet, phase⟩ := Function.update_self ..

theorem TaskState.calls_set_of_ne {call c : ℕ} {packet : Progress} {phase : Phase}
    (h : c ≠ call) : (s.set call packet phase).calls c = s.calls c := Function.update_of_ne h ..

theorem inv_start (record : TaskRecord) : Inv (start record) where
  replay := rfl
  logged := by simp [start]
  nodup := List.nodup_nil
  idle := fun _ => rfl
  seen := by simp [start, Attach.receives]
  early := fun _ => rfl

theorem Inv.fresh (h : Inv s) {call : ℕ} (hnone : s.calls call = none) (e : Entry)
    (he : e ∈ s.log) : e.1 ≠ call := by
  rintro rfl
  obtain ⟨phase, hcall, -⟩ := (h.logged e.1 e.2).mp he
  rw [hnone] at hcall
  cases hcall

/-- A step that leaves the buffer, the channel and the calls past their first lock alone. -/
theorem Inv.of_same (h : Inv s) (hlog : t.log = s.log) (hreplay : t.replay = s.replay)
    (hattach : t.attach = s.attach) (hdelivered : t.delivered = s.delivered)
    (hcalls : ∀ c x, x.phase ≠ Phase.recorded → (t.calls c = some x ↔ s.calls c = some x))
    (hearly : t.outcome = none → t.finish.early = true)
    (hlast : ∀ call, t.finish = .publishing call →
      s.finish = .publishing call ∨ ∀ e ∈ s.log, e.1 ≠ call) : Inv t where
  replay := by rw [hreplay, hlog, h.replay]
  logged := by
    intro c p
    rw [hlog, h.logged]
    constructor
    · rintro ⟨phase, hc, hphase⟩
      exact ⟨phase, (hcalls c ⟨p, phase⟩ hphase).mpr hc, hphase⟩
    · rintro ⟨phase, hc, hphase⟩
      exact ⟨phase, (hcalls c ⟨p, phase⟩ hphase).mp hc, hphase⟩
  nodup := hlog ▸ h.nodup
  idle := by
    rw [hattach, hdelivered]
    exact h.idle
  seen := by
    rw [hattach]
    intro hreceives
    obtain ⟨before, hseen⟩ := h.seen hreceives
    refine ⟨before, ?_⟩
    constructor
    · exact hlog ▸ hseen.isPrefix
    · rw [hattach, hlog]
      exact hseen.locked
    · rw [hattach]
      exact hseen.snapshot
    · intro c p hc
      rw [hdelivered]
      exact hseen.sent c p ((hcalls c ⟨p, .sent⟩ (by simp)).mp hc)
    · intro e he
      rw [hdelivered] at he
      obtain ⟨hsent, hnot⟩ := hseen.delivered e he
      exact ⟨(hcalls e.1 ⟨e.2, .sent⟩ (by simp)).mpr hsent, hnot⟩
    · intro e he hc
      exact hseen.pushed e he ((hcalls e.1 ⟨e.2, .pushed⟩ (by simp)).mp hc)
    · exact hdelivered ▸ hseen.nodup
    · rw [hattach]
      intro hblind call hcall e he
      rcases hlast call hcall with hbefore | hfresh
      · exact hseen.last hblind call hbefore e he
      · exact hfresh e (hseen.isPrefix.subset he)
  early := hearly

theorem begin_eq {call : ℕ} {packet : Progress} (hstep : begin s call packet = some t) :
    s.calls call = none ∧
      t = { s with record := s.record.note packet }.set call packet .recorded := by
  unfold begin at hstep
  split at hstep
  · rename_i hnone
    exact ⟨hnone, (Option.some.inj hstep).symm⟩
  · cases hstep

/-- A call that has only begun is of no account. -/
theorem calls_begin {call : ℕ} {packet : Progress} (hnone : s.calls call = none) (c : ℕ) (x : Call)
    (hx : x.phase ≠ .recorded) :
    (s.set call packet .recorded).calls c = some x ↔ s.calls c = some x := by
  by_cases hc : c = call
  · subst hc
    rw [TaskState.calls_set_self, hnone]
    refine iff_of_false ?_ (by simp)
    rintro heq
    cases heq
    exact hx rfl
  · rw [TaskState.calls_set_of_ne hc]

theorem Inv.record (h : Inv s) {call : ℕ} {packet : Progress}
    (hstep : step s (.record call packet) = some t) : Inv t := by
  obtain ⟨hnone, rfl⟩ := begin_eq hstep
  exact h.of_same rfl rfl rfl rfl (calls_begin hnone) h.early fun call hcall => Or.inl hcall

theorem Inv.finishPublish (h : Inv s) {call : ℕ} (hstep : step s (.finishPublish call) = some t) :
    Inv t := by
  simp only [step] at hstep
  split at hstep
  · rename_i record hfinish
    obtain ⟨u, hbegin, rfl⟩ := Option.map_eq_some_iff.mp hstep
    obtain ⟨hnone, rfl⟩ := begin_eq hbegin
    refine h.of_same rfl rfl rfl rfl (calls_begin hnone) ?_ ?_
    · intro houtcome
      have hearly := h.early houtcome
      rw [hfinish] at hearly
      cases hearly
    · rintro c ⟨⟩
      exact Or.inr (h.fresh hnone)
  · cases hstep

theorem Inv.recv (h : Inv s) (hstep : step s .recv = some t) : Inv t := by
  simp only [step] at hstep
  split at hstep
  · rename_i e inbox hinbox
    obtain rfl := Option.some.inj hstep
    refine h.of_same rfl rfl rfl ?_ (fun _ _ _ => Iff.rfl) h.early fun call hcall => Or.inl hcall
    simp [TaskState.delivered, hinbox]
  · cases hstep

/-- The steps of `finish` before its packet touch only the record, the outcome and the flags. -/
theorem Inv.finishing (h : Inv s) (hsame : t.log = s.log ∧ t.replay = s.replay ∧
    t.attach = s.attach ∧ t.delivered = s.delivered ∧ t.calls = s.calls)
    (hearly : t.outcome = none → t.finish.early = true)
    (hlast : ∀ call, t.finish ≠ .publishing call) : Inv t := by
  obtain ⟨hlog, hreplay, hattach, hdelivered, hcalls⟩ := hsame
  refine h.of_same hlog hreplay hattach hdelivered ?_ hearly fun call hcall =>
    absurd hcall (hlast call)
  intro c x _
  rw [hcalls]

theorem Inv.finishRecord (h : Inv s) {outcome : Except (ℕ × String) (String × Option String)}
    (hstep : step s (.finishRecord outcome) = some t) : Inv t := by
  simp only [step] at hstep
  split at hstep
  · obtain rfl := Option.some.inj hstep
    exact h.finishing ⟨rfl, rfl, rfl, rfl, rfl⟩ (fun _ => rfl) (by simp)
  · cases hstep

theorem Inv.finishRemove (h : Inv s) (hstep : step s .finishRemove = some t) : Inv t := by
  simp only [step] at hstep
  split at hstep
  · obtain rfl := Option.some.inj hstep
    exact h.finishing ⟨rfl, rfl, rfl, rfl, rfl⟩ (fun _ => rfl) (by simp)
  · cases hstep

theorem Inv.finishOutcome (h : Inv s) (hstep : step s .finishOutcome = some t) : Inv t := by
  simp only [step] at hstep
  split at hstep
  · obtain rfl := Option.some.inj hstep
    exact h.finishing ⟨rfl, rfl, rfl, rfl, rfl⟩ (by simp) (by simp)
  · cases hstep

theorem Inv.finishDone (h : Inv s) (hstep : step s .finishDone = some t) : Inv t := by
  simp only [step] at hstep
  split at hstep
  · rename_i record hfinish
    obtain rfl := Option.some.inj hstep
    refine h.finishing ⟨rfl, rfl, rfl, rfl, rfl⟩ (fun houtcome => ?_) (by simp)
    have hearly := h.early houtcome
    rw [hfinish] at hearly
    cases hearly
  · cases hstep

theorem Inv.push (h : Inv s) {call : ℕ} (hstep : step s (.push call) = some t) : Inv t := by
  simp only [step] at hstep
  split at hstep
  · rename_i packet hcall
    split at hstep
    · cases hstep
    · rename_i hlock
      obtain rfl := Option.some.inj hstep
      have hfresh : ∀ e ∈ s.log, e.1 ≠ call := by
        rintro e he rfl
        obtain ⟨phase, hphase, hne⟩ := (h.logged e.1 e.2).mp he
        rw [hcall] at hphase
        cases hphase
        exact hne rfl
      constructor
      · change ReplayBuffer.push _ _ s.replay _ = _
        rw [h.replay]
        exact (ReplayBuffer.replay_concat _ _).symm
      · intro c p
        change (c, p) ∈ s.log ++ [(call, packet)] ↔ _
        rw [List.mem_append, List.mem_singleton, h.logged]
        by_cases hc : c = call
        · subst hc
          rw [TaskState.calls_set_self, hcall]
          constructor
          · rintro (⟨phase, hphase, hne⟩ | heq)
            · cases hphase
              exact absurd rfl hne
            · cases heq
              exact ⟨.pushed, rfl, by simp⟩
          · rintro ⟨phase, hphase, -⟩
            cases hphase
            exact Or.inr rfl
        · rw [TaskState.calls_set_of_ne hc]
          change _ ↔ ∃ phase, s.calls c = some ⟨p, phase⟩ ∧ phase ≠ .recorded
          simp [hc]
      · change (s.log ++ [(call, packet)]).Nodup
        refine List.nodup_append.mpr ⟨h.nodup, List.nodup_singleton _, ?_⟩
        rintro e he f hf rfl
        rw [List.mem_singleton] at hf
        exact hfresh e he (hf ▸ rfl)
      · exact h.idle
      · intro hreceives
        obtain ⟨before, hseen⟩ := h.seen hreceives
        refine ⟨before, ?_⟩
        constructor
        · exact hseen.isPrefix.trans (List.prefix_append _ _)
        · exact fun hlocked => absurd hlocked hlock
        · exact hseen.snapshot
        · intro c p hc
          by_cases heq : c = call
          · subst heq
            rw [TaskState.calls_set_self] at hc
            cases hc
          · rw [TaskState.calls_set_of_ne heq] at hc
            exact hseen.sent c p hc
        · intro e he
          obtain ⟨hsent, hnot⟩ := hseen.delivered e he
          have hne : e.1 ≠ call := by
            rintro rfl
            rw [hcall] at hsent
            cases hsent
          rw [TaskState.calls_set_of_ne hne]
          exact ⟨hsent, hnot⟩
        · intro e he
          have hmem := hseen.isPrefix.subset ((ReplayBuffer.replay_sublist before).subset he)
          rw [TaskState.calls_set_of_ne (hfresh e hmem)]
          exact hseen.pushed e he
        · exact hseen.nodup
        · exact hseen.last
      · exact h.early
  · cases hstep

/-- A receiver with room gets what is sent; without one nothing is delivered. -/
theorem delivered_send {e : Entry} (hroom : s.inbox.length < capacity) :
    (s.send e).delivered = if s.attach.receives then s.delivered ++ [e] else s.delivered := by
  unfold TaskState.send
  split
  · have hkeep : (s.inbox ++ [e]).length - capacity = 0 := by
      rw [List.length_append, List.length_singleton]
      omega
    simp only [TaskState.delivered, hkeep, List.drop_zero, List.append_assoc]
  · rfl

theorem send_rest (e : Entry) : (s.send e).log = s.log ∧ (s.send e).replay = s.replay ∧
    (s.send e).attach = s.attach ∧ (s.send e).calls = s.calls ∧ (s.send e).finish = s.finish ∧
    (s.send e).outcome = s.outcome := by
  unfold TaskState.send
  split <;> exact ⟨rfl, rfl, rfl, rfl, rfl, rfl⟩

theorem Seen.send {before : List Entry} (h : Seen s before) {call : ℕ} {packet : Progress}
    (hcall : s.calls call = some ⟨packet, .pushed⟩) (hreceives : s.attach.receives = true)
    (hroom : s.inbox.length < capacity) :
    Seen ((s.send (call, packet)).set call packet .sent) before := by
  obtain ⟨hlog, hreplay, hattach, hcalls, hfinish, -⟩ := send_rest (s := s) (call, packet)
  have hdelivered : ((s.send (call, packet)).set call packet .sent).delivered =
      s.delivered ++ [(call, packet)] := by
    change (s.send (call, packet)).delivered = _
    rw [delivered_send hroom, if_pos hreceives]
  have hother : ∀ {c}, c ≠ call →
      ((s.send (call, packet)).set call packet .sent).calls c = s.calls c := by
    intro c hc
    rw [TaskState.calls_set_of_ne hc, hcalls]
  have hunsent : ∀ e ∈ s.delivered, e.1 ≠ call := by
    rintro e he rfl
    have := (h.delivered e he).1
    rw [hcall] at this
    cases this
  constructor
  · change before <+: (s.send (call, packet)).log
    exact hlog ▸ h.isPrefix
  · change (s.send (call, packet)).attach.holdsLock = true → before = (s.send (call, packet)).log
    rw [hattach, hlog]
    exact h.locked
  · change ∀ snapshot outcome, (s.send (call, packet)).attach = _ → _
    rw [hattach]
    exact h.snapshot
  · intro c p hc
    rw [hdelivered, List.mem_append, List.mem_singleton]
    by_cases heq : c = call
    · subst heq
      rw [TaskState.calls_set_self] at hc
      cases hc
      exact Or.inl (Or.inr rfl)
    · rw [hother heq] at hc
      rcases h.sent c p hc with hmem | hmem
      · exact Or.inl (Or.inl hmem)
      · exact Or.inr hmem
  · intro e he
    rw [hdelivered, List.mem_append, List.mem_singleton] at he
    rcases he with he | rfl
    · rw [hother (hunsent e he)]
      exact h.delivered e he
    · exact ⟨TaskState.calls_set_self, fun hmem => h.pushed _ hmem hcall⟩
  · intro e he hc
    by_cases heq : e.1 = call
    · rw [heq, TaskState.calls_set_self] at hc
      cases hc
    · rw [hother heq] at hc
      exact h.pushed e he hc
  · rw [hdelivered]
    refine List.nodup_append.mpr ⟨h.nodup, List.nodup_singleton _, ?_⟩
    rintro e he f hf rfl
    rw [List.mem_singleton] at hf
    exact hunsent e he (hf ▸ rfl)
  · change (s.send (call, packet)).attach.blind = true → ∀ c,
      (s.send (call, packet)).finish = .publishing c → _
    rw [hattach, hfinish]
    exact h.last

theorem Inv.send (h : Inv s) {call : ℕ} (hroom : s.inbox.length < capacity)
    (hstep : step s (.send call) = some t) : Inv t := by
  simp only [step] at hstep
  split at hstep
  · rename_i packet hcall
    obtain rfl := Option.some.inj hstep
    obtain ⟨hlog, hreplay, hattach, hcalls, hfinish, houtcome⟩ := send_rest (s := s) (call, packet)
    constructor
    · change (s.send (call, packet)).replay = ReplayBuffer.replay _ _ (s.send (call, packet)).log
      rw [hreplay, hlog, h.replay]
    · intro c p
      change (c, p) ∈ (s.send (call, packet)).log ↔ _
      rw [hlog, h.logged]
      by_cases heq : c = call
      · subst heq
        rw [TaskState.calls_set_self, hcall]
        constructor
        · rintro ⟨phase, hphase, -⟩
          cases hphase
          exact ⟨.sent, rfl, by simp⟩
        · rintro ⟨phase, hphase, -⟩
          cases hphase
          exact ⟨.pushed, rfl, by simp⟩
      · rw [TaskState.calls_set_of_ne heq, hcalls]
    · change (s.send (call, packet)).log.Nodup
      rw [hlog]
      exact h.nodup
    · change (s.send (call, packet)).attach.receives = false → (s.send (call, packet)).delivered = []
      rw [hattach, delivered_send hroom]
      intro hidle
      rw [hidle, if_neg (by decide)]
      exact h.idle hidle
    · change (s.send (call, packet)).attach.receives = true → _
      rw [hattach]
      intro hreceives
      obtain ⟨before, hseen⟩ := h.seen hreceives
      exact ⟨before, hseen.send hcall hreceives hroom⟩
    · change (s.send (call, packet)).outcome = none → (s.send (call, packet)).finish.early = true
      rw [houtcome, hfinish]
      exact h.early
  · cases hstep

theorem Inv.lock (h : Inv s) (hstep : step s .lock = some t) : Inv t := by
  simp only [step] at hstep
  split at hstep
  · rename_i hidle
    obtain rfl := Option.some.inj hstep
    exact ⟨h.replay, h.logged, h.nodup, fun _ => h.idle (by rw [hidle]; rfl), nofun, h.early⟩
  · cases hstep

theorem Inv.subscribe (h : Inv s)
    (hsafe : ∀ e ∈ s.replay, s.calls e.1 ≠ some ⟨e.2, .pushed⟩)
    (hstep : step s .subscribe = some t) : Inv t := by
  simp only [step] at hstep
  split at hstep
  · rename_i hlocked
    obtain rfl := Option.some.inj hstep
    have hnone : s.delivered = [] := h.idle (by rw [hlocked]; rfl)
    refine ⟨h.replay, h.logged, h.nodup, nofun, fun _ => ⟨s.log, ?_⟩, h.early⟩
    constructor
    · exact List.prefix_refl _
    · exact fun _ => rfl
    · nofun
    · intro c p hc
      exact Or.inr ((h.logged c p).mpr ⟨.sent, hc, by simp⟩)
    · intro e he
      change e ∈ s.delivered at he
      rw [hnone] at he
      cases he
    · rw [← h.replay]
      exact hsafe
    · change s.delivered.Nodup
      rw [hnone]
      exact List.nodup_nil
    · nofun
  · cases hstep

theorem Inv.readOutcome (h : Inv s) (hstep : step s .readOutcome = some t) : Inv t := by
  simp only [step] at hstep
  split at hstep
  · rename_i hsubscribed
    obtain rfl := Option.some.inj hstep
    obtain ⟨before, hseen⟩ := h.seen (by rw [hsubscribed]; rfl)
    refine ⟨h.replay, h.logged, h.nodup, nofun, fun _ => ⟨before, ?_⟩, h.early⟩
    refine ⟨hseen.isPrefix, fun _ => hseen.locked (by rw [hsubscribed]; rfl), nofun, hseen.sent,
      hseen.delivered, hseen.pushed, hseen.nodup, ?_⟩
    -- an outcome that is not set comes before the packet of `finish`
    intro hblind call hcall
    cases houtcome : s.outcome with
    | none =>
      have hearly := h.early houtcome
      change s.finish = .publishing call at hcall
      rw [hcall] at hearly
      cases hearly
    | some outcome =>
      change (Attach.looked s.outcome).blind = true at hblind
      rw [houtcome] at hblind
      cases hblind
  · cases hstep

theorem Inv.unlock (h : Inv s) (hstep : step s .unlock = some t) : Inv t := by
  simp only [step] at hstep
  split at hstep
  · rename_i outcome hlooked
    obtain rfl := Option.some.inj hstep
    obtain ⟨before, hseen⟩ := h.seen (by rw [hlooked]; rfl)
    refine ⟨h.replay, h.logged, h.nodup, nofun, fun _ => ⟨before, ?_⟩, h.early⟩
    refine ⟨hseen.isPrefix, nofun, ?_, hseen.sent, hseen.delivered, hseen.pushed, hseen.nodup, ?_⟩
    · rintro snapshot outcome' ⟨⟩
      rw [h.replay, hseen.locked (by rw [hlooked]; rfl)]
    · intro hblind call hcall
      refine hseen.last ?_ call hcall
      rw [hlooked]
      cases outcome with
      | none => rfl
      | some outcome => cases hblind
  · cases hstep

/-- Every step of a safe run keeps what an attach relies on. -/
theorem Inv.step {a : Action} (h : Inv s) (hsafe : Safe s a) (hstep : step s a = some t) :
    Inv t := by
  cases a with
  | record call packet => exact h.record hstep
  | push call => exact h.push hstep
  | send call => exact h.send hsafe hstep
  | finishRecord outcome => exact h.finishRecord hstep
  | finishRemove => exact h.finishRemove hstep
  | finishOutcome => exact h.finishOutcome hstep
  | finishDone => exact h.finishDone hstep
  | finishPublish call => exact h.finishPublish hstep
  | lock => exact h.lock hstep
  | subscribe => exact h.subscribe hsafe hstep
  | readOutcome => exact h.readOutcome hstep
  | unlock => exact h.unlock hstep
  | recv => exact h.recv hstep

end Steps

theorem Inv.exact {s : TaskState} (h : Inv s) {snapshot : List Entry} {outcome : Option Outcome}
    (hattach : s.attach = .attached snapshot outcome) : Exact s snapshot outcome := by
  obtain ⟨before, hseen⟩ := h.seen (by rw [hattach]; rfl)
  have hsnapshot := hseen.snapshot snapshot outcome hattach
  constructor
  · refine ⟨before, hseen.isPrefix, hsnapshot, fun call packet hcall => ?_⟩
    rcases hseen.sent call packet hcall with hmem | hmem
    · exact Or.inl hmem
    · rw [hsnapshot]
      exact Or.inr (ReplayBuffer.mem_replay_or (by decide) hmem)
  · have hsublist : (ReplayBuffer.replay Entry.replaces replayLimit before).Sublist before :=
      ReplayBuffer.replay_sublist before
    rw [hsnapshot]
    refine List.nodup_append.mpr ⟨?_, hseen.nodup, ?_⟩
    · exact (h.nodup.sublist hseen.isPrefix.sublist).sublist hsublist
    · rintro e he f hf rfl
      exact (hseen.delivered e hf).2 he
  · rintro rfl call hfinish packet hcall
    have hblind : s.attach.blind = true := by
      rw [hattach]
      rfl
    rcases hseen.sent call packet hcall with hmem | hmem
    · exact hmem
    · exact absurd rfl (hseen.last hblind call hfinish _ hmem)

/-- In a run where the attach subscribes while no packet of the buffer is still to be sent, and
the receiver keeps up, the attach misses nothing and gets nothing twice. -/
theorem attach_exact {record : TaskRecord} {as : List Action} {s : TaskState}
    (hrun : Runs.run step (start record) as = some s)
    (hsafe : Runs.AllSteps step Safe (start record) as) :
    ∀ snapshot outcome, s.attach = .attached snapshot outcome → Exact s snapshot outcome := by
  have hinv : Inv s :=
    Runs.invariant (fun _ _ _ h hok hstep => h.step hok hstep) hrun hsafe (inv_start record)
  exact fun snapshot outcome hattach => hinv.exact hattach

instance Safe.decidable (s : TaskState) : ∀ a, Decidable (Safe s a)
  | .subscribe =>
    inferInstanceAs (Decidable (∀ e ∈ s.replay, s.calls e.1 ≠ some ⟨e.2, .pushed⟩))
  | .send _ => inferInstanceAs (Decidable (s.inbox.length < capacity))
  | .record .. | .push _ | .finishRecord _ | .finishRemove | .finishOutcome | .finishDone
  | .finishPublish _ | .lock | .readOutcome | .unlock | .recv => isTrue trivial

def compaction : TaskRecord := ⟨"t1", "compact", "alice/site", none, "running", none, []⟩

/-- One packet before the attach and the last one after it. -/
def attached : List Action :=
  [.record 0 (.notice "reading"), .push 0, .send 0, .lock, .subscribe, .readOutcome, .unlock,
    .finishRecord (.ok ("done", none)), .finishRemove, .finishOutcome, .finishDone,
    .finishPublish 1, .push 1, .send 1]

theorem attach_exact_of_last : ∃ s, Runs.run step (start compaction) attached = some s ∧
    s.attach = .attached [(0, .notice "reading")] none ∧
    Exact s [(0, .notice "reading")] none := by
  obtain ⟨s, hrun⟩ : ∃ s, Runs.run step (start compaction) attached = some s := ⟨_, rfl⟩
  have hattach : (Runs.run step (start compaction) attached).map TaskState.attach =
      some (.attached [(0, .notice "reading")] none) := by decide +kernel
  rw [hrun] at hattach
  have hattached := Option.some.inj hattach
  exact ⟨s, hrun, hattached, attach_exact hrun (by decide +kernel) _ _ hattached⟩

/-- A publisher that has put its packet in the buffer and sends it after an attach. -/
def between : List Action :=
  [.record 0 (.notice "reading"), .push 0, .lock, .subscribe, .readOutcome, .unlock, .send 0]

/-- An attach between the two steps of a publisher gets its packet twice. -/
theorem attach_duplicates : ∃ s, Runs.run step (start compaction) between = some s ∧
    s.attach = .attached [(0, .notice "reading")] none ∧
    s.delivered = [(0, .notice "reading")] ∧ ¬ Exact s [(0, .notice "reading")] none := by
  obtain ⟨s, hrun⟩ : ∃ s, Runs.run step (start compaction) between = some s := ⟨_, rfl⟩
  have hview : (Runs.run step (start compaction) between).map
      (fun s => (s.attach, s.delivered)) = some (.attached [(0, .notice "reading")] none,
        [(0, .notice "reading")]) := by decide +kernel
  rw [hrun] at hview
  obtain ⟨hattach, hdelivered⟩ := Prod.mk.inj (Option.some.inj hview)
  refine ⟨s, hrun, hattach, hdelivered, fun h => ?_⟩
  have honce := h.once
  rw [hdelivered] at honce
  exact absurd honce (by decide)

end Walgit.TaskPackets
