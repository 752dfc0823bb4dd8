import Walgit.ObjectStore
import Walgit.Runs

/-!
# Conditional puts over the S3 client

One `S3Store::put` with a condition, the requests its SDK sends for it and what the
service makes of them. The SDK resends a request that timed out or met a transient
error; the earlier request may have been applied, or may still be on its way.
-/
namespace Walgit.S3

open ObjectStore (PutMode)

/-- `max_attempts` of the SDK's standard retry mode. -/
def maxAttempts : ℕ := 3

/-- `emulate` is `s3.emulate_conditional_writes`; `honours` tells whether the service obeys
`If-Match` and `If-None-Match`. -/
structure Config where
  emulate : Bool
  honours : Bool
  deriving DecidableEq, Repr

inductive StoreError where
  | preconditionFailed (current : Option ℕ)
  | retryable
  | other
  deriving DecidableEq, Repr

/-- One put in progress. -/
structure Put (κ ν : Type) where
  store : ObjectStore κ ν
  key : κ
  value : ν
  mode : PutMode
  /-- The emulated check passed, or is not made. -/
  checked : Bool
  /-- Attempts that ended without a usable reply. -/
  failed : ℕ
  /-- Failed attempts the service has not processed yet. -/
  inFlight : ℕ
  applied : Bool
  result : Option (Except StoreError ℕ)

/-- `filled` tells whether the `HEAD` behind an error's `current` came back. -/
inductive Event (ν : Type) where
  | foreignWrite (value : ν)
  | foreignDelete
  /-- The emulated `HEAD` check, or its failure. -/
  | check (ok : Bool)
  /-- The attempt is processed and its reply arrives. -/
  | answer (filled : Bool)
  /-- The service gives up on a concurrent conditional request: nothing is applied. -/
  | conflict (filled : Bool)
  /-- A timeout or a transient error; `processed` when the request got to the service. -/
  | fail (processed : Bool)
  /-- A failed attempt gets to the service after all. -/
  | land

namespace Put

variable {κ ν : Type} [DecidableEq κ]

def start (cfg : Config) (store : ObjectStore κ ν) (key : κ) (value : ν) (mode : PutMode) :
    Put κ ν :=
  ⟨store, key, value, mode, !cfg.emulate, 0, 0, false, none⟩

/-- The service would apply a request of this put now. -/
def admits (cfg : Config) (p : Put κ ν) : Bool := !cfg.honours || p.store.accepts p.key p.mode

/-- The service processes one request of this put. -/
def process (cfg : Config) (p : Put κ ν) : Put κ ν :=
  if p.admits cfg then { p with store := p.store.write p.key p.value, applied := true } else p

def refuse (p : Put κ ν) (filled : Bool) : Put κ ν :=
  let current := if filled then p.store.version p.key else none
  { p with result := some (.error (.preconditionFailed current)) }

/-- The SDK may send an attempt: the call is open and attempts are left. -/
def isOpen (p : Put κ ν) : Bool := p.result.isNone && p.checked && p.failed < maxAttempts

def step (cfg : Config) (p : Put κ ν) : Event ν → Option (Put κ ν)
  | .foreignWrite value => some { p with store := p.store.write p.key value }
  | .foreignDelete =>
    match p.store.version p.key with
    | some v => some { p with store := p.store.delete p.key v }
    | none => none
  | .check ok =>
    if p.result.isNone && !p.checked then
      if !ok then some { p with result := some (.error .retryable) }
      else if p.store.accepts p.key p.mode then some { p with checked := true }
      else some (p.refuse true)
    else none
  | .answer filled =>
    if p.isOpen then
      if p.admits cfg then some { p.process cfg with result := some (.ok p.store.next) }
      else some (p.refuse filled)
    else none
  | .conflict filled => if p.isOpen && cfg.honours then some (p.refuse filled) else none
  | .fail processed =>
    if p.isOpen then
      let p' := if processed then p.process cfg else { p with inFlight := p.inFlight + 1 }
      let p' := { p' with failed := p.failed + 1 }
      if p'.failed < maxAttempts then some p'
      else some { p' with result := some (.error .retryable) }
    else none
  | .land =>
    if 0 < p.inFlight then some { p.process cfg with inFlight := p.inFlight - 1 } else none

/-- A put that returned `PreconditionFailed` applied none of its attempts. -/
def Truthful (p : Put κ ν) : Prop :=
  ∀ current, p.result = some (.error (.preconditionFailed current)) → p.applied = false

/-- No attempt is applied without its reply arriving: the service processes a failed attempt
only when it refuses it. A service that ignores the condition never answers a refusal. -/
def seen (cfg : Config) (p : Put κ ν) : Event ν → Prop
  | .fail true | .land => cfg.honours → p.admits cfg = false
  | _ => True

end Put

section Truthful

variable {κ ν : Type} {cfg : Config} {p p' : Put κ ν}

namespace Put

/-- What holds of a put none of whose attempts is applied unseen. -/
structure Inv (cfg : Config) (p : Put κ ν) : Prop where
  unchecked : p.checked = false → p.inFlight = 0 ∧ p.applied = false
  waiting : cfg.honours → p.result = none → p.applied = false
  /-- Without a service that refuses, only the emulated check does. -/
  emulated : ∀ current, p.result = some (.error (.preconditionFailed current)) →
    cfg.honours ∨ p.checked = false
  truthful : p.Truthful

theorem inv_start (store : ObjectStore κ ν) (key : κ) (value : ν) (mode : PutMode) :
    Inv cfg (start cfg store key value mode) where
  unchecked := fun _ => ⟨rfl, rfl⟩
  waiting := fun _ _ => rfl
  emulated := by simp [start]
  truthful := by simp [Truthful, start]

theorem isOpen_iff : p.isOpen ↔ p.result = none ∧ p.checked ∧ p.failed < maxAttempts := by
  simp [isOpen, and_assoc]

/-- The store and the counters do not matter once the check has passed. -/
theorem Inv.congr (h : Inv cfg p) (hchecked : p.checked) {store : ObjectStore κ ν}
    {failed inFlight : ℕ} :
    Inv cfg { p with store := store, failed := failed, inFlight := inFlight } :=
  ⟨by simp [hchecked], h.waiting, h.emulated, h.truthful⟩

/-- Any result but a refusal ends the call safely. -/
theorem Inv.finish (hchecked : p.checked) {result : Except StoreError ℕ} {applied : Bool}
    {store : ObjectStore κ ν} {failed inFlight : ℕ}
    (hresult : ∀ current, result ≠ .error (.preconditionFailed current)) :
    Inv cfg { p with store := store, applied := applied, failed := failed, inFlight := inFlight,
                     result := some result } :=
  ⟨by simp [hchecked], by simp,
    fun current hpf => absurd (Option.some.inj hpf) (hresult current),
    fun current hpf => absurd (Option.some.inj hpf) (hresult current)⟩

theorem Inv.refuse (h : Inv cfg p) (hopen : p.result = none)
    (hrefused : cfg.honours ∨ p.checked = false) (filled : Bool) : Inv cfg (p.refuse filled) where
  unchecked := h.unchecked
  waiting := by simp [Put.refuse]
  emulated := fun _ _ => hrefused
  truthful := by
    intro current _
    rcases hrefused with hhonours | hchecked
    · exact h.waiting hhonours hopen
    · exact (h.unchecked hchecked).2

/-- Once an update was applied, the version it names is gone for good. -/
structure Spent (v : ℕ) (p : Put κ ν) : Prop where
  mode : p.mode = .update v
  bounded : p.store.Bounded
  gone : p.applied → v < p.store.next ∧ ∀ x, p.store.version p.key = some x → v < x

theorem Spent.congr {v : ℕ} (h : Spent v p) {checked : Bool} {failed inFlight : ℕ}
    {result : Option (Except StoreError ℕ)} :
    Spent v { p with checked := checked, failed := failed, inFlight := inFlight,
                     result := result } :=
  ⟨h.mode, h.bounded, h.gone⟩

variable [DecidableEq κ]

@[simp] theorem process_result (cfg : Config) (p : Put κ ν) :
    (p.process cfg).result = p.result := by
  unfold process
  split_ifs <;> rfl

@[simp] theorem process_checked (cfg : Config) (p : Put κ ν) :
    (p.process cfg).checked = p.checked := by
  unfold process
  split_ifs <;> rfl

/-- A request processed unseen was refused, or the service never refuses. -/
theorem Inv.process (h : Inv cfg p) (hchecked : p.checked)
    (hseen : cfg.honours → p.admits cfg = false) : Inv cfg (p.process cfg) := by
  unfold Put.process
  split_ifs with hadm
  · have hhonours : cfg.honours = false := by
      by_contra hh
      rw [hseen (by simpa using hh)] at hadm
      cases hadm
    have hno : ∀ current, p.result ≠ some (.error (.preconditionFailed current)) := by
      intro current hpf
      have := h.emulated current hpf
      simp [hhonours, hchecked] at this
    exact ⟨by simp [hchecked], by simp [hhonours], fun current hpf => absurd hpf (hno current),
      fun current hpf => absurd hpf (hno current)⟩
  · exact h

/-- Every step keeps the invariant when no attempt is applied unseen. -/
theorem Inv.step (h : Inv cfg p) (e : Event ν) (hseen : seen cfg p e)
    (hstep : p.step cfg e = some p') : Inv cfg p' := by
  cases e with
  | foreignWrite value =>
    cases hstep
    exact ⟨h.unchecked, h.waiting, h.emulated, h.truthful⟩
  | foreignDelete =>
    simp only [Put.step] at hstep
    split at hstep <;> cases hstep
    exact ⟨h.unchecked, h.waiting, h.emulated, h.truthful⟩
  | check ok =>
    simp only [Put.step] at hstep
    split_ifs at hstep with hopen hok hacc <;> cases hstep
    all_goals
      simp only [Bool.and_eq_true, Option.isNone_iff_eq_none, Bool.not_eq_true'] at hopen
      obtain ⟨hnone, hchecked⟩ := hopen
    · exact ⟨h.unchecked, by simp, by simp, by simp [Truthful]⟩
    · exact ⟨by simp, h.waiting, by simp [hnone], by simp [Truthful, hnone]⟩
    · exact h.refuse hnone (Or.inr hchecked) true
  | answer filled =>
    simp only [Put.step] at hstep
    split_ifs at hstep with hopen hadm <;> cases hstep
    all_goals obtain ⟨hnone, hchecked, -⟩ := isOpen_iff.mp hopen
    · exact Inv.finish (by simpa using hchecked) (by simp)
    · exact h.refuse hnone (Or.inl (by simp_all [admits])) filled
  | conflict filled =>
    simp only [Put.step] at hstep
    split_ifs at hstep with hopen
    cases hstep
    simp only [Bool.and_eq_true] at hopen
    exact h.refuse (isOpen_iff.mp hopen.1).1 (Or.inl hopen.2) filled
  | fail processed =>
    simp only [Put.step] at hstep
    split_ifs at hstep with hopen hleft hproc hproc <;> cases hstep
    all_goals obtain ⟨hnone, hchecked, -⟩ := isOpen_iff.mp hopen
    · subst hproc
      exact (h.process hchecked hseen).congr (by simpa using hchecked)
    · exact h.congr hchecked
    · exact Inv.finish (by simpa using hchecked) (by simp)
    · exact Inv.finish hchecked (by simp)
  | land =>
    simp only [Put.step] at hstep
    split_ifs at hstep with hfly
    cases hstep
    have hchecked : p.checked := by
      by_contra hc
      have := (h.unchecked (by simpa using hc)).1
      omega
    exact (h.process hchecked hseen).congr (by simpa using hchecked)

theorem Spent.write {v : ℕ} (h : Spent v p) (value : ν) {applied : Bool}
    (hv : applied → v < p.store.next) {checked : Bool} {failed inFlight : ℕ}
    {result : Option (Except StoreError ℕ)} :
    Spent v { p with store := p.store.write p.key value, applied := applied, checked := checked,
                     failed := failed, inFlight := inFlight, result := result } where
  mode := h.mode
  bounded := h.bounded.write _ _
  gone := by
    intro happlied
    refine ⟨Nat.lt_succ_of_lt (hv happlied), fun x hx => ?_⟩
    simp only [ObjectStore.version, ObjectStore.write_objects, if_true, Option.map_some,
      Option.some.injEq] at hx
    rw [← hx]
    exact hv happlied

theorem Spent.process {v : ℕ} (hh : cfg.honours) (h : Spent v p) : Spent v (p.process cfg) := by
  unfold Put.process
  split_ifs with hadm
  · refine h.write p.value fun _ => ?_
    -- The service saw the named version, so it was handed out before.
    have hacc : p.store.version p.key = some v := by
      simpa [admits, hh, h.mode, ObjectStore.accepts] using hadm
    obtain ⟨⟨x, body⟩, hobj, rfl⟩ := Option.map_eq_some_iff.mp hacc
    exact h.bounded _ _ _ hobj
  · exact h

theorem Spent.step {v : ℕ} (hh : cfg.honours) (h : Spent v p) (e : Event ν)
    (hstep : p.step cfg e = some p') : Spent v p' := by
  cases e with
  | foreignWrite value =>
    cases hstep
    exact h.write value fun happlied => (h.gone happlied).1
  | foreignDelete =>
    simp only [Put.step] at hstep
    split at hstep <;> cases hstep
    refine ⟨h.mode, h.bounded.delete _ _, fun happlied => ?_⟩
    simp only [ObjectStore.delete_next]
    refine ⟨(h.gone happlied).1, fun x hx => ?_⟩
    obtain ⟨⟨y, body⟩, hobj, rfl⟩ := Option.map_eq_some_iff.mp hx
    have hold := ObjectStore.delete_objects_eq_some hobj
    exact (h.gone happlied).2 y (by simp [ObjectStore.version, hold])
  | check ok =>
    simp only [Put.step] at hstep
    split_ifs at hstep <;> cases hstep <;> exact h.congr
  | answer filled =>
    simp only [Put.step] at hstep
    split_ifs at hstep <;> cases hstep
    · exact (h.process hh).congr
    · exact h.congr
  | conflict filled =>
    simp only [Put.step] at hstep
    split_ifs at hstep
    cases hstep
    exact h.congr
  | fail processed =>
    simp only [Put.step] at hstep
    split_ifs at hstep <;> cases hstep
    · exact (h.process hh).congr
    · exact h.congr
    · exact (h.process hh).congr
    · exact h.congr
  | land =>
    simp only [Put.step] at hstep
    split_ifs at hstep
    cases hstep
    exact (h.process hh).congr

/-- `PreconditionFailed` means that nothing was applied as long as no attempt is applied unseen;
and an update that was applied unseen breaks this as soon as a later attempt is answered. -/
theorem put_truthful (cfg : Config) (store : ObjectStore κ ν) (key : κ) (value : ν)
    (mode : PutMode) :
    (∀ events p, Runs.run (step cfg) (start cfg store key value mode) events = some p →
      Runs.AllSteps (step cfg) (seen cfg) (start cfg store key value mode) events →
      p.Truthful) ∧
    ∀ v events p p' filled, cfg.honours → store.Bounded → mode = .update v →
      Runs.run (step cfg) (start cfg store key value mode) events = some p → p.applied →
      p.result = none → p.step cfg (.answer filled) = some p' → ¬ p'.Truthful := by
  constructor
  · intro events p hrun hseen
    have h : Inv cfg p := Runs.invariant (fun _ e _ h hs hstep => h.step e hs hstep) hrun hseen
      (inv_start store key value mode)
    exact h.truthful
  · intro v events p p' filled hh hbounded hmode hrun happlied hnone hstep htrue
    have hstart : Spent v (start cfg store key value mode) := ⟨hmode, hbounded, by simp [start]⟩
    have h : Spent v p := Runs.invariant (fun _ e _ h _ hstep => h.step hh e hstep) hrun
      (Runs.allSteps_true _ _) hstart
    have hrefused : p.admits cfg = false := by
      by_contra hadm
      have hacc : p.store.version p.key = some v := by
        simpa [admits, hh, h.mode, ObjectStore.accepts] using hadm
      exact absurd ((h.gone happlied).2 v hacc) (Nat.lt_irrefl v)
    simp only [Put.step, hrefused, Bool.false_eq_true, if_false] at hstep
    split_ifs at hstep
    cases hstep
    have := htrue _ rfl
    simp only [Put.refuse] at this
    rw [happlied] at this
    cases this

end Put

/-- A create of an absent key over a service that honours the condition. -/
def create : Put Unit String := Put.start ⟨false, true⟩ ⟨fun _ => none, 0⟩ () "segment" .create

/-- Another writer is first: the lost attempt was refused, and so is the resent one. -/
theorem put_truthful_foreign :
    ∃ p, Runs.run (Put.step ⟨false, true⟩) create [.foreignWrite "other", .fail true, .answer true] =
      some p ∧ p.result = some (.error (.preconditionFailed (some 0))) ∧ p.Truthful := by
  have hsome : (Runs.run (Put.step ⟨false, true⟩) create
      [.foreignWrite "other", .fail true, .answer true]).map Put.result =
      some (some (.error (.preconditionFailed (some 0)))) := rfl
  obtain ⟨p, hrun, hresult⟩ := Option.map_eq_some_iff.mp hsome
  refine ⟨p, hrun, hresult, (Put.put_truthful _ _ _ _ _).1 _ _ hrun ?_⟩
  refine ⟨trivial, fun p hp => ⟨fun _ => ?_, fun q hq => ⟨trivial, fun _ _ => trivial⟩⟩⟩
  cases hp
  rfl

/-- The first attempt is applied and its reply lost, the second loses against the first. -/
theorem put_resend_refused :
    ∃ p, Runs.run (Put.step ⟨false, true⟩) create [.fail true, .answer true] = some p ∧
      ¬ p.Truthful := by
  have hsome : (Runs.run (Put.step ⟨false, true⟩) create [.fail true, .answer true]).map
      (fun p => (p.result, p.applied)) =
      some (some (.error (.preconditionFailed (some 0))), true) := rfl
  obtain ⟨p, hrun, heq⟩ := Option.map_eq_some_iff.mp hsome
  simp only [Prod.mk.injEq] at heq
  refine ⟨p, hrun, fun h => ?_⟩
  have happlied := h _ heq.1
  rw [heq.2] at happlied
  cases happlied

end Truthful

end Walgit.S3
