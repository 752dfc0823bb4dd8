import Mathlib.Data.List.Induction
import Mathlib.Data.List.Nodup
import Mathlib.Logic.Relation
import Walgit.Replay

/-!
# Conditional changes in one log

Clients submit transactions that say what they expect of the state. One that meets it is
appended to the log, and answered some time after that. A reader is given the state after
some prefix of the log, no shorter than the log was when the read began.
-/
namespace PushContract

open Function (update)

/-- What a transaction expects of a state, and what it makes of it. -/
structure Rules (σ τ : Type*) where
  start : σ
  expects : σ → τ → Prop
  apply : σ → τ → σ

inductive Entry (ι τ : Type*)
  | push (id : ι) (txn : τ)
  /-- Maintenance, which changes no state. -/
  | fold
  deriving DecidableEq

/-- How far a submitted transaction has come. -/
inductive Stage
  | new
  | committed
  | refused
  | acknowledged
  deriving DecidableEq

structure State (ι τ ρ : Type*) where
  hist : List (Entry ι τ)
  pend : ι → Option (τ × Stage)
  /-- How long the log was when the reads under way began. -/
  floor : ρ → Option ℕ
  /-- How much of the log each reader was given last. -/
  seen : ρ → ℕ

variable {σ τ ι ρ : Type*}

def initial : State ι τ ρ := ⟨[], fun _ => none, fun _ => none, fun _ => 0⟩

def Entry.id? : Entry ι τ → Option ι
  | .push id _ => some id
  | .fold => none

namespace Rules

variable (R : Rules σ τ)

def next (s : σ) : Entry ι τ → σ
  | .push _ txn => R.apply s txn
  | .fold => s

/-- The state that a log leads to. -/
def after (hist : List (Entry ι τ)) : σ := hist.foldl R.next R.start

theorem after_append (hist new : List (Entry ι τ)) :
    R.after (hist ++ new) = new.foldl R.next (R.after hist) := List.foldl_append

end Rules

section Steps

variable [DecidableEq ι] [DecidableEq ρ] (R : Rules σ τ)

inductive Step (s : State ι τ ρ) : State ι τ ρ → Prop
  | submit (id : ι) (txn : τ) (new : s.pend id = none) :
      Step s { s with pend := update s.pend id (some (txn, .new)) }
  | commit (id : ι) (txn : τ) (new : s.pend id = some (txn, .new))
      (met : R.expects (R.after s.hist) txn) :
      Step s { s with
        hist := s.hist ++ [.push id txn]
        pend := update s.pend id (some (txn, .committed)) }
  | refuse (id : ι) (txn : τ) (new : s.pend id = some (txn, .new)) :
      Step s { s with pend := update s.pend id (some (txn, .refused)) }
  | acknowledge (id : ι) (txn : τ) (done : s.pend id = some (txn, .committed)) :
      Step s { s with pend := update s.pend id (some (txn, .acknowledged)) }
  | fold : Step s { s with hist := s.hist ++ [.fold] }
  | readBegin (r : ρ) (idle : s.floor r = none) :
      Step s { s with floor := update s.floor r (some s.hist.length) }
  | readEnd (r : ρ) (lo j : ℕ) (active : s.floor r = some lo) (fresh : lo ≤ j)
      (written : j ≤ s.hist.length) :
      Step s { s with floor := update s.floor r none, seen := update s.seen r j }
  | readFail (r : ρ) : Step s { s with floor := update s.floor r none }

def Steps : State ι τ ρ → State ι τ ρ → Prop := Relation.ReflTransGen (Step R)

end Steps

/-- The stages that tell of an entry. -/
def Stage.logged : Stage → Bool
  | .committed | .acknowledged => true
  | .new | .refused => false

/-- What the clients of the log rely on. -/
structure Inv (R : Rules σ τ) (s : State ι τ ρ) : Prop where
  traced : ∀ id txn, .push id txn ∈ s.hist → ∃ st, s.pend id = some (txn, st) ∧ st.logged
  durable : ∀ id txn st, s.pend id = some (txn, st) → st.logged → .push id txn ∈ s.hist
  once : (s.hist.filterMap Entry.id?).Nodup
  expected : ∀ before id txn rest, s.hist = before ++ .push id txn :: rest →
    R.expects (R.after before) txn
  floors : ∀ r lo, s.floor r = some lo → s.seen r ≤ lo ∧ lo ≤ s.hist.length
  seen : ∀ r, s.seen r ≤ s.hist.length

section Invariant

variable {R : Rules σ τ} {s s' : State ι τ ρ}

theorem inv_initial : Inv R (initial : State ι τ ρ) where
  traced := by simp [initial]
  durable := by simp [initial]
  once := List.nodup_nil
  expected := by simp [initial]
  floors := by simp [initial]
  seen := by simp [initial]

theorem expected_snoc {hist : List (Entry ι τ)} {e : Entry ι τ}
    (hold : ∀ before id txn rest, hist = before ++ .push id txn :: rest →
      R.expects (R.after before) txn)
    (hnew : ∀ id txn, e = .push id txn → R.expects (R.after hist) txn) :
    ∀ before id txn rest, hist ++ [e] = before ++ .push id txn :: rest →
      R.expects (R.after before) txn := by
  intro before id txn rest heq
  induction rest using List.reverseRecOn with
  | nil =>
    obtain ⟨hbefore, hlast⟩ := List.append_inj' heq rfl
    rw [← hbefore]
    exact hnew id txn (List.singleton_inj.mp hlast)
  | append_singleton rest e' _ =>
    rw [← List.cons_append, ← List.append_assoc] at heq
    exact hold before id txn rest (List.append_inj' heq rfl).1

variable [DecidableEq ι]

/-- A transaction may move on to a stage that tells the same of the log. -/
theorem Inv.setPend (h : Inv R s) {id : ι} {txn : τ} {st : Stage}
    (hsame : ∀ txn', (∃ st', s.pend id = some (txn', st') ∧ st'.logged = true) ↔
      txn' = txn ∧ st.logged = true) :
    Inv R { s with pend := update s.pend id (some (txn, st)) } := by
  refine ⟨fun id' txn' hmem => ?_, fun id' txn' st' hp hlog => ?_, h.once, h.expected, h.floors,
    h.seen⟩
  · obtain ⟨st', hp, hlog⟩ := h.traced id' txn' hmem
    by_cases heq : id' = id
    · subst heq
      obtain ⟨rfl, hst⟩ := (hsame txn').mp ⟨st', hp, hlog⟩
      exact ⟨st, Function.update_self .., hst⟩
    · exact ⟨st', (Function.update_of_ne heq ..).trans hp, hlog⟩
  · change update s.pend id (some (txn, st)) id' = some (txn', st') at hp
    rw [Function.update_apply] at hp
    split_ifs at hp with heq
    · cases hp
      subst heq
      obtain ⟨old, hold, hlogged⟩ := (hsame txn).mpr ⟨rfl, hlog⟩
      exact h.durable _ _ old hold hlogged
    · exact h.durable id' txn' st' hp hlog

theorem Inv.commit (h : Inv R s) {id : ι} {txn : τ} (hnew : s.pend id = some (txn, .new))
    (hmet : R.expects (R.after s.hist) txn) :
    Inv R { s with
      hist := s.hist ++ [.push id txn]
      pend := update s.pend id (some (txn, .committed)) } := by
  have habsent : ∀ txn', .push id txn' ∉ s.hist := by
    intro txn' hmem
    obtain ⟨st, hp, hlog⟩ := h.traced id txn' hmem
    rw [hnew] at hp
    cases hp
    cases hlog
  refine ⟨fun id' txn' hmem => ?_, fun id' txn' st' hp hlog => ?_, ?_, ?_, fun r lo hr => ?_,
    fun r => ?_⟩
  · rcases List.mem_append.mp hmem with hmem | hmem
    · have hne : id' ≠ id := by
        rintro rfl
        exact habsent txn' ‹_›
      obtain ⟨st, hp, hlog⟩ := h.traced id' txn' hmem
      exact ⟨st, (Function.update_of_ne hne ..).trans hp, hlog⟩
    · cases List.mem_singleton.mp hmem
      exact ⟨.committed, Function.update_self .., rfl⟩
  · change update s.pend id (some (txn, .committed)) id' = some (txn', st') at hp
    rw [Function.update_apply] at hp
    split_ifs at hp with heq
    · cases hp
      subst heq
      exact List.mem_append_right _ (List.mem_singleton.mpr rfl)
    · exact List.mem_append_left _ (h.durable id' txn' st' hp hlog)
  · change ((s.hist ++ [Entry.push id txn]).filterMap Entry.id?).Nodup
    rw [List.filterMap_append]
    refine h.once.append (List.nodup_singleton id) fun x hx hx' => ?_
    obtain ⟨e, he, hid⟩ := List.mem_filterMap.mp hx
    rw [List.mem_singleton.mp hx'] at hid
    cases e with
    | push id' txn' =>
      cases hid
      exact habsent txn' he
    | fold => cases hid
  · refine expected_snoc h.expected fun id' txn' heq => ?_
    cases heq
    exact hmet
  · have := h.floors r lo hr
    simp only [List.length_append]
    omega
  · have := h.seen r
    simp only [List.length_append]
    omega

variable [DecidableEq ρ]

theorem Inv.step (h : Inv R s) (hstep : Step R s s') : Inv R s' := by
  cases hstep with
  | submit id txn new => exact h.setPend fun txn' => by simp [new, Stage.logged]
  | commit id txn new met => exact h.commit new met
  | refuse id txn new => exact h.setPend fun txn' => by simp [new, Stage.logged]
  | acknowledge id txn done =>
    exact h.setPend fun txn' => by simp [done, Stage.logged, eq_comm (a := txn)]
  | fold =>
    refine ⟨fun id txn hmem => ?_, fun id txn st hp hlog => ?_, ?_, ?_, fun r lo hr => ?_,
      fun r => ?_⟩
    · exact h.traced id txn (by simpa using hmem)
    · exact List.mem_append_left _ (h.durable id txn st hp hlog)
    · rw [List.filterMap_append, List.filterMap_cons_none rfl, List.filterMap_nil, List.append_nil]
      exact h.once
    · exact expected_snoc h.expected fun id txn heq => by cases heq
    · have := h.floors r lo hr
      simp only [List.length_append]
      omega
    · have := h.seen r
      simp only [List.length_append]
      omega
  | readBegin r idle =>
    refine ⟨h.traced, h.durable, h.once, h.expected, fun r' lo hr => ?_, h.seen⟩
    change update s.floor r (some s.hist.length) r' = some lo at hr
    rw [Function.update_apply] at hr
    split_ifs at hr
    · cases hr
      exact ⟨h.seen r', Nat.le_refl _⟩
    · exact h.floors r' lo hr
  | readEnd r lo j active fresh written =>
    refine ⟨h.traced, h.durable, h.once, h.expected, fun r' lo' hr => ?_, fun r' => ?_⟩
    · change update s.floor r none r' = some lo' at hr
      rw [Function.update_apply] at hr
      split_ifs at hr with heq
      have hseen : update s.seen r j r' = s.seen r' := Function.update_of_ne heq ..
      obtain ⟨hle, hlength⟩ := h.floors r' lo' hr
      exact ⟨Nat.le_trans (Nat.le_of_eq hseen) hle, hlength⟩
    · change update s.seen r j r' ≤ s.hist.length
      rw [Function.update_apply]
      split_ifs
      · exact written
      · exact h.seen r'
  | readFail r =>
    refine ⟨h.traced, h.durable, h.once, h.expected, fun r' lo hr => ?_, h.seen⟩
    change update s.floor r none r' = some lo at hr
    rw [Function.update_apply] at hr
    split_ifs at hr
    exact h.floors r' lo hr

theorem inv_steps (h : Inv R s) (hsteps : Steps R s s') : Inv R s' := by
  induction hsteps with
  | refl => exact h
  | tail _ hstep ih => exact ih.step hstep

/-- The log only grows. -/
theorem Steps.hist_extends (hsteps : Steps R s s') : s.hist <+: s'.hist := by
  induction hsteps with
  | refl => exact List.prefix_refl _
  | tail _ hstep ih =>
    cases hstep with
    | commit | fold => exact ih.trans (List.prefix_append _ _)
    | submit | refuse | acknowledge | readBegin | readEnd | readFail => exact ih

/-- A read that began later is given at least the log there was. -/
theorem Steps.floor_le (hsteps : Steps R s s') {r : ρ} (hidle : s.floor r = none) {lo : ℕ}
    (hlo : s'.floor r = some lo) : s.hist.length ≤ lo := by
  induction hsteps generalizing lo with
  | refl =>
    rw [hidle] at hlo
    cases hlo
  | @tail t u hsteps hstep ih =>
    cases hstep with
    | submit | commit | refuse | acknowledge | fold => exact ih hlo
    | readBegin r' idle =>
      change update t.floor r' (some t.hist.length) r = some lo at hlo
      rw [Function.update_apply] at hlo
      split_ifs at hlo
      · cases hlo
        exact (Steps.hist_extends hsteps).length_le
      · exact ih hlo
    | readEnd r' | readFail r' =>
      change update t.floor r' none r = some lo at hlo
      rw [Function.update_apply] at hlo
      split_ifs at hlo
      exact ih hlo

/-- What was in the log when a read began is in every prefix the read may be given. -/
theorem Steps.mem_take (hsteps : Steps R s s') {e : Entry ι τ} (he : e ∈ s.hist) {j : ℕ}
    (hj : s.hist.length ≤ j) : e ∈ s'.hist.take j := by
  obtain ⟨new, hnew⟩ := hsteps.hist_extends
  rw [← hnew, List.take_append, List.take_of_length_le hj]
  exact List.mem_append_left _ he

end Invariant

section Lifting

variable [DecidableEq ι] [DecidableEq ρ] {R : Rules σ τ}

/-- What may become of a transaction without a change of the log. -/
inductive Moves : Option (τ × Stage) → Option (τ × Stage) → Prop
  | same (p : Option (τ × Stage)) : Moves p p
  | submit (txn : τ) : Moves none (some (txn, .new))
  | refuse (txn : τ) : Moves (some (txn, .new)) (some (txn, .refused))
  | acknowledge (txn : τ) : Moves (some (txn, .committed)) (some (txn, .acknowledged))

theorem Moves.step {s : State ι τ ρ} {id : ι} {p : Option (τ × Stage)} (h : Moves (s.pend id) p) :
    Steps R s { s with pend := update s.pend id p } := by
  generalize hold : s.pend id = old at h
  cases h with
  | same p =>
    rw [← hold, Function.update_eq_self]
    exact .refl
  | submit txn => exact .single (.submit id txn hold)
  | refuse txn => exact .single (.refuse id txn hold)
  | acknowledge txn => exact .single (.acknowledge id txn hold)

/-- Transactions that move at once move one after another. -/
theorem steps_moves {ids : List ι} {s : State ι τ ρ} {pend : ι → Option (τ × Stage)}
    (hoff : ∀ id ∉ ids, pend id = s.pend id) (hmoves : ∀ id ∈ ids, Moves (s.pend id) (pend id)) :
    Steps R s { s with pend := pend } := by
  induction ids generalizing s with
  | nil =>
    obtain rfl : pend = s.pend := funext fun id => hoff id List.not_mem_nil
    exact .refl
  | cons id ids ih =>
    have hfirst : Steps R s { s with pend := update s.pend id (pend id) } :=
      (hmoves id List.mem_cons_self).step
    refine hfirst.trans (ih (s := { s with pend := update s.pend id (pend id) })
      (fun id' hid' => ?_) fun id' hid' => ?_)
    · change pend id' = update s.pend id (pend id) id'
      rw [Function.update_apply]
      split_ifs with heq
      · rw [heq]
      · exact hoff id' (by simp [heq, hid'])
    · change Moves (update s.pend id (pend id) id') (pend id')
      rw [Function.update_apply]
      split_ifs with heq
      · rw [heq]
        exact .same _
      · exact hmoves id' (List.mem_cons_of_mem _ hid')

/-- Transactions that are appended at once are appended one after another, if each finds what it
expects after the ones before it. -/
theorem steps_commits {pushes : List (ι × τ)} {s : State ι τ ρ}
    {pend : ι → Option (τ × Stage)} (hids : (pushes.map Prod.fst).Nodup)
    (hnew : ∀ p ∈ pushes, s.pend p.1 = some (p.2, .new))
    (hmet : Replay.Along R.apply R.expects (R.after s.hist) (pushes.map Prod.snd))
    (hoff : ∀ id ∉ pushes.map Prod.fst, pend id = s.pend id)
    (hdone : ∀ p ∈ pushes, pend p.1 = some (p.2, .committed)) :
    Steps R s { s with hist := s.hist ++ pushes.map fun p => .push p.1 p.2, pend := pend } := by
  induction pushes generalizing s with
  | nil =>
    obtain rfl : pend = s.pend := funext fun id => hoff id List.not_mem_nil
    rw [List.map_nil, List.append_nil]
    exact .refl
  | cons p pushes ih =>
    obtain ⟨hmet, hrest⟩ := hmet
    obtain ⟨hfresh, hids⟩ := List.nodup_cons.mp hids
    have hfirst := Step.commit p.1 p.2 (hnew p List.mem_cons_self) hmet
    have hafter : R.after (s.hist ++ [.push p.1 p.2]) = R.apply (R.after s.hist) p.2 :=
      R.after_append _ _
    have hne : ∀ q ∈ pushes, q.1 ≠ p.1 := by
      intro q hq heq
      exact hfresh (heq ▸ List.mem_map_of_mem hq)
    have hlast := ih
      (s := { s with
        hist := s.hist ++ [.push p.1 p.2]
        pend := update s.pend p.1 (some (p.2, .committed)) }) hids
      (fun q hq => (Function.update_of_ne (hne q hq) ..).trans (hnew q (List.mem_cons_of_mem _ hq)))
      (by rw [hafter]; exact hrest) (fun id hid => ?_) fun q hq => hdone q (List.mem_cons_of_mem _ hq)
    · rw [List.append_assoc] at hlast
      exact .head hfirst hlast
    · change pend id = update s.pend p.1 (some (p.2, .committed)) id
      rw [Function.update_apply]
      split_ifs with heq
      · rw [heq]
        exact hdone p List.mem_cons_self
      · exact hoff id (by simpa [heq] using hid)

theorem steps_folds (s : State ι τ ρ) (n : ℕ) :
    Steps R s { s with hist := s.hist ++ List.replicate n .fold } := by
  induction n generalizing s with
  | zero =>
    rw [List.replicate_zero, List.append_nil]
    exact .refl
  | succ n ih =>
    have hlast := ih { s with hist := s.hist ++ [.fold] }
    rw [List.append_assoc] at hlast
    exact .head .fold hlast

end Lifting

end PushContract
