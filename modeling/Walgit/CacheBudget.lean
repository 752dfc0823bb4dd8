import Mathlib.Algebra.BigOperators.Group.List.Basic
import Mathlib.Algebra.Order.Group.Nat
import Mathlib.Algebra.Ring.Nat
import Mathlib.Data.List.Sort

/-!
# The budget of the cache

Maintenance of the local copies in budget mode: repositories that were idle past a limit are
removed, the one that was idle longest first, until the cache fits in its budget.
-/
namespace Walgit.CacheBudget

variable {κ : Type} [DecidableEq κ]

/-- An open repository. `size` is the size of its directory; the flags tell whether its two locks
are free. -/
structure OpenRepo (κ : Type) where
  id : κ
  size : ℕ
  lastAccess : ℕ
  syncFree : Bool := true
  writeFree : Bool := true
  deriving DecidableEq, Repr

/-- The open repositories in the order in which they are visited. -/
structure Repos (κ : Type) where
  list : List (OpenRepo κ)
  distinct : (list.map OpenRepo.id).Nodup

structure CacheConfig where
  maxBytes : ℕ
  evictIdleAfter : ℕ
  deriving DecidableEq, Repr

structure EvictReport where
  evicted : ℕ := 0
  remainingBytes : ℕ := 0
  deriving DecidableEq, Repr

/-- A pass under way: the repositories still open, the bytes counted, and what was evicted. -/
structure Pass (κ : Type) where
  repos : List (OpenRepo κ)
  totalBytes : ℕ
  evicted : List (OpenRepo κ) := []
  deriving DecidableEq, Repr

def bytes (repos : List (OpenRepo κ)) : ℕ := (repos.map OpenRepo.size).sum

namespace OpenRepo

def unlocked (r : OpenRepo κ) : Bool := r.syncFree && r.writeFree

def idle (cfg : CacheConfig) (now : ℕ) (r : OpenRepo κ) : Bool :=
  cfg.evictIdleAfter < now - r.lastAccess

end OpenRepo

def olderFirst (a b : OpenRepo κ) : Prop := a.lastAccess ≤ b.lastAccess

instance : DecidableRel (olderFirst (κ := κ)) := fun a b =>
  inferInstanceAs (Decidable (a.lastAccess ≤ b.lastAccess))

namespace Pass

def remove (p : Pass κ) (r : OpenRepo κ) : Pass κ where
  repos := p.repos.filter (·.id ≠ r.id)
  totalBytes := p.totalBytes - r.size
  evicted := p.evicted ++ [r]

def report (p : Pass κ) : EvictReport := ⟨p.evicted.length, p.totalBytes⟩

end Pass

/-- The candidates are evicted until the budget is met; a locked one is passed over. -/
def evictFrom (maxBytes : ℕ) : List (OpenRepo κ) → Pass κ → Pass κ
  | [], p => p
  | r :: candidates, p =>
    if p.totalBytes ≤ maxBytes then p
    else if r.unlocked then evictFrom maxBytes candidates (p.remove r)
    else evictFrom maxBytes candidates p

def candidates (cfg : CacheConfig) (now : ℕ) (repos : Repos κ) : List (OpenRepo κ) :=
  (repos.list.filter (OpenRepo.idle cfg now)).insertionSort olderFirst

def evictIdleBlocking (cfg : CacheConfig) (now : ℕ) (repos : Repos κ) : Pass κ :=
  evictFrom cfg.maxBytes (candidates cfg now repos)
    ⟨repos.list, bytes (candidates cfg now repos), []⟩

/-- What the pass owes to the budget. -/
structure MeetsBudget (cfg : CacheConfig) (now : ℕ) (repos : Repos κ) : Prop where
  budget : bytes (evictIdleBlocking cfg now repos).repos ≤ cfg.maxBytes ∨
    ∀ r ∈ (evictIdleBlocking cfg now repos).repos, r.idle cfg now → r.unlocked = false
  ordered : (evictIdleBlocking cfg now repos).evicted.Pairwise olderFirst
  oldest : ∀ e ∈ (evictIdleBlocking cfg now repos).evicted,
    ∀ r ∈ (evictIdleBlocking cfg now repos).repos, r.idle cfg now → r.unlocked → olderFirst e r
  reported : (evictIdleBlocking cfg now repos).report.remainingBytes =
    bytes (evictIdleBlocking cfg now repos).repos

section Spec

variable {cfg : CacheConfig} {now : ℕ} {repos : Repos κ} {p : Pass κ}
  {l m : List (OpenRepo κ)} {r : OpenRepo κ}

/-- The evicted repositories are the unlocked ones of a first part of the candidates, which is
all of them unless the budget is met. -/
theorem evictFrom_spec (maxBytes : ℕ) (l : List (OpenRepo κ)) (p : Pass κ) :
    ∃ k, evictFrom maxBytes l p = ((l.take k).filter OpenRepo.unlocked).foldl Pass.remove p ∧
      ((evictFrom maxBytes l p).totalBytes ≤ maxBytes ∨ l.length ≤ k) := by
  induction l generalizing p with
  | nil => exact ⟨0, rfl, Or.inr (Nat.le_refl 0)⟩
  | cons r l ih =>
    rw [evictFrom]
    split_ifs with hle hfree
    · exact ⟨0, rfl, Or.inl hle⟩
    · obtain ⟨k, hk, hend⟩ := ih (p.remove r)
      refine ⟨k + 1, ?_, hend.imp_right Nat.succ_le_succ⟩
      rw [hk, List.take_succ_cons, List.filter_cons_of_pos hfree, List.foldl_cons]
    · obtain ⟨k, hk, hend⟩ := ih p
      refine ⟨k + 1, ?_, hend.imp_right Nat.succ_le_succ⟩
      rw [hk, List.take_succ_cons, List.filter_cons_of_neg hfree]

theorem foldl_remove_evicted (l : List (OpenRepo κ)) (p : Pass κ) :
    (l.foldl Pass.remove p).evicted = p.evicted ++ l := by
  induction l generalizing p with
  | nil => exact (List.append_nil _).symm
  | cons r l ih => rw [List.foldl_cons, ih, Pass.remove, List.append_assoc, List.singleton_append]

theorem mem_foldl_remove {l : List (OpenRepo κ)} {p : Pass κ} :
    r ∈ (l.foldl Pass.remove p).repos ↔ r ∈ p.repos ∧ ∀ e ∈ l, r.id ≠ e.id := by
  induction l generalizing p with
  | nil => simp
  | cons e l ih =>
    rw [List.foldl_cons, ih, Pass.remove, List.mem_filter, decide_eq_true_eq, and_assoc,
      List.forall_mem_cons]

omit [DecidableEq κ] in
theorem bytes_filter_add (l : List (OpenRepo κ)) (f : OpenRepo κ → Bool) :
    bytes (l.filter f) + bytes (l.filter fun r => !f r) = bytes l := by
  rw [bytes, bytes, ← List.sum_append, ← List.map_append]
  exact ((List.filter_append_perm f l).map _).sum_eq

theorem bytes_remove {l : List (OpenRepo κ)} (hids : (l.map OpenRepo.id).Nodup) (hr : r ∈ l) :
    bytes (l.filter (·.id ≠ r.id)) + r.size = bytes l := by
  induction l with
  | nil => cases hr
  | cons a l ih =>
    rw [List.map_cons, List.nodup_cons] at hids
    rcases List.mem_cons.mp hr with rfl | hr
    · have hrest : l.filter (·.id ≠ r.id) = l := by
        refine List.filter_eq_self.mpr fun b hb => decide_eq_true fun heq => hids.1 ?_
        exact heq ▸ List.mem_map_of_mem hb
      rw [List.filter_cons_of_neg (by simp), hrest, bytes, bytes, List.map_cons, List.sum_cons,
        Nat.add_comm]
    · have hne : a.id ≠ r.id := fun heq => hids.1 (heq ▸ List.mem_map_of_mem hr)
      have hsum := ih hids.2 hr
      rw [List.filter_cons_of_pos (by simpa using hne)]
      simp only [bytes, List.map_cons, List.sum_cons] at hsum ⊢
      omega

/-- What is counted are the idle repositories that are still open. -/
structure Pass.Counts (p : Pass κ) (cfg : CacheConfig) (now : ℕ) : Prop where
  distinct : (p.repos.map OpenRepo.id).Nodup
  total : p.totalBytes = bytes (p.repos.filter (OpenRepo.idle cfg now))

theorem Pass.Counts.remove (h : p.Counts cfg now) (hr : r ∈ p.repos) (hidle : r.idle cfg now) :
    (p.remove r).Counts cfg now where
  distinct := h.distinct.sublist (List.filter_sublist.map _)
  total := by
    have hsum := bytes_remove (h.distinct.sublist (List.filter_sublist.map OpenRepo.id))
      (List.mem_filter.mpr ⟨hr, hidle⟩)
    have hcomm : (p.repos.filter (·.id ≠ r.id)).filter (OpenRepo.idle cfg now) =
        (p.repos.filter (OpenRepo.idle cfg now)).filter (·.id ≠ r.id) := by
      simp only [List.filter_filter, Bool.and_comm]
    show p.totalBytes - r.size = bytes ((p.repos.filter (·.id ≠ r.id)).filter _)
    rw [hcomm, h.total]
    omega

/-- Evicting distinct repositories keeps the count. -/
theorem Pass.Counts.foldl {l : List (OpenRepo κ)} {p : Pass κ} (h : p.Counts cfg now)
    (hl : ∀ r ∈ l, r ∈ p.repos ∧ r.idle cfg now) (hids : (l.map OpenRepo.id).Nodup) :
    (l.foldl Pass.remove p).Counts cfg now := by
  induction l generalizing p with
  | nil => exact h
  | cons r l ih =>
    rw [List.map_cons, List.nodup_cons] at hids
    obtain ⟨hr, hidle⟩ := hl r List.mem_cons_self
    refine ih (h.remove hr hidle) (fun e he => ?_) hids.2
    obtain ⟨hmem, heidle⟩ := hl e (List.mem_cons_of_mem r he)
    refine ⟨List.mem_filter.mpr ⟨hmem, decide_eq_true fun heq => hids.1 ?_⟩, heidle⟩
    exact heq ▸ List.mem_map_of_mem he

end Spec

section Budget

variable {cfg : CacheConfig} {now : ℕ} {repos : Repos κ} {r : OpenRepo κ}

omit [DecidableEq κ] in
theorem mem_candidates : r ∈ candidates cfg now repos ↔ r ∈ repos.list ∧ r.idle cfg now := by
  rw [candidates, List.mem_insertionSort, List.mem_filter]

omit [DecidableEq κ] in
theorem candidates_sorted : (candidates cfg now repos).Pairwise olderFirst := by
  have htotal : Std.Total (olderFirst (κ := κ)) := ⟨fun a b => Nat.le_total _ _⟩
  have htrans : IsTrans (OpenRepo κ) olderFirst := ⟨fun a b c => Nat.le_trans⟩
  exact List.pairwise_insertionSort olderFirst _

omit [DecidableEq κ] in
theorem candidates_distinct : ((candidates cfg now repos).map OpenRepo.id).Nodup := by
  have hperm := (List.perm_insertionSort olderFirst
    (repos.list.filter (OpenRepo.idle cfg now))).map OpenRepo.id
  exact hperm.nodup_iff.mpr (repos.distinct.sublist (List.filter_sublist.map _))

/-- A whole pass: a first part of the candidates was visited and its unlocked repositories were
evicted, and all were visited unless the count is within the budget. -/
theorem evictIdleBlocking_spec (cfg : CacheConfig) (now : ℕ) (repos : Repos κ) :
    ∃ k, (evictIdleBlocking cfg now repos).evicted =
        ((candidates cfg now repos).take k).filter OpenRepo.unlocked ∧
      (∀ r, r ∈ (evictIdleBlocking cfg now repos).repos ↔ r ∈ repos.list ∧
        ∀ e ∈ ((candidates cfg now repos).take k).filter OpenRepo.unlocked, r.id ≠ e.id) ∧
      (evictIdleBlocking cfg now repos).Counts cfg now ∧
      ((evictIdleBlocking cfg now repos).totalBytes ≤ cfg.maxBytes ∨
        (candidates cfg now repos).length ≤ k) := by
  obtain ⟨k, hk, hend⟩ := evictFrom_spec cfg.maxBytes (candidates cfg now repos)
    ⟨repos.list, bytes (candidates cfg now repos), []⟩
  have hsub := (List.filter_sublist (p := OpenRepo.unlocked)).trans
    (List.take_sublist k (candidates cfg now repos))
  have hcounts : Pass.Counts ⟨repos.list, bytes (candidates cfg now repos), []⟩ cfg now :=
    ⟨repos.distinct, ((List.perm_insertionSort olderFirst _).map _).sum_eq⟩
  refine ⟨k, ?_, fun r => ?_, ?_, hend⟩
  · rw [evictIdleBlocking, hk, foldl_remove_evicted, List.nil_append]
  · rw [evictIdleBlocking, hk, mem_foldl_remove]
  · rw [evictIdleBlocking, hk]
    exact hcounts.foldl (fun r hr => mem_candidates.mp (hsub.subset hr))
      (candidates_distinct.sublist (hsub.map _))

omit [DecidableEq κ] in
theorem bytes_eq_zero {l : List (OpenRepo κ)} : bytes l = 0 ↔ ∀ r ∈ l, r.size = 0 := by
  rw [bytes, List.sum_eq_zero_iff_forall_eq_nat]
  exact List.forall_mem_map

/-- A repository in use stays open. -/
theorem busy_kept (hr : r ∈ repos.list) (hbusy : r.idle cfg now = false) :
    r ∈ (evictIdleBlocking cfg now repos).repos := by
  obtain ⟨k, -, hmem, -, -⟩ := evictIdleBlocking_spec cfg now repos
  refine (hmem r).mpr ⟨hr, fun e he heq => ?_⟩
  obtain ⟨hopen, hidle⟩ := mem_candidates.mp (List.mem_of_mem_take (List.mem_of_mem_filter he))
  rw [List.inj_on_of_nodup_map repos.distinct hr hopen heq, hidle] at hbusy
  cases hbusy

/-- The bytes reported are those of all repositories that remain exactly if those in use have
none. -/
theorem reported_iff : (evictIdleBlocking cfg now repos).report.remainingBytes =
      bytes (evictIdleBlocking cfg now repos).repos ↔
    bytes (repos.list.filter fun r => !r.idle cfg now) = 0 := by
  obtain ⟨k, -, hmem, hcounts, -⟩ := evictIdleBlocking_spec cfg now repos
  have hsplit := bytes_filter_add (evictIdleBlocking cfg now repos).repos (OpenRepo.idle cfg now)
  have hbusy : bytes ((evictIdleBlocking cfg now repos).repos.filter fun r => !r.idle cfg now) = 0 ↔
      bytes (repos.list.filter fun r => !r.idle cfg now) = 0 := by
    simp only [bytes_eq_zero, List.mem_filter, Bool.not_eq_true']
    exact ⟨fun h r hr => h r ⟨busy_kept hr.1 hr.2, hr.2⟩,
      fun h r hr => h r ⟨((hmem r).mp hr.1).1, hr.2⟩⟩
  rw [← hbusy, ← hsplit, ← hcounts.total]
  exact Nat.left_eq_add

/-- The pass meets its budget and reports what remains exactly if the repositories that are not
idle have no bytes: only idle ones are counted. -/
theorem meetsBudget_iff (cfg : CacheConfig) (now : ℕ) (repos : Repos κ) :
    MeetsBudget cfg now repos ↔ bytes (repos.list.filter fun r => !r.idle cfg now) = 0 := by
  refine ⟨fun h => reported_iff.mp h.reported, fun hbusy => ?_⟩
  have hreported := reported_iff.mpr hbusy
  obtain ⟨k, hevicted, hmem, -, hend⟩ := evictIdleBlocking_spec cfg now repos
  have hsorted : (candidates cfg now repos).Pairwise olderFirst := candidates_sorted
  have hall := List.take_append_drop k (candidates cfg now repos)
  rw [← hall, List.pairwise_append] at hsorted
  refine ⟨?_, ?_, ?_, hreported⟩
  · refine hend.imp (fun hle => hreported ▸ hle) fun hk r hr hidle => ?_
    obtain ⟨hopen, hkept⟩ := (hmem r).mp hr
    by_contra hfree
    rw [List.take_of_length_le hk] at hkept
    exact hkept r (List.mem_filter.mpr ⟨mem_candidates.mpr ⟨hopen, hidle⟩,
      by simpa using hfree⟩) rfl
  · rw [hevicted]
    exact hsorted.1.filter _
  · intro e he r hr hidle hfree
    obtain ⟨hopen, hkept⟩ := (hmem r).mp hr
    rw [hevicted] at he
    have hcandidate := mem_candidates.mpr ⟨hopen, hidle⟩
    rw [← hall, List.mem_append] at hcandidate
    rcases hcandidate with hvisited | hlater
    · exact absurd rfl (hkept r (List.mem_filter.mpr ⟨hvisited, hfree⟩))
    · exact hsorted.2.2 e (List.mem_of_mem_filter he) r hlater

/-- An idle repository of two bytes and one of five in use, against a budget of three. -/
def oneBusy : Repos String := ⟨[⟨"idle", 2, 0, true, true⟩, ⟨"busy", 5, 9, true, true⟩], by decide⟩

/-- The idle repository stays although seven bytes are open, and two are reported. -/
theorem meetsBudget_busy :
    ((evictIdleBlocking ⟨3, 5⟩ 10 oneBusy).repos = oneBusy.list ∧
      (evictIdleBlocking ⟨3, 5⟩ 10 oneBusy).report = ⟨0, 2⟩) ∧
      ¬ MeetsBudget ⟨3, 5⟩ 10 oneBusy := by
  refine ⟨by decide, fun h => ?_⟩
  have hreported := h.reported
  exact absurd hreported (by decide)

end Budget

end Walgit.CacheBudget
