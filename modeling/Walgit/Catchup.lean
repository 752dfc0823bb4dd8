import Mathlib.Data.List.Basic
import Mathlib.Data.Nat.Basic
import Walgit.Runs

/-!
# Incremental folds

A state that follows a growing log remembers the position it has reached, skips what it
has seen and refuses a range that starts beyond it. However its callers' ranges overlap,
it is the fold of the entries up to its position.
-/
namespace Catchup

/-- A fold over numbered entries whose state remembers its position. -/
structure Fold (σ ε : Type) where
  init : σ
  seq : σ → ℕ
  pos : ε → ℕ
  apply : σ → ε → σ
  /-- Rebuilds a state from what it wrote down. -/
  reload : σ → σ
  start : seq init = 0
  skips : ∀ s e, pos e ≤ seq s → apply s e = s
  moves : ∀ s e, seq s < pos e → seq (apply s e) = pos e
  reloads : ∀ es : List ε, reload (es.foldl apply init) = es.foldl apply init

/-- A log and the state somebody keeps of it, once loaded. -/
structure Follower (σ ε : Type) where
  log : List ε
  state : Option σ

inductive Action (ε : Type) where
  | commit (e : ε)
  /-- A caller folds what is committed in `(after, last]`. -/
  | fold (after last : ℕ)
  /-- A caller rebuilds the state at `last` and keeps the newer one. -/
  | load (last : ℕ)

namespace Fold

variable {σ ε : Type} (F : Fold σ ε)

def foldFrom (s : σ) (after : ℕ) (entries : List ε) : σ :=
  if F.seq s < after then s else entries.foldl F.apply s

/-- The last committed position. -/
def head (log : List ε) : ℕ := (log.getLast?.map F.pos).getD 0

def step (f : Follower σ ε) : Action ε → Option (Follower σ ε)
  | .commit e => if F.head f.log < F.pos e then some { f with log := f.log ++ [e] } else none
  | .fold after last =>
    let entries := f.log.filter fun e => after < F.pos e && F.pos e ≤ last
    some { f with state := f.state.map fun s => F.foldFrom s after entries }
  | .load last =>
    let fresh := F.reload ((f.log.filter fun e => F.pos e ≤ last).foldl F.apply F.init)
    some { f with state := match f.state with
      | none => some fresh
      | some s => if F.seq s < F.seq fresh then some fresh else some s }

/-- The state is the fold of exactly the entries up to its position. -/
def Exact (log : List ε) (s : σ) : Prop :=
  s = (log.filter fun e => F.pos e ≤ F.seq s).foldl F.apply F.init

/-- Positions grow along the log and start above zero. -/
def Ordered (log : List ε) : Prop :=
  log.Pairwise (fun a b => F.pos a < F.pos b) ∧ ∀ e ∈ log, 0 < F.pos e

/-- The state folded a prefix of the log and lies before the rest. -/
def Reached (log : List ε) (s : σ) : Prop :=
  ∃ p q, log = p ++ q ∧ s = p.foldl F.apply F.init ∧ ∀ e ∈ q, F.seq s < F.pos e

theorem seq_apply (s : σ) (e : ε) : F.seq (F.apply s e) = max (F.seq s) (F.pos e) := by
  by_cases h : F.pos e ≤ F.seq s
  · rw [F.skips s e h]
    omega
  · rw [F.moves s e (not_le.mp h)]
    omega

theorem le_seq_foldl (es : List ε) (s : σ) : F.seq s ≤ F.seq (es.foldl F.apply s) ∧
    ∀ e ∈ es, F.pos e ≤ F.seq (es.foldl F.apply s) := by
  induction es generalizing s with
  | nil => simp
  | cons e es ih =>
    obtain ⟨hle, hall⟩ := ih (F.apply s e)
    have happly := F.seq_apply s e
    refine ⟨by rw [List.foldl_cons]; omega, fun e' he' => ?_⟩
    rcases List.mem_cons.mp he' with rfl | he'
    · rw [List.foldl_cons]
      omega
    · exact hall e' he'

variable {F} {log : List ε} {s : σ}

theorem seq_foldl_le {es : List ε} {n : ℕ} (hs : F.seq s ≤ n) (h : ∀ e ∈ es, F.pos e ≤ n) :
    F.seq (es.foldl F.apply s) ≤ n := by
  induction es generalizing s with
  | nil => exact hs
  | cons e es ih =>
    have he := h e List.mem_cons_self
    refine ih ?_ fun e' he' => h e' (List.mem_cons_of_mem _ he')
    rw [seq_apply]
    omega

/-- What was seen is skipped. -/
theorem foldl_skipped {es : List ε} (h : ∀ e ∈ es, F.pos e ≤ F.seq s) :
    es.foldl F.apply s = s := by
  induction es with
  | nil => rfl
  | cons e es ih =>
    rw [List.foldl_cons, F.skips s e (h e List.mem_cons_self)]
    exact ih fun e' he' => h e' (List.mem_cons_of_mem _ he')

theorem Reached.exact (h : F.Reached log s) : F.Exact log s := by
  obtain ⟨p, q, rfl, rfl, hq⟩ := h
  have hp := (F.le_seq_foldl p F.init).2
  have hfilter : (p ++ q).filter (fun e => F.pos e ≤ F.seq (p.foldl F.apply F.init)) = p := by
    rw [List.filter_append, List.filter_eq_self.mpr fun e he => by simpa using hp e he,
      List.filter_eq_nil_iff.mpr fun e he => by simpa using hq e he, List.append_nil]
  exact (congrArg (List.foldl F.apply F.init) hfilter).symm

/-- Folding the entries up to `last` after the state's own moves it along the log. -/
theorem Reached.advance (h : F.Reached log s) (hlog : F.Ordered log) (last : ℕ) {after : ℕ}
    (hafter : after ≤ F.seq s) : F.Reached log
      ((log.filter fun e => after < F.pos e && F.pos e ≤ last).foldl F.apply s) := by
  obtain ⟨p, q, rfl, rfl, hq⟩ := h
  have hp := (F.le_seq_foldl p F.init).2
  rw [List.filter_append, List.foldl_append,
    foldl_skipped fun e he => hp e (List.mem_filter.mp he).1]
  have hsorted := (List.pairwise_append.mp hlog.1).2.1
  clear hlog hp
  induction q generalizing p with
  | nil => exact ⟨p, [], rfl, rfl, by simp⟩
  | cons e q ih =>
    obtain ⟨hhead, htail⟩ := List.pairwise_cons.mp hsorted
    have hnext := hq e List.mem_cons_self
    by_cases hlast : F.pos e ≤ last
    · have hseq : F.seq ((p ++ [e]).foldl F.apply F.init) = F.pos e := by
        simp [F.moves _ _ hnext]
      have hkeep : (decide (after < F.pos e) && decide (F.pos e ≤ last)) = true := by
        simp [hlast, lt_of_le_of_lt hafter hnext]
      have hrest := ih (p ++ [e]) (by omega) (fun e' he' => hseq ▸ hhead e' he') htail
      simpa [hkeep] using hrest
    · -- The log is ordered, so nothing behind this entry is in range either.
      have hnone : (e :: q).filter (fun e => after < F.pos e && F.pos e ≤ last) = [] := by
        refine List.filter_eq_nil_iff.mpr fun e' he' => ?_
        have hle : F.pos e ≤ F.pos e' := by
          rcases List.mem_cons.mp he' with rfl | he'
          · exact le_rfl
          · exact Nat.le_of_lt (hhead e' he')
        simp only [Bool.and_eq_true, decide_eq_true_eq, not_and]
        omega
      rw [hnone]
      exact ⟨p, e :: q, rfl, rfl, hq⟩

theorem pos_le_head (hlog : F.Ordered log) {e : ε} (he : e ∈ log) : F.pos e ≤ F.head log := by
  rcases List.eq_nil_or_concat log with rfl | ⟨front, last, hlast⟩
  · cases he
  · rw [List.concat_eq_append] at hlast
    subst hlast
    have hbefore := (List.pairwise_append.mp hlog.1).2.2
    simp only [head, List.getLast?_append, List.getLast?_singleton, Option.some_or,
      Option.map_some, Option.getD_some]
    rcases List.mem_append.mp he with he | he
    · exact Nat.le_of_lt (hbefore e he last List.mem_cons_self)
    · rw [List.mem_singleton.mp he]

theorem Ordered.commit (hlog : F.Ordered log) {e : ε} (he : F.head log < F.pos e) :
    F.Ordered (log ++ [e]) := by
  refine ⟨List.pairwise_append.mpr ⟨hlog.1, List.pairwise_singleton _ _, ?_⟩, ?_⟩
  · intro a ha b hb
    rw [List.mem_singleton.mp hb]
    exact lt_of_le_of_lt (pos_le_head hlog ha) he
  · intro a ha
    rcases List.mem_append.mp ha with ha | ha
    · exact hlog.2 a ha
    · rw [List.mem_singleton.mp ha]
      omega

/-- A state stays where it is while the log grows. -/
theorem Reached.append (h : F.Reached log s) {new : List ε} (hlog : F.Ordered (log ++ new)) :
    F.Reached (log ++ new) s := by
  obtain ⟨p, q, rfl, rfl, hq⟩ := h
  refine ⟨p, q ++ new, List.append_assoc .., rfl, fun e he => ?_⟩
  rcases List.mem_append.mp he with he | he
  · exact hq e he
  · have hpos : 0 < F.pos e := hlog.2 e (List.mem_append_right _ he)
    have hafter := (List.pairwise_append.mp hlog.1).2.2
    have hle : F.seq (p.foldl F.apply F.init) ≤ F.pos e - 1 := by
      refine seq_foldl_le (by rw [F.start]; omega) fun e' he' => ?_
      have := hafter e' (List.mem_append_left q he') e he
      omega
    omega

theorem reached_init (hlog : F.Ordered log) : F.Reached log F.init :=
  ⟨[], log, rfl, rfl, fun e he => by rw [F.start]; exact hlog.2 e he⟩

/-- Folding the log from its start up to any position. -/
theorem reached_upTo (hlog : F.Ordered log) (last : ℕ) :
    F.Reached log ((log.filter fun e => F.pos e ≤ last).foldl F.apply F.init) := by
  have hrange : (log.filter fun e => F.pos e ≤ last) =
      log.filter fun e => 0 < F.pos e && F.pos e ≤ last :=
    List.filter_congr fun e he => by simp [hlog.2 e he]
  rw [hrange]
  exact (reached_init hlog).advance hlog last (Nat.zero_le _)

/-- A caller that folds any range of the log leaves the state somewhere along it. -/
theorem Reached.foldFrom (h : F.Reached log s) (hlog : F.Ordered log) (after last : ℕ) :
    F.Reached log
      (F.foldFrom s after (log.filter fun e => after < F.pos e && F.pos e ≤ last)) := by
  unfold Fold.foldFrom
  split_ifs with hbehind
  · exact h
  · exact h.advance hlog last (not_lt.mp hbehind)

/-- Any order of commits, folds and loads keeps the state exact. -/
theorem step_reached {f f' : Follower σ ε} {a : Action ε}
    (h : F.Ordered f.log ∧ ∀ s ∈ f.state, F.Reached f.log s) (hstep : F.step f a = some f') :
    F.Ordered f'.log ∧ ∀ s ∈ f'.state, F.Reached f'.log s := by
  obtain ⟨hlog, hstate⟩ := h
  cases a with
  | commit e =>
    simp only [step] at hstep
    split_ifs at hstep with he
    cases hstep
    have hgrown := hlog.commit he
    exact ⟨hgrown, fun s hs => (hstate s hs).append hgrown⟩
  | fold after last =>
    cases hstep
    refine ⟨hlog, fun s hs => ?_⟩
    obtain ⟨s₀, hs₀, rfl⟩ := Option.map_eq_some_iff.mp hs
    exact (hstate s₀ hs₀).foldFrom hlog after last
  | load last =>
    cases hstep
    refine ⟨hlog, fun s hs => ?_⟩
    have hfresh : F.Reached f.log
        (F.reload ((f.log.filter fun e => F.pos e ≤ last).foldl F.apply F.init)) := by
      rw [F.reloads]
      exact reached_upTo hlog last
    simp only [Option.mem_def] at hs
    split at hs
    · cases hs
      exact hfresh
    · rename_i hold
      split_ifs at hs <;> cases hs
      · exact hfresh
      · exact hstate s hold

theorem run_exact {actions : List (Action ε)} {f : Follower σ ε}
    (hrun : Runs.run F.step ⟨[], none⟩ actions = some f) (hs : s ∈ f.state) : F.Exact f.log s := by
  have hreached := Runs.invariant (fun _ _ _ h _ hstep => step_reached h hstep) hrun
    (Runs.allSteps_true _ _) ⟨⟨List.Pairwise.nil, by simp⟩, by simp⟩
  exact (hreached.2 s hs).exact

end Fold

end Catchup
