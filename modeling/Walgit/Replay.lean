import Walgit.Overwrite

/-!
# Replay

A log of numbered entries, each a list of overwrites, and a state that has applied it up
to a position. The state may be ahead on some keys: the entries it has not applied write
these again, so replaying them still leads to the fold of the log.
-/
namespace Replay

variable {ε κ ν : Type*}

section Cuts

variable (pos : ε → ℕ)

def upTo (n : ℕ) (log : List ε) : List ε := log.filter fun e => pos e ≤ n

def after (n : ℕ) (log : List ε) : List ε := log.filter fun e => n < pos e

def between (a b : ℕ) (log : List ε) : List ε := log.filter fun e => a < pos e && pos e ≤ b

/-- Positions grow along the log. -/
def Sorted (log : List ε) : Prop := log.Pairwise fun a b => pos a < pos b

variable {pos} {log : List ε} {a b n : ℕ}

/-- A log is cut in two by a condition that holds of a prefix. -/
theorem filter_append_rest {p : ε → Bool}
    (h : log.Pairwise fun a b => p b = true → p a = true) :
    log.filter p ++ log.filter (fun e => !p e) = log := by
  induction log with
  | nil => rfl
  | cons e log ih =>
    obtain ⟨hhead, htail⟩ := List.pairwise_cons.mp h
    by_cases he : p e = true
    · rw [List.filter_cons_of_pos he, List.filter_cons_of_neg (by simp [he]), List.cons_append,
        ih htail]
    · have hnone : ∀ x ∈ e :: log, ¬p x = true := by
        intro x hx hpx
        rcases List.mem_cons.mp hx with rfl | hx
        · exact he hpx
        · exact he (hhead x hx hpx)
      rw [List.filter_eq_nil_iff.mpr hnone, List.nil_append]
      exact List.filter_eq_self.mpr fun x hx => by simpa using hnone x hx

theorem upTo_append_after (h : Sorted pos log) (n : ℕ) : upTo pos n log ++ after pos n log = log := by
  have hcut : after pos n log = log.filter fun e => !decide (pos e ≤ n) := by
    refine List.filter_congr fun e _ => ?_
    rw [← decide_not, decide_eq_decide]
    omega
  rw [hcut]
  refine filter_append_rest (h.imp fun hlt hle => ?_)
  simp only [decide_eq_true_eq] at hle ⊢
  omega

theorem upTo_upTo (h : a ≤ b) : upTo pos a (upTo pos b log) = upTo pos a log := by
  simp only [upTo, List.filter_filter]
  refine List.filter_congr fun e _ => ?_
  rw [← Bool.decide_and, decide_eq_decide]
  omega

theorem mem_between {e : ε} : e ∈ between pos a b log ↔ e ∈ log ∧ a < pos e ∧ pos e ≤ b := by
  simp [between, List.mem_filter]

theorem upTo_append_between (h : Sorted pos log) (hab : a ≤ b) :
    upTo pos a log ++ between pos a b log = upTo pos b log := by
  have hbetween : between pos a b log = after pos a (upTo pos b log) := by
    rw [after, upTo, List.filter_filter]
    rfl
  rw [hbetween, ← upTo_upTo hab]
  exact upTo_append_after (h.sublist List.filter_sublist) a

theorem between_append_after (h : Sorted pos log) (hab : a ≤ b) :
    between pos a b log ++ after pos b log = after pos a log := by
  have hbetween : between pos a b log = upTo pos b (after pos a log) := by
    rw [upTo, after, List.filter_filter]
    exact List.filter_congr fun e _ => by rw [Bool.and_comm]
  have hafter : after pos b log = after pos b (after pos a log) := by
    simp only [after, List.filter_filter]
    refine List.filter_congr fun e _ => ?_
    rw [← Bool.decide_and, decide_eq_decide]
    omega
  rw [hbetween, hafter]
  exact upTo_append_after (h.sublist List.filter_sublist) b

theorem upTo_eq_self (h : ∀ e ∈ log, pos e ≤ n) : upTo pos n log = log :=
  List.filter_eq_self.mpr fun e he => by simpa using h e he

theorem after_eq_nil (h : ∀ e ∈ log, pos e ≤ n) : after pos n log = [] :=
  List.filter_eq_nil_iff.mpr fun e he => by simpa using h e he

theorem upTo_eq_nil (h : ∀ e ∈ log, n < pos e) : upTo pos n log = [] :=
  List.filter_eq_nil_iff.mpr fun e he => by simpa using h e he

/-- Up to one of its entries, a log is what comes before it and the entry. -/
theorem upTo_of_split {before rest : List ε} {e : ε} (h : Sorted pos (before ++ e :: rest)) :
    upTo pos (pos e) (before ++ e :: rest) = before ++ [e] := by
  obtain ⟨-, hrest, hbefore⟩ := List.pairwise_append.mp h
  have hold : upTo pos (pos e) before = before :=
    upTo_eq_self fun x hx => Nat.le_of_lt (hbefore x hx e List.mem_cons_self)
  have hnew : upTo pos (pos e) rest = [] := upTo_eq_nil (List.pairwise_cons.mp hrest).1
  have hself : upTo pos (pos e) (e :: rest) = [e] := by
    unfold upTo at hnew ⊢
    rw [List.filter_cons_of_pos (by simp), hnew]
  unfold upTo at hold hself ⊢
  rw [List.filter_append, hold, hself]

/-- Up to the last entry of a run of them that begins above a position. -/
theorem upTo_getLast (h : Sorted pos log) (hab : a ≤ b) {run rest : List ε}
    (hsplit : between pos a b log = run ++ rest) :
    upTo pos ((run.getLast?.map pos).getD a) log = upTo pos a log ++ run := by
  rcases List.eq_nil_or_concat run with rfl | ⟨before, e, rfl⟩
  · simp
  · have hlog : log = (upTo pos a log ++ before) ++ e :: (rest ++ after pos b log) := by
      conv_lhs => rw [← upTo_append_after h b, ← upTo_append_between h hab, hsplit]
      simp
    have hcut := hlog ▸ h
    rw [List.concat_eq_append, List.getLast?_append, List.getLast?_singleton]
    simp only [Option.some_or, Option.map_some, Option.getD_some]
    conv_lhs => rw [hlog]
    rw [upTo_of_split hcut, List.append_assoc]

/-- New entries come after every position already reached. -/
theorem upTo_append {new : List ε} (h : ∀ e ∈ new, n < pos e) :
    upTo pos n (log ++ new) = upTo pos n log := by
  have hnil : upTo pos n new = [] := upTo_eq_nil h
  rw [upTo, List.filter_append]
  exact (congrArg _ hnil).trans (List.append_nil _)

end Cuts

section Behind

variable [DecidableEq κ] (pos : ε → ℕ) (writes : ε → List (κ × ν)) (init : κ → ν)

/-- The fold of a log. -/
def fold (log : List ε) : κ → ν := Overwrite.run init (log.flatMap writes)

/-- The state has applied the log up to `n`: it differs from that fold only where later
entries write. -/
def Behind (log : List ε) (n : ℕ) (f : κ → ν) : Prop :=
  Overwrite.AgreesOff ((after pos n log).flatMap writes) f (fold writes init (upTo pos n log))

variable {pos writes init} {log : List ε} {a b n : ℕ} {f g : κ → ν}

theorem fold_append (es fs : List ε) :
    fold writes init (es ++ fs) = Overwrite.run (fold writes init es) (fs.flatMap writes) := by
  rw [fold, List.flatMap_append, Overwrite.run_append]
  rfl

theorem behind_fold (log : List ε) (n : ℕ) :
    Behind pos writes init log n (fold writes init (upTo pos n log)) := fun _ _ => rfl

/-- Nothing left to apply: the state is the fold. -/
theorem Behind.exact (h : Behind pos writes init log n f) (hall : ∀ e ∈ log, pos e ≤ n) :
    f = fold writes init log := by
  unfold Behind at h
  rw [after_eq_nil hall, upTo_eq_self hall] at h
  exact funext fun k => h k (by simp)

/-- Applying the entries in `(a, b]` moves the state along. -/
theorem Behind.replay (h : Behind pos writes init log a f) (hsorted : Sorted pos log) (hab : a ≤ b) :
    Behind pos writes init log b
      (Overwrite.run f ((between pos a b log).flatMap writes)) := by
  unfold Behind at h ⊢
  rw [← between_append_after hsorted hab, List.flatMap_append] at h
  rw [← upTo_append_between hsorted hab, fold_append]
  exact h.run

theorem Behind.mono (h : Behind pos writes init log b f) (hsorted : Sorted pos log) (hab : a ≤ b) :
    Behind pos writes init log a f := by
  unfold Behind at h ⊢
  rw [← between_append_after hsorted hab, List.flatMap_append]
  rw [← upTo_append_between hsorted hab, fold_append] at h
  have hrun := Overwrite.agreesOff_run ((between pos a b log).flatMap writes)
    (fold writes init (upTo pos a log))
  exact (h.mono fun w hw => List.mem_append_right _ hw).trans
    (hrun.mono fun w hw => List.mem_append_left _ hw)

theorem Behind.append (h : Behind pos writes init log n f) {new : List ε}
    (hnew : ∀ e ∈ new, n < pos e) : Behind pos writes init (log ++ new) n f := by
  unfold Behind at h ⊢
  rw [upTo_append hnew]
  refine h.mono fun w hw => ?_
  rw [after, List.filter_append, List.flatMap_append]
  exact List.mem_append_left _ hw

/-- Any writes of entries the state has not applied may be in it already. -/
theorem Behind.written (h : Behind pos writes init log n f)
    (hg : Overwrite.AgreesOff ((after pos n log).flatMap writes) g f) :
    Behind pos writes init log n g := hg.trans h

end Behind

section Along

variable {σ : Type*} {step : σ → ε → σ} {P Q : σ → ε → Prop}

/-- Every entry has a property in the state that the entries before it lead to. -/
def Along (step : σ → ε → σ) (P : σ → ε → Prop) : σ → List ε → Prop
  | _, [] => True
  | s, e :: log => P s e ∧ Along step P (step s e) log

instance Along.decidable [∀ s e, Decidable (P s e)] :
    ∀ (s : σ) (log : List ε), Decidable (Along step P s log)
  | _, [] => isTrue trivial
  | s, e :: log =>
    have : Decidable (Along step P (step s e) log) := Along.decidable (step s e) log
    inferInstanceAs (Decidable (P s e ∧ Along step P (step s e) log))

theorem along_append (s : σ) (log new : List ε) :
    Along step P s (log ++ new) ↔ Along step P s log ∧ Along step P (log.foldl step s) new := by
  induction log generalizing s with
  | nil => simp [Along]
  | cons e log ih => simp only [List.cons_append, Along, ih, List.foldl_cons, and_assoc]

theorem Along.of_append {s : σ} {before after : List ε} {e : ε}
    (h : Along step P s (before ++ e :: after)) : P (before.foldl step s) e :=
  ((along_append s before (e :: after)).mp h).2.1

end Along

end Replay
