import Mathlib.Data.List.Induction
import Mathlib.Data.Nat.Notation

/-!
# Bounded replay buffers

A buffer of the latest packets. A packet takes the place of those it replaces, and the oldest
are dropped beyond a limit. What is missing from the buffer was replaced, or dropped behind a
full buffer of later packets.
-/
namespace ReplayBuffer

variable {α : Type*} (replaces : α → α → Bool) (limit : ℕ)

/-- The latest packets without a limit. -/
def keep (buffer : List α) (x : α) : List α := buffer.filter (!replaces x ·) ++ [x]

def push (buffer : List α) (x : α) : List α :=
  let kept := keep replaces buffer x
  kept.drop (kept.length - limit)

def kept (log : List α) : List α := log.foldl (keep replaces) []

def replay (log : List α) : List α := log.foldl (push replaces limit) []

/-- A later packet takes its place. -/
def Superseded (log : List α) (x : α) : Prop :=
  ∃ before after, log = before ++ x :: after ∧ ∃ y ∈ after, replaces y x = true

/-- At some time later packets alone filled the buffer. -/
def Evicted (log : List α) (x : α) : Prop :=
  ∃ before between after, log = before ++ x :: (between ++ after) ∧
    limit ≤ (kept replaces between).length

variable {replaces limit} {log : List α} {x : α}

theorem replay_concat (log : List α) (x : α) :
    replay replaces limit (log ++ [x]) = push replaces limit (replay replaces limit log) x := by
  rw [replay, List.foldl_append, replay]
  rfl

theorem kept_concat (log : List α) (x : α) :
    kept replaces (log ++ [x]) = keep replaces (kept replaces log) x := by
  rw [kept, List.foldl_append, kept]
  rfl

theorem keep_sublist {buffer : List α} (h : buffer.Sublist log) :
    (keep replaces buffer x).Sublist (log ++ [x]) :=
  (List.filter_sublist.trans h).append (List.Sublist.refl [x])

/-- The buffer holds packets of the log, in their order. -/
theorem replay_sublist (log : List α) : (replay replaces limit log).Sublist log := by
  induction log using List.reverseRecOn with
  | nil => exact List.Sublist.refl []
  | append_singleton log x ih =>
    rw [replay_concat]
    exact (List.drop_sublist _ _).trans (keep_sublist ih)

theorem drop_room {older rest : List α} (h : rest.length ≤ limit) :
    ∃ left, (older ++ rest).drop ((older ++ rest).length - limit) = left ++ rest := by
  refine ⟨older.drop ((older ++ rest).length - limit), List.drop_append_of_le_length ?_⟩
  rw [List.length_append]
  omega

/-- Until it is replaced or dropped, a packet stands before all later ones. -/
theorem replay_split {before after : List α} (hlimit : 0 < limit)
    (halive : ∀ y ∈ after, replaces y x = false)
    (hroom : ∀ between, between <+: after → (kept replaces between).length < limit) :
    ∃ older, replay replaces limit (before ++ x :: after) = older ++ x :: kept replaces after := by
  induction after using List.reverseRecOn with
  | nil =>
    rw [replay_concat, push, keep]
    exact drop_room hlimit
  | append_singleton after y ih =>
    have hkeep : replaces y x = false := halive y (by simp)
    have hlength := hroom (after ++ [y]) (List.prefix_refl _)
    obtain ⟨older, holder⟩ := ih (fun z hz => halive z (List.mem_append_left _ hz))
      fun between h => hroom between (h.trans (List.prefix_append _ _))
    have hbuffer : keep replaces (older ++ x :: kept replaces after) y =
        older.filter (!replaces y ·) ++ x :: kept replaces (after ++ [y]) := by
      rw [kept_concat, keep, keep, List.filter_append, List.filter_cons_of_pos (by simp [hkeep]),
        List.append_assoc]
      rfl
    rw [← List.cons_append, ← List.append_assoc, replay_concat, holder, push, hbuffer]
    exact drop_room hlength

/-- A packet that is missing from the buffer was superseded or evicted. -/
theorem mem_replay_or (hlimit : 0 < limit) (h : x ∈ log) : x ∈ replay replaces limit log ∨
    Superseded replaces log x ∨ Evicted replaces limit log x := by
  obtain ⟨before, after, rfl⟩ := List.append_of_mem h
  by_cases halive : ∀ y ∈ after, replaces y x = false
  · by_cases hroom : ∀ between, between <+: after → (kept replaces between).length < limit
    · obtain ⟨older, holder⟩ : ∃ older, replay replaces limit (before ++ x :: after) =
        older ++ x :: kept replaces after := replay_split hlimit halive hroom
      refine Or.inl ?_
      rw [holder]
      simp
    · simp only [Classical.not_forall] at hroom
      obtain ⟨between, ⟨rest, rfl⟩, hfull⟩ := hroom
      exact Or.inr (Or.inr ⟨before, between, rest, rfl, Nat.not_lt.mp hfull⟩)
  · simp only [Classical.not_forall] at halive
    obtain ⟨y, hy, hreplaces⟩ := halive
    exact Or.inr (Or.inl ⟨before, after, rfl, y, hy, by simpa using hreplaces⟩)

end ReplayBuffer
