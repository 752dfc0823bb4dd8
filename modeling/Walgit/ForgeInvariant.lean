import Walgit.Followers
import Walgit.Revocation

/-!
# The forge invariant

Numbers are given out once and in order, and the coupled fields of every item agree.
Events of one batch are verified against the state before the batch, so the fields hold
only because no state admits both a merge and a reopening of the same item.
-/
namespace Walgit

open Checks (guard_ok last_ok forM_ok)

def Timeline.isLive : Timeline → Bool
  | .comment _ _ deleted => !deleted
  | _ => false

namespace Item

/-- Comments that were not deleted. -/
def liveComments (i : Item) : ℕ := i.timeline.countP fun t => t.event.isLive

structure Coherent (i : Item) : Prop where
  merged : i.merged → i.state = .closed
  closedAt : i.closedAt.isSome ↔ i.state = .closed
  reason : i.state = .opened → i.stateReason = ""
  comments : i.comments = i.liveComments

/-- The fields of an item that its coherence is about. -/
def status (i : Item) : Bool × ItemState × Bool × String :=
  (i.merged, i.state, i.closedAt.isSome, i.stateReason)

theorem Coherent.congr {i j : Item} (h : i.Coherent) (hstatus : j.status = i.status)
    (hcomments : j.comments = j.liveComments) : j.Coherent := by
  simp only [status, Prod.mk.injEq] at hstatus
  obtain ⟨hmerged, hstate, hclosed, hreason⟩ := hstatus
  refine ⟨?_, ?_, ?_, hcomments⟩
  · rw [hmerged, hstate]
    exact h.merged
  · rw [hclosed, hstate]
    exact h.closedAt
  · rw [hstate, hreason]
    exact h.reason

theorem liveComments_push (i : Item) (id : ℕ) (time : String) (ev : ForgeEvent) (t : Timeline) :
    (i.push id time ev t).liveComments = i.liveComments + if t.isLive then 1 else 0 := by
  simp [liveComments, push, List.countP_append, List.countP_cons]

theorem countP_modifyFirst {α : Type} {p q : α → Bool} {f : α → α} {l : List α} {x : α}
    (h : l.find? p = some x) :
    (modifyFirst p f l).countP q + (if q x then 1 else 0) =
      l.countP q + if q (f x) then 1 else 0 := by
  induction l with
  | nil => simp at h
  | cons a l ih =>
    by_cases hp : p a
    · rw [List.find?_cons_of_pos hp, Option.some.injEq] at h
      subst h
      simp only [modifyFirst, hp, if_true, List.countP_cons]
      omega
    · rw [List.find?_cons_of_neg hp] at h
      have hrest := ih h
      simp only [modifyFirst, hp, Bool.false_eq_true, if_false, List.countP_cons]
      omega

/-- A comment edit keeps the count in step with the timeline. -/
theorem editComment_comments {i : Item} (h : i.comments = i.liveComments) (e : ForgeEdit) :
    (i.editComment e).comments = (i.editComment e).liveComments := by
  unfold editComment
  split
  · rename_i b hfind hchange
    obtain ⟨t, ht, hevent⟩ := Option.map_eq_some_iff.mp hfind
    have hcount := countP_modifyFirst (q := fun t => t.event.isLive) (f := editBody b) ht
    have hkeep : (editBody b t).event.isLive = t.event.isLive := by
      simp [editBody, hevent, Timeline.isLive]
    simp only [hkeep, Nat.add_right_cancel_iff] at hcount
    simp only [liveComments, hcount]
    exact h
  · rename_i hfind hchange
    obtain ⟨t, ht, hevent⟩ := Option.map_eq_some_iff.mp hfind
    have hcount := countP_modifyFirst (q := fun t => t.event.isLive) (f := deleteBody) ht
    have hlive : t.event.isLive = true := by simp [hevent, Timeline.isLive]
    have hdead : (deleteBody t).event.isLive = false := by
      simp [deleteBody, hevent, Timeline.isLive]
    simp only [hlive, hdead, if_true, Bool.false_eq_true, if_false] at hcount
    simp only [liveComments] at h ⊢
    omega
  · exact h

theorem editComment_status (i : Item) (e : ForgeEdit) :
    (i.editComment e).status = i.status ∧ (i.editComment e).number = i.number := by
  unfold editComment
  split <;> exact ⟨rfl, rfl⟩

/-- A pushed entry that is no comment changes nothing coherence is about. -/
theorem Coherent.push {i : Item} (h : i.Coherent) (id : ℕ) (time : String) (ev : ForgeEvent)
    {t : Timeline} (ht : t.isLive = false) : (i.push id time ev t).Coherent := by
  refine h.congr rfl ?_
  rw [liveComments_push, ht]
  exact h.comments

theorem Coherent.reference {i : Item} (h : i.Coherent) (id : ℕ) (time : String)
    (ev : ForgeEvent) : (i.reference id time ev).Coherent := by
  unfold Item.reference
  split
  · exact h
  · exact h.push id time ev rfl

theorem reference_status (i : Item) (id : ℕ) (time : String) (ev : ForgeEvent) :
    (i.reference id time ev).status = i.status ∧ (i.reference id time ev).number = i.number := by
  unfold Item.reference
  split <;> exact ⟨rfl, rfl⟩

section Apply

variable [Text.CharTables]

/-- A verified event keeps its item coherent: the item it was verified against is the one
the batch found, and a closed one is not merged before the batch ends. -/
theorem applyBody_coherent {i₀ i : Item} {actor : Actor} {role : Role} {body : ForgeBody}
    (h : i.Coherent) (hsince : i₀.state = .closed → i.merged = i₀.merged)
    (hok : verifyOnItem i₀ actor role body = .ok ()) (id : ℕ) (time : String) (ev : ForgeEvent) :
    let j := { i with updatedAt := time }.applyBody id time ev body
    j.Coherent ∧ (i₀.state = .closed → j.merged = i₀.merged) ∧ j.number = i.number := by
  have hi : ({ i with updatedAt := time } : Item).Coherent := h.congr rfl h.comments
  cases body with
  | opened o => exact ⟨hi, hsince, rfl⟩
  | label l => exact ⟨hi, hsince, rfl⟩
  | comment c =>
    refine ⟨h.congr rfl ?_, hsince, rfl⟩
    simp only [applyBody]
    rw [liveComments_push]
    simp [Item.push, h.comments, liveComments, Timeline.isLive]
  | edit e =>
    simp only [applyBody]
    split_ifs
    · split
      · refine ⟨Coherent.push ?_ id time ev rfl, hsince, rfl⟩
        exact h.congr rfl h.comments
      · exact ⟨h.congr rfl h.comments, hsince, rfl⟩
      · exact ⟨hi, hsince, rfl⟩
    · obtain ⟨hstatus, hnumber⟩ := editComment_status { i with updatedAt := time } e
      refine ⟨hi.congr hstatus (editComment_comments hi.comments e), fun hc => ?_, hnumber⟩
      exact (congrArg Prod.fst hstatus).trans (hsince hc)
  | state s =>
    simp only [verifyOnItem, guard_ok] at hok
    obtain ⟨hmerged, -, hstate, -⟩ := hok
    simp only [applyBody]
    cases hclosed : s.closed with
    | true =>
      refine ⟨Coherent.push ?_ id time ev rfl, hsince, rfl⟩
      exact ⟨fun _ => rfl, by simp, by simp, h.comments⟩
    | false =>
      -- A reopened item was closed and unmerged when the batch was verified.
      have hc : i₀.state = .closed := by simpa [hclosed] using hstate
      have hm : i.merged = false := by
        rw [hsince hc]
        simpa [hclosed] using hmerged
      refine ⟨Coherent.push ?_ id time ev rfl, hsince, rfl⟩
      exact ⟨by simp [hm], by simp, fun _ => rfl, h.comments⟩
  | labels c =>
    refine ⟨Coherent.push ?_ id time ev rfl, hsince, rfl⟩
    exact h.congr rfl h.comments
  | assignees c =>
    refine ⟨Coherent.push ?_ id time ev rfl, hsince, rfl⟩
    exact h.congr rfl h.comments
  | review r =>
    refine ⟨Coherent.push ?_ id time ev rfl, hsince, rfl⟩
    exact h.congr rfl h.comments
  | draft d =>
    refine ⟨Coherent.push ?_ id time ev rfl, hsince, rfl⟩
    exact h.congr rfl h.comments
  | merged m =>
    simp only [verifyOnItem, guard_ok] at hok
    have hopen : i₀.state = .opened := by
      have hpull := hok.1
      simp only [ne_eq, Bool.or_eq_true, decide_eq_true_eq, not_or, not_not] at hpull
      exact hpull.2
    refine ⟨Coherent.push ?_ id time ev rfl, fun hc => ?_, rfl⟩
    · exact ⟨fun _ => rfl, by simp, by simp, h.comments⟩
    · rw [hopen] at hc
      cases hc

end Apply

end Item

def ForgeEvent.opens (ev : ForgeEvent) : Bool :=
  match ev.body with
  | some (.opened _) => true
  | _ => false

namespace ForgeState

/-- The numbers of the items a list of events opens. -/
def opens (evs : List ForgeEvent) : List ℕ := (evs.filter ForgeEvent.opens).map ForgeEvent.number

theorem opens_cons_of_pos {ev : ForgeEvent} (evs : List ForgeEvent) (h : ev.opens) :
    opens (ev :: evs) = ev.number :: opens evs := by
  simp [opens, h]

theorem opens_cons_of_neg {ev : ForgeEvent} (evs : List ForgeEvent) (h : ev.opens = false) :
    opens (ev :: evs) = opens evs := by
  simp [opens, h]

theorem opens_append (evs evs' : List ForgeEvent) : opens (evs ++ evs') = opens evs ++ opens evs' := by
  simp [opens]

/-- Numbering hands out the next numbers in order. -/
theorem opens_number (evs : List ForgeEvent) (next : ℕ) :
    opens (number evs next).1 = List.range' next (opens (number evs next).1).length ∧
      (number evs next).2 = next + (opens (number evs next).1).length := by
  induction evs generalizing next with
  | nil => exact ⟨rfl, rfl⟩
  | cons ev evs ih =>
    rw [number]
    split
    · rename_i o hbody
      have hopen : ForgeEvent.opens { ev with number := next } = true := by
        simp [ForgeEvent.opens, hbody]
      obtain ⟨hnumbers, hnext⟩ := ih (next + 1)
      rw [opens_cons_of_pos _ hopen, List.length_cons, List.range'_succ, ← hnumbers]
      refine ⟨rfl, ?_⟩
      simp only
      omega
    · rename_i hbody
      have hopen : ev.opens = false := by
        cases hev : ev.body with
        | none => simp [ForgeEvent.opens, hev]
        | some body => cases body <;> simp_all [ForgeEvent.opens]
      rw [opens_cons_of_neg _ hopen]
      exact ih next

/-- The numbers of the items a list of entries opens. -/
def openedNumbers (es : List LogEntry) : List ℕ := opens (es.flatMap LogEntry.forge)

theorem openedNumbers_cons (e : LogEntry) (es : List LogEntry) :
    openedNumbers (e :: es) = opens e.forge ++ openedNumbers es := by
  rw [openedNumbers, List.flatMap_cons, opens_append]
  rfl

theorem openedNumbers_append (es fs : List LogEntry) :
    openedNumbers (es ++ fs) = openedNumbers es ++ openedNumbers fs := by
  simp [openedNumbers, opens_append]

theorem range'_of_append {l l' : List ℕ} {n : ℕ}
    (h : l ++ l' = List.range' n (l ++ l').length) :
    l = List.range' n l.length ∧ l' = List.range' (n + l.length) l'.length := by
  rw [List.length_append, ← List.range'_append_1] at h
  exact List.append_inj h (by simp)

/-- The items are numbered from 1 to `next - 1`, and each is coherent. -/
structure Numbered (s : ForgeState) (next : ℕ) : Prop where
  range : ∀ n, (s.items.find? n).isSome ↔ 1 ≤ n ∧ n < next
  items : ∀ n i, s.items.find? n = some i → i.Coherent ∧ i.number = n

/-- A state reached from `b` by events verified against `b`: the items of `b` are there, and
those it had closed are merged exactly if they were. -/
structure Since (b s : ForgeState) (next : ℕ) : Prop where
  numbered : s.Numbered next
  kept : ∀ n i₀, b.items.find? n = some i₀ → ∃ i, s.items.find? n = some i ∧
    (i₀.state = .closed → i.merged = i₀.merged)

theorem Since.refl {s : ForgeState} {next : ℕ} (h : s.Numbered next) : Since s s next :=
  ⟨h, fun _ i hi => ⟨i, hi, fun _ => rfl⟩⟩

theorem numbered_empty : empty.Numbered 1 where
  range n := by
    simp only [empty, SortedMap.find?_empty, Option.isSome_none, Bool.false_eq_true, false_iff]
    omega
  items n i hi := by simp [empty] at hi

variable {b s : ForgeState} {next : ℕ}

/-- Only the items matter. -/
theorem Since.congr (h : Since b s next) {t : ForgeState} (ht : t.items = s.items) :
    Since b t next := by
  refine ⟨⟨fun n => ?_, fun n i => ?_⟩, fun n i₀ => ?_⟩
  · rw [ht]
    exact h.numbered.range n
  · rw [ht]
    exact h.numbered.items n i
  · rw [ht]
    exact h.kept n i₀

theorem Since.modify (h : Since b s next) {n : ℕ} {g : Item → Item}
    (hg : ∀ i, s.items.find? n = some i → (g i).Coherent ∧ (g i).number = i.number ∧
      ∀ i₀, b.items.find? n = some i₀ → i₀.state = .closed → (g i).merged = i₀.merged) :
    Since b { s with items := s.items.modify n g } next := by
  refine ⟨⟨fun m => ?_, fun m i hi => ?_⟩, fun m i₀ hi₀ => ?_⟩
  · rw [← h.numbered.range m, SortedMap.find?_modify]
    split_ifs <;> simp
  · simp only [SortedMap.find?_modify] at hi
    by_cases hm : m = n
    · subst hm
      rw [if_pos rfl, Option.map_eq_some_iff] at hi
      obtain ⟨j, hj, rfl⟩ := hi
      obtain ⟨hcoherent, hnumber, -⟩ := hg j hj
      exact ⟨hcoherent, hnumber.trans (h.numbered.items m j hj).2⟩
    · rw [if_neg hm] at hi
      exact h.numbered.items m i hi
  · obtain ⟨i, hi, hmerged⟩ := h.kept m i₀ hi₀
    simp only [SortedMap.find?_modify, hi]
    by_cases hm : m = n
    · subst hm
      exact ⟨g i, by simp, (hg i hi).2.2 i₀ hi₀⟩
    · exact ⟨i, by simp [hm], hmerged⟩

/-- Opening the next item. -/
theorem Since.insert (h : Since b s next) (hpos : 1 ≤ next) {i : Item} (hi : i.Coherent)
    (hnumber : i.number = next) :
    Since b { s with items := s.items.insert next i } (next + 1) := by
  have hfresh : s.items.find? next = none := by
    rw [← Option.not_isSome_iff_eq_none, h.numbered.range next]
    omega
  refine ⟨⟨fun m => ?_, fun m j hj => ?_⟩, fun m i₀ hi₀ => ?_⟩
  · rw [SortedMap.find?_insert]
    by_cases hm : m = next
    · simp only [hm, if_true, Option.isSome_some, true_iff]
      omega
    · rw [if_neg hm, h.numbered.range m]
      omega
  · rw [SortedMap.find?_insert] at hj
    by_cases hm : m = next
    · rw [if_pos hm, Option.some.injEq] at hj
      subst hj
      exact ⟨hi, hnumber.trans hm.symm⟩
    · rw [if_neg hm] at hj
      exact h.numbered.items m j hj
  · obtain ⟨j, hj, hmerged⟩ := h.kept m i₀ hi₀
    have hm : m ≠ next := by
      rintro rfl
      rw [hfresh] at hj
      cases hj
    exact ⟨j, by simp [hm, hj], hmerged⟩

theorem Since.mapValues (h : Since b s next) {g : Item → Item}
    (hg : ∀ i, (g i).status = i.status ∧ (g i).number = i.number ∧ (g i).comments = i.comments ∧
      (g i).timeline = i.timeline) :
    Since b { s with items := s.items.mapValues g } next := by
  refine ⟨⟨fun m => ?_, fun m i hi => ?_⟩, fun m i₀ hi₀ => ?_⟩
  · rw [← h.numbered.range m, SortedMap.find?_mapValues, Option.isSome_map]
  · rw [SortedMap.find?_mapValues, Option.map_eq_some_iff] at hi
    obtain ⟨j, hj, rfl⟩ := hi
    obtain ⟨hstatus, hnumber, hcomments, htimeline⟩ := hg j
    obtain ⟨hcoherent, hj⟩ := h.numbered.items m j hj
    refine ⟨hcoherent.congr hstatus ?_, hnumber.trans hj⟩
    rw [hcomments, hcoherent.comments, Item.liveComments, Item.liveComments, htimeline]
  · obtain ⟨i, hi, hmerged⟩ := h.kept m i₀ hi₀
    refine ⟨g i, by rw [SortedMap.find?_mapValues, hi]; rfl, fun hc => ?_⟩
    exact (congrArg Prod.fst (hg i).1).trans (hmerged hc)

theorem opened_coherent (ev : ForgeEvent) (time : String) (o : ForgeOpened) :
    (Item.opened ev time o).Coherent := by
  constructor <;> simp [Item.opened, Item.liveComments]

variable [Text.CharTables]

/-- One event verified against `b`. -/
theorem Since.apply (h : Since b s next) (hpos : 1 ≤ next) {actor : Actor} {role : Role}
    {ev : ForgeEvent} (hok : b.verifyEvent actor role ev = .ok ())
    (hnumber : ev.opens → ev.number = next) (id : ℕ) (time : String) :
    Since b (s.apply id time ev) (if ev.opens then next + 1 else next) := by
  unfold verifyEvent at hok
  unfold ForgeState.apply
  cases hbody : ev.body with
  | none =>
    rw [hbody] at hok
    cases hok
  | some body =>
    simp only [hbody] at hok
    cases body with
    | label l =>
      simp only [ForgeEvent.opens, hbody, Bool.false_eq_true, if_false]
      split_ifs
      · have hitems := h.mapValues (g := fun i => { i with labels := i.labels.erase l.name })
          fun i => ⟨rfl, rfl, rfl, rfl⟩
        exact hitems.congr rfl
      · exact h.congr rfl
    | opened o =>
      have hnext : ev.number = next := hnumber (by simp [ForgeEvent.opens, hbody])
      simp only [ForgeEvent.opens, hbody, if_true, hnext]
      exact h.insert hpos (opened_coherent ev time o) hnext
    | _ =>
      simp only [ForgeEvent.opens, hbody, Bool.false_eq_true, if_false] at hok ⊢
      split at hok
      · cases hok
      · rename_i i₀ hi₀
        refine h.modify fun i hi => ?_
        obtain ⟨j, hj, hmerged⟩ := h.kept _ i₀ hi₀
        obtain rfl : j = i := Option.some.inj (hj.symm.trans hi)
        obtain ⟨hcoherent, hsince, hnum⟩ := Item.applyBody_coherent
          (h.numbered.items _ _ hi).1 hmerged hok id time ev
        refine ⟨hcoherent, hnum, fun i₁ hi₁ hc => ?_⟩
        obtain rfl : i₀ = i₁ := Option.some.inj (hi₀.symm.trans hi₁)
        exact hsince hc

theorem Since.crossReference (h : Since b s next) (id : ℕ) (time : String) (ev : ForgeEvent) :
    Since b (s.crossReference id time ev) next := by
  unfold ForgeState.crossReference
  split
  · exact h
  · rename_i text _
    generalize (mentions text).filter (· ≠ ev.number) = targets
    induction targets generalizing s with
    | nil => exact h
    | cons n targets ih =>
      have hstep : Since b { s with items := s.items.modify n (·.reference id time ev) } next := by
        refine h.modify fun i hi => ?_
        obtain ⟨hstatus, hnumber⟩ := i.reference_status id time ev
        refine ⟨(h.numbered.items n i hi).1.reference id time ev, hnumber, fun i₀ hi₀ hc => ?_⟩
        obtain ⟨j, hj, hmerged⟩ := h.kept n i₀ hi₀
        obtain rfl : j = i := Option.some.inj (hj.symm.trans hi)
        exact (congrArg Prod.fst hstatus).trans (hmerged hc)
      exact ih hstep

/-- The events of one entry, numbered from `next` and verified against `b`. -/
theorem Since.applyEvents (h : Since b s next) (hpos : 1 ≤ next) {actor : Actor} {role : Role}
    {evs : List ForgeEvent} (hok : ∀ ev ∈ evs, b.verifyEvent actor role ev = .ok ())
    (hnumbers : opens evs = List.range' next (opens evs).length) (seq : ℕ) (time : String) (i : ℕ) :
    Since b (s.applyEvents seq time i evs) (next + (opens evs).length) := by
  induction evs generalizing s next i with
  | nil => exact h
  | cons ev evs ih =>
    have hrest := fun f hf => hok f (List.mem_cons_of_mem ev hf)
    have hstep := fun hfirst => (h.apply hpos (hok ev List.mem_cons_self) hfirst
      (seq <<< 10 ||| i) time).crossReference (seq <<< 10 ||| i) time ev
    cases hev : ev.opens with
    | true =>
      rw [opens_cons_of_pos evs hev] at hnumbers ⊢
      rw [List.length_cons, List.range'_succ, List.cons.injEq] at hnumbers
      rw [hev, if_pos rfl] at hstep
      have hevs := ih (hstep fun _ => hnumbers.1) (by omega) hrest hnumbers.2 (i + 1)
      rw [List.length_cons, Nat.add_comm (opens evs).length 1, ← Nat.add_assoc]
      exact hevs
    | false =>
      rw [opens_cons_of_neg evs hev] at hnumbers ⊢
      rw [hev] at hstep
      exact ih (hstep (by simp)) hpos hrest hnumbers (i + 1)

/-- One entry of a batch verified against `b`. -/
theorem Since.foldEntry (h : Since b s next) (hpos : 1 ≤ next) {e : LogEntry}
    (hseq : s.seq < e.seq)
    (hok : e.forge ≠ [] → ∃ actor role, b.verify actor role e.forge = .ok ())
    (hnumbers : opens e.forge = List.range' next (opens e.forge).length) :
    Since b (s.foldEntry e) (next + (opens e.forge).length) := by
  unfold ForgeState.foldEntry
  rw [if_neg (not_le.mpr hseq)]
  cases hforge : e.forge with
  | nil => exact h.congr rfl
  | cons ev evs =>
    obtain ⟨actor, role, hverify⟩ := hok (by simp [hforge])
    simp only [verify, guard_ok, forM_ok] at hverify
    have hevents := h.applyEvents hpos hverify.2.2.2 hnumbers e.seq (forgeTime e.createdAt) 0
    rw [hforge] at hevents
    exact hevents.congr rfl

/-- The entries of a batch verified against `b`. -/
theorem Since.foldl (h : Since b s next) (hpos : 1 ≤ next) {es : List LogEntry}
    (hsorted : (es.map LogEntry.seq).Pairwise (· < ·)) (habove : ∀ e ∈ es, s.seq < e.seq)
    (hok : ∀ e ∈ es, e.forge ≠ [] → ∃ actor role, b.verify actor role e.forge = .ok ())
    (hnumbers : openedNumbers es = List.range' next (openedNumbers es).length) :
    Since b (es.foldl ForgeState.foldEntry s) (next + (openedNumbers es).length) := by
  induction es generalizing s next with
  | nil => exact h
  | cons e es ih =>
    rw [List.map_cons, List.pairwise_cons] at hsorted
    rw [openedNumbers_cons] at hnumbers ⊢
    obtain ⟨hfirst, hrest⟩ := range'_of_append hnumbers
    have hstep := h.foldEntry hpos (habove e List.mem_cons_self) (hok e List.mem_cons_self) hfirst
    rw [List.length_append, ← Nat.add_assoc]
    refine ih hstep (by omega) hsorted.2 (fun e' he' => ?_)
      (fun e' he' => hok e' (List.mem_cons_of_mem e he')) hrest
    have hlt := hsorted.1 e'.seq (List.mem_map_of_mem he')
    have habove' := habove e' (List.mem_cons_of_mem e he')
    rw [foldEntry_seq]
    omega

/-- The state a log folds to. -/
def ofLog (es : List LogEntry) : ForgeState := es.foldl foldEntry empty

end ForgeState

theorem buildEntries_forge (writer : String) (publishedAt : Timestamp) (now : ℕ → Timestamp)
    (seq : ℕ) (members : List (PublishRequest × List ForgeEvent)) :
    (buildEntries writer publishedAt now seq members).map LogEntry.forge =
      members.map Prod.snd := by
  induction members generalizing seq with
  | nil => rfl
  | cons m members ih => simp [buildEntries, buildEntry, ih]

theorem withNonce_forge (uuid : String) (es : List LogEntry) :
    (withNonce uuid es).map LogEntry.forge = es.map LogEntry.forge := by
  cases es <;> rfl

section Log

variable [Text.CharTables]

theorem Job.control_forgeNextNumber {c : Control} {a : Attempt} {now : Timestamp}
    {seg : LogSegmentRef} {m : Manifest} (h : (Job.control c).manifest a now seg = .ok m) :
    m.forgeNextNumber = a.basis.manifest.forgeNextNumber := by
  simp only [Job.manifest, Checks.bind_eq_ok] at h
  obtain ⟨⟨template, next⟩, hprep, h⟩ := h
  cases h
  change next.forgeNextNumber = _
  rw [Control.prepare_eq hprep]

open ForgeState (opens opens_append opens_number openedNumbers ofLog)

/-- The accepted members of a batch take the numbers from where the loop started. -/
theorem accepted_numbers (b : Basis) (w : Working) (reqs : List PublishRequest) :
    let numbers := opens ((accepted reqs (judgeAll b w reqs).1).flatMap Prod.snd)
    numbers = List.range' w.forgeNext numbers.length ∧
      (judgeAll b w reqs).2.forgeNext = w.forgeNext + numbers.length := by
  induction reqs generalizing w with
  | nil => exact ⟨rfl, rfl⟩
  | cons req reqs ih =>
    obtain ⟨hnumbers, hnext⟩ := ih (judge b w req).2
    have hfirst := judge_forgeNext b w req
    simp only [judgeAll, accepted]
    cases hvalid : (judge b w req).1.valid with
    | true =>
      obtain ⟨hown, hafter⟩ := opens_number req.forge w.forgeNext
      rw [hvalid, if_pos rfl, hafter] at hfirst
      rw [hfirst] at hnumbers hnext
      simp only [if_true, List.flatMap_cons, opens_append, List.length_append]
      have hforge : (judge b w req).1.forge = (ForgeState.number req.forge w.forgeNext).1 := rfl
      rw [hforge, ← List.range'_append_1, ← hnumbers, ← hown, hnext, Nat.add_assoc]
      exact ⟨rfl, rfl⟩
    | false =>
      rw [hvalid] at hfirst
      simp only [Bool.false_eq_true, if_false] at hfirst ⊢
      rw [hfirst] at hnumbers hnext
      exact ⟨hnumbers, hnext⟩

/-- Every event of a log was verified against the state its batch was committed over. -/
def ForgeVerified : List Generation → Prop
  | [] => True
  | g :: gens => ForgeVerified gens ∧ ∀ o ∈ g.origin, ∀ e ∈ o.slot.bytes, e.forge ≠ [] →
      ∃ actor role, (ofLog (committedEntries gens)).verify actor role e.forge = .ok ()

/-- What a slot opens goes on from the manifest it was written over. -/
theorem Origin.Wrote.numbers {o : Origin} (h : o.Wrote) {now : Timestamp} {seg : LogSegmentRef}
    {m : Manifest} (edit : o.job.manifest o.attempt now seg = .ok m) :
    let next := max o.attempt.basis.manifest.forgeNextNumber 1
    let numbers := openedNumbers o.slot.bytes
    numbers = List.range' next numbers.length ∧
      max m.forgeNextNumber 1 = next + numbers.length := by
  obtain ⟨job, a, σ⟩ := o
  obtain ⟨clock, es, hes, -, hbytes⟩ := h
  simp only at hbytes hes edit ⊢
  rw [hbytes, openedNumbers, List.flatMap_def, withNonce_forge, ← List.flatMap_def]
  cases hb : job.isBatch with
  | true =>
    cases job with
    | batch reqs =>
      cases hes
      cases edit
      obtain ⟨hnumbers, hnext⟩ := accepted_numbers a.basis a.basis.working reqs
      rw [List.flatMap_def, buildEntries_forge, ← List.flatMap_def]
      refine ⟨hnumbers, ?_⟩
      change max (if max a.basis.manifest.forgeNextNumber 1 <
        (judgeAll a.basis a.basis.working reqs).2.forgeNext then
          (judgeAll a.basis a.basis.working reqs).2.forgeNext
          else a.basis.manifest.forgeNextNumber) 1 = _
      have hworking : a.basis.working.forgeNext = max a.basis.manifest.forgeNextNumber 1 := rfl
      rw [hworking] at hnext
      rw [hnext, verifyBatch]
      split_ifs <;> omega
    | _ => cases hb
  | false =>
    have hnone : es.flatMap LogEntry.forge = [] :=
      List.flatMap_eq_nil_iff.mpr fun e he => (Job.entries_of_not_batch hes hb e he).2
    have hkept : m.forgeNextNumber = a.basis.manifest.forgeNextNumber := by
      by_cases hc : ∃ c, job = .control c
      · obtain ⟨c, rfl⟩ := hc
        exact Job.control_forgeNextNumber edit
      · have hrecords := Job.manifest_records edit hb fun c hj => hc ⟨c, hj⟩
        exact congrArg (fun r => r.2.2) hrecords
    rw [hnone, hkept]
    exact ⟨rfl, rfl⟩

/-- What holds of the forge part of the newest generation, and of every prefix of its log. -/
structure ForgeSpec (g : Generation) (gens : List Generation) : Prop where
  numbers : openedNumbers (committedEntries gens) =
    List.range' 1 (openedNumbers (committedEntries gens)).length
  next : max g.manifest.forgeNextNumber 1 = 1 + (openedNumbers (committedEntries gens)).length
  items : ∀ p, p <+: committedEntries gens → (ofLog p).Numbered (1 + (openedNumbers p).length)

variable {cfg : Config} {g : Generation} {gens : List Generation}

/-- A committed slot lies above everything the state before it has folded. -/
theorem ofLog_seq_le (h : LogSpec cfg g gens) :
    (ofLog (committedEntries gens)).seq ≤ g.manifest.headSeq := by
  refine Catchup.Fold.seq_foldl_le (F := ForgeState.follow) (Nat.zero_le _) fun e he => ?_
  obtain ⟨s, hs, -, hle⟩ := h.entries e he
  exact hle.trans (h.proper s hs).2.2

/-- One committed batch. -/
theorem ForgeSpec.append {o : Origin} {now : Timestamp} {m : Manifest} {version : ℕ}
    (h : ForgeSpec g (g :: gens)) (hlog : LogSpec cfg g (g :: gens))
    (basis : o.attempt.basis.manifest = g.manifest) (wrote : o.Wrote)
    (burned : BurnedTo g.manifest.headSeq o.slot.firstSeq o.slot.burned)
    (edit : o.job.manifest o.attempt now (o.slot.ref cfg) = .ok m)
    (hok : ∀ e ∈ o.slot.bytes, e.forge ≠ [] → ∃ actor role,
      (ofLog (committedEntries (g :: gens))).verify actor role e.forge = .ok ()) :
    ForgeSpec ⟨m, version, some o⟩ (⟨m, version, some o⟩ :: g :: gens) := by
  obtain ⟨hnumbers, hnext⟩ := wrote.numbers edit
  rw [basis, h.next] at hnumbers hnext
  have hentries : committedEntries (⟨m, version, some o⟩ :: g :: gens) =
      committedEntries (g :: gens) ++ o.slot.bytes := rfl
  refine ⟨?_, ?_, fun p hp => ?_⟩
  · rw [hentries, ForgeState.openedNumbers_append, List.length_append, ← List.range'_append_1,
      ← h.numbers, ← hnumbers]
  · rw [hentries, ForgeState.openedNumbers_append, List.length_append]
    simp only [hnext]
    omega
  · rw [hentries] at hp
    rcases List.prefix_or_prefix_of_prefix hp (List.prefix_append _ o.slot.bytes) with hold | hnew
    · exact h.items p hold
    · -- The prefix ends inside the batch: its events were verified against the state before.
      obtain ⟨q, rfl⟩ := hnew
      obtain ⟨r, hr⟩ := (List.prefix_append_right_inj _).mp hp
      have hsub : ∀ e ∈ q, e ∈ o.slot.bytes := fun e he => hr ▸ List.mem_append_left r he
      have hq : openedNumbers q = List.range'
          (1 + (openedNumbers (committedEntries (g :: gens))).length) (openedNumbers q).length := by
        rw [← hr, ForgeState.openedNumbers_append] at hnumbers
        exact (ForgeState.range'_of_append hnumbers).1
      have hsorted : (q.map LogEntry.seq).Pairwise (· < ·) := by
        have hall : (o.slot.bytes.map LogEntry.seq).Pairwise (· < ·) := by
          rw [wrote.seqs]
          exact List.pairwise_lt_range'
        rw [← hr, List.map_append, List.pairwise_append] at hall
        exact hall.1
      have hstart := ForgeState.Since.refl (h.items _ List.prefix_rfl)
      have hbatch := hstart.foldl (by omega) hsorted (fun e he => ?_)
        (fun e he => hok e (hsub e he)) hq
      · rw [ForgeState.openedNumbers_append, List.length_append, ← Nat.add_assoc, ofLog,
          List.foldl_append]
        exact hbatch.numbered
      · have hseq := (wrote.mem_seq (hsub e he)).1
        have hle := ofLog_seq_le hlog
        have hlt := burned.1
        omega

/-- A rewrite of the manifest commits no entry. -/
theorem ForgeSpec.rewrite {job : MetaJob} {policy : PackPolicy} {writer : String}
    {now : Timestamp} {m : Manifest} {version : ℕ} (h : ForgeSpec g (g :: gens))
    (edit : job.manifest g.manifest policy writer now = some m) :
    ForgeSpec ⟨m, version, none⟩ (⟨m, version, none⟩ :: g :: gens) := by
  have hentries : committedEntries (⟨m, version, none⟩ :: g :: gens) =
      committedEntries (g :: gens) := List.append_nil _
  have hnext : m.forgeNextNumber = g.manifest.forgeNextNumber :=
    congrArg (fun r => r.2.2) (MetaJob.manifest_records edit)
  refine ⟨?_, ?_, ?_⟩
  · rw [hentries]
    exact h.numbers
  · rw [hentries, ← h.next]
    exact congrArg (max · 1) hnext
  · rw [hentries]
    exact h.items

theorem Chain.forgeSpec (h : Chain cfg (g :: gens)) (hok : ForgeVerified (g :: gens)) :
    ForgeSpec g (g :: gens) := by
  generalize hl : g :: gens = l at h hok
  induction h generalizing g gens with
  | created access now writer version =>
    cases hl
    refine ⟨rfl, rfl, fun p hp => ?_⟩
    rw [List.prefix_nil.mp hp]
    exact ForgeState.numbered_empty
  | append older o now m version basis wrote burned edit newer ih =>
    cases hl
    exact (ih rfl hok.1).append older.logSpec basis wrote burned edit (hok.2 o rfl)
  | rewrite older job policy writer now m version edit folded newer ih =>
    cases hl
    exact (ih rfl hok.1).rewrite edit

/-- Each batch was judged with the forge state its generation was committed over. -/
def ForgeCurrent : List Generation → Prop
  | [] => True
  | g :: gens => ForgeCurrent gens ∧
      ∀ o ∈ g.origin, o.attempt.basis.forge = ofLog (committedEntries gens)

instance decidableForgeCurrent : (gens : List Generation) → Decidable (ForgeCurrent gens)
  | [] => inferInstanceAs (Decidable True)
  | ⟨_, _, none⟩ :: gens =>
    have := decidableForgeCurrent gens
    decidable_of_iff (ForgeCurrent gens) (by simp [ForgeCurrent])
  | ⟨_, _, some o⟩ :: gens =>
    have := decidableForgeCurrent gens
    decidable_of_iff (ForgeCurrent gens ∧ o.attempt.basis.forge = ofLog (committedEntries gens))
      (by simp [ForgeCurrent])

/-- An accepted request's events passed the check of the basis. -/
theorem Origin.Wrote.verified {o : Origin} (h : o.Wrote) {e : LogEntry} (he : e ∈ o.slot.bytes)
    (hne : e.forge ≠ []) :
    ∃ actor role, o.attempt.basis.forge.verify actor role e.forge = .ok () := by
  obtain ⟨reqs, i, req, hjob, hreq, hentry⟩ := Origin.requested h he (Or.inr hne)
  obtain ⟨work, hvalid, hforge, -⟩ := Origin.entryOf_judged h hjob hreq hentry
  obtain ⟨actor, -, hok⟩ := forgeErrorOf_none (hforge ▸ (judge_valid hvalid).1) hne
  exact ⟨actor, _, hok⟩

theorem Chain.forgeVerified (h : Chain cfg gens) (hcurrent : ForgeCurrent gens) :
    ForgeVerified gens := by
  induction h with
  | created access now writer version => exact ⟨trivial, by simp⟩
  | append older o now m version basis wrote burned edit newer ih =>
    refine ⟨ih hcurrent.1, fun p hp e he hne => ?_⟩
    cases hp
    rw [← hcurrent.2 o rfl]
    exact wrote.verified he hne
  | rewrite older job policy writer now m version edit folded newer ih =>
    exact ⟨ih hcurrent.1, by simp⟩

/-- In every committed log whose events were verified when they were published, after every
prefix, the numbers given out are those from 1 on, each once, the manifest's next number
follows them, and every item is coherent. -/
theorem forge_log_coherent {access : Option RepoAccess} {now : Timestamp} {writer : String}
    {w : World} {actions : List Action}
    (hrun : Runs.run (step cfg) (World.created (createdManifest access now writer)) actions =
      some w) (hsuf : (g :: gens) <:+ w.gens) (hverified : ForgeVerified (g :: gens)) :
    max g.manifest.forgeNextNumber 1 =
        1 + (openedNumbers (committedEntries (g :: gens))).length ∧
      ∀ p, p <+: committedEntries (g :: gens) →
        openedNumbers p = List.range' 1 (openedNumbers p).length ∧
        (ofLog p).Numbered (1 + (openedNumbers p).length) := by
  have hspec := ((inv_run hrun).chain.suffix hsuf).forgeSpec hverified
  refine ⟨hspec.next, fun p hp => ⟨?_, hspec.items p hp⟩⟩
  obtain ⟨q, hq⟩ := hp
  have hnumbers := hspec.numbers
  rw [← hq, ForgeState.openedNumbers_append] at hnumbers
  exact (ForgeState.range'_of_append hnumbers).1

end Log

section Issue

open ForgeState (ofLog)

attribute [local instance] Text.asciiTables

def developer : Actor := ⟨"dev", "u1", false⟩

def forgeRequest (number : ℕ) (body : ForgeBody) : PublishRequest :=
  { forge := [⟨number, "dev", "u1", some body⟩], actor := some developer }

def forgeBatch (t : ℕ) (nonce : String) (m : Manifest) (version : ℕ) (forge : ForgeState)
    (reqs : List PublishRequest) : List Action :=
  [.start t (.batch reqs), .capture t ⟨⟨m, some version, .new .fresh, forge, none⟩,
      ⟨"", .empty⟩, "w", ⟨2, 0⟩⟩,
    .claim t nonce (fun _ => ⟨2, 0⟩) .delivered, .swap t ⟨3, 0⟩ .delivered, .finish t]

/-- An issue is opened, then commented on and closed in one batch. -/
def issueLog : List Action :=
  let created := createdManifest (some sharedAccess) ⟨1, 0⟩ "w"
  let opening := forgeBatch 1 "a" created 0 .empty
    [forgeRequest 0 (.opened ⟨.issue, "crash", "on start", [], [], "", "", "", "", false⟩)]
  let after := (Runs.run (step ⟨3, List.length⟩) (World.created created) opening).map fun w =>
    (w.gens.head?.map Generation.manifest, ofLog (committedEntries w.gens))
  match after with
  | some (some m, forge) => opening ++ forgeBatch 2 "b" m 2 forge
      [forgeRequest 1 (.comment ⟨"seen"⟩), forgeRequest 1 (.state ⟨true, "completed", "", ""⟩)]
  | _ => opening

theorem forge_log_coherent_issue :
    ∃ w : World, (committedEntries w.gens).length = 3 ∧
      ∀ p, p <+: committedEntries w.gens →
        ForgeState.openedNumbers p = List.range' 1 (ForgeState.openedNumbers p).length ∧
        (ForgeState.ofLog p).Numbered (1 + (ForgeState.openedNumbers p).length) := by
  have hsome : ((Runs.run (step ⟨3, List.length⟩)
      (World.created (createdManifest (some sharedAccess) ⟨1, 0⟩ "w")) issueLog).map
        fun w => (w.gens.length, (committedEntries w.gens).length,
          decide (ForgeCurrent w.gens))) = some (3, 3, true) := by decide
  obtain ⟨w, hrun, heq⟩ := Option.map_eq_some_iff.mp hsome
  simp only [Prod.mk.injEq, decide_eq_true_eq] at heq
  obtain ⟨hgens, hlength, hcurrent⟩ := heq
  obtain ⟨g, gens, hcons⟩ := List.exists_cons_of_length_pos (by omega : 0 < w.gens.length)
  have hverified := (inv_run hrun).chain.forgeVerified hcurrent
  have hcoherent := forge_log_coherent hrun (hcons ▸ List.suffix_rfl) (hcons ▸ hverified)
  rw [← hcons] at hcoherent
  exact ⟨w, hlength, hcoherent.2⟩

end Issue

end Walgit
