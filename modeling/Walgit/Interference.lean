import Walgit.Forge

/-!
# Which forge events interfere

The checks of a batch read the forge state it started from, not the one its earlier events
leave. Each check reads little of it: the presence of a label, the open pull requests of two
branches, or the state, the draft mark and the comments of one item. An event that changes
none of that leaves the check alone.
-/
namespace Walgit

namespace ForgeBody

def setsState : ForgeBody → Bool
  | .state _ | .merged _ => true
  | _ => false

def readsState : ForgeBody → Bool
  | .state _ | .review _ | .draft _ | .merged _ => true
  | _ => false

def setsDraft : ForgeBody → Bool
  | .draft _ => true
  | _ => false

def readsDraft : ForgeBody → Bool
  | .draft _ | .merged _ => true
  | _ => false

/-- The bodies about an item that exists already. -/
def onItem : ForgeBody → Bool
  | .opened _ | .label _ => false
  | _ => true

/-- A comment whose id is not below `fresh` may be the new one; a deleted one is gone. -/
def hitsComment (fresh : ℕ) : ForgeBody → ForgeBody → Bool
  | .comment _, .edit e => fresh ≤ e.commentId
  | .edit d, .edit e => d.change = some (.deleted true) && d.commentId = e.commentId
  | _, _ => false

/-- On the same item, the first body changes what the check of the second reads. -/
def interferes (fresh : ℕ) (b c : ForgeBody) : Bool :=
  b.setsState && c.readsState || b.setsDraft && c.readsDraft || hitsComment fresh b c

end ForgeBody

/-- The first event changes what the check of the second reads in `s`, the state both are
checked against; `next` is the first number no item has. -/
def ForgeState.interferes (s : ForgeState) (next : ℕ) (e f : ForgeEvent) : Bool :=
  match e.body with
  | none => false
  | some (.label l) =>
    match f.body with
    | some (.label m) => m.deleted && l.name = m.name
    | _ => false
  | some (.opened o) =>
    match f.body with
    | some (.opened p) => p.kind = .pull && o.baseRef = p.baseRef && o.headRef = p.headRef
    | some c => c.onItem && next ≤ f.number
    | none => false
  | some b =>
    match f.body with
    | some (.opened p) =>
      b.setsState && p.kind = .pull && (s.items.find? e.number).all fun i =>
        i.baseRef = p.baseRef && i.headRef = p.headRef
    | some c => e.number = f.number && b.interferes ((s.seq + 1) <<< 10) c
    | none => false

namespace Item

def live (c : ℕ) (t : TimelineItem) : Bool :=
  t.id == c && match t.event with
    | .comment _ _ deleted => !deleted
    | _ => false

/-- Who wrote the comment an edit would change. -/
def liveComment (i : Item) (c : ℕ) : Option (String × String) :=
  (i.timeline.find? (live c)).map fun t => (t.actorId, t.actor)

/-- The items agree on what the check of a body reads. -/
structure SameFor (c : ForgeBody) (i j : Item) : Prop where
  number : i.number = j.number
  kind : i.kind = j.kind
  author : i.author = j.author
  authorId : i.authorId = j.authorId
  state : c.readsState → i.state = j.state ∧ i.merged = j.merged
  draft : c.readsDraft → i.draft = j.draft
  comment : ∀ e, c = .edit e → i.liveComment e.commentId = j.liveComment e.commentId

theorem SameFor.refl (c : ForgeBody) (i : Item) : SameFor c i i :=
  ⟨rfl, rfl, rfl, rfl, fun _ => ⟨rfl, rfl⟩, fun _ => rfl, fun _ _ => rfl⟩

theorem SameFor.trans {c : ForgeBody} {i j k : Item} (h : SameFor c i j) (h' : SameFor c j k) :
    SameFor c i k :=
  ⟨h.number.trans h'.number, h.kind.trans h'.kind, h.author.trans h'.author,
    h.authorId.trans h'.authorId,
    fun hr => ⟨(h.state hr).1.trans (h'.state hr).1, (h.state hr).2.trans (h'.state hr).2⟩,
    fun hr => (h.draft hr).trans (h'.draft hr), fun e he => (h.comment e he).trans (h'.comment e he)⟩

/-- Entries that are no comment, or one with another id, hide nothing. -/
theorem liveComment_append (i : Item) (t : TimelineItem) {c : ℕ} (h : live c t = false) :
    { i with timeline := i.timeline ++ [t] }.liveComment c = i.liveComment c := by
  simp [liveComment, List.find?_append, h]

theorem liveComment_modifyFirst (i : Item) (d c : ℕ) {f : TimelineItem → TimelineItem}
    (hf : ∀ t, t.id = d → live c (f t) = live c t ∧ (f t).actorId = t.actorId ∧
      (f t).actor = t.actor) :
    { i with timeline := modifyFirst (fun t => t.id == d) f i.timeline }.liveComment c =
      i.liveComment c := by
  simp only [liveComment]
  generalize i.timeline = l
  induction l with
  | nil => rfl
  | cons t l ih =>
    by_cases hd : t.id = d
    · obtain ⟨hlive, hid, hactor⟩ := hf t hd
      cases hc : live c t with
      | true => simp [modifyFirst, hd, hlive, hc, hid, hactor]
      | false => simp [modifyFirst, hd, hlive, hc]
    · cases hc : live c t with
      | true => simp [modifyFirst, hd, hc]
      | false => simpa [modifyFirst, hd, hc] using ih

/-- A comment edit only touches the timeline and the comment count. -/
theorem editComment_eq (i : Item) (d : ForgeEdit) :
    ∃ l n, i.editComment d = { i with timeline := l, comments := n } := by
  unfold editComment
  split
  · exact ⟨_, _, rfl⟩
  · exact ⟨_, _, rfl⟩
  · exact ⟨i.timeline, i.comments, rfl⟩

theorem liveComment_editComment (i : Item) (d : ForgeEdit) {c : ℕ}
    (h : d.change = some (.deleted true) → d.commentId ≠ c) :
    (i.editComment d).liveComment c = i.liveComment c := by
  unfold editComment
  split
  · refine liveComment_modifyFirst i _ _ fun t _ => ?_
    unfold editBody live
    split <;> simp_all
  · rename_i hchange
    refine Eq.trans (liveComment_modifyFirst i _ _ fun t ht => ?_) rfl
    have hne : t.id ≠ c := ht ▸ h hchange
    unfold deleteBody live
    split <;> simp [hne]
  · rfl

/-- Of the bodies that do not interfere with `c`, none changes what `c`'s check reads. -/
theorem applyBody_sameFor {fresh id : ℕ} {b c : ForgeBody} (i : Item) (time : String)
    (ev : ForgeEvent) (hfresh : fresh ≤ id) (h : b.interferes fresh c = false) :
    ({ i with updatedAt := time }.applyBody id time ev b).SameFor c i := by
  simp only [ForgeBody.interferes, Bool.or_eq_false_iff, Bool.and_eq_false_iff] at h
  obtain ⟨⟨hstate, hdraft⟩, hcomment⟩ := h
  have hpush : ∀ (k : Item) (event : Timeline), (∀ b e d, event ≠ .comment b e d) → ∀ n,
      (k.push id time ev event).liveComment n = k.liveComment n := by
    intro k event hevent n
    refine liveComment_append k _ ?_
    cases event <;> simp_all [live]
  have hnone : ∀ {k : Item} {event : Timeline}, (∀ b e d, event ≠ .comment b e d) →
      k.timeline = i.timeline → ∀ e : ForgeEdit, c = .edit e →
      (k.push id time ev event).liveComment e.commentId = i.liveComment e.commentId := by
    intro k event hevent htimeline e _
    rw [hpush k event hevent, liveComment, liveComment, htimeline]
  cases b with
  | opened _ => exact ⟨rfl, rfl, rfl, rfl, fun _ => ⟨rfl, rfl⟩, fun _ => rfl, fun _ _ => rfl⟩
  | label _ => exact ⟨rfl, rfl, rfl, rfl, fun _ => ⟨rfl, rfl⟩, fun _ => rfl, fun _ _ => rfl⟩
  | comment m =>
    refine ⟨rfl, rfl, rfl, rfl, fun _ => ⟨rfl, rfl⟩, fun _ => rfl, fun e he => ?_⟩
    subst he
    simp only [ForgeBody.hitsComment, decide_eq_false_iff_not, not_le] at hcomment
    refine liveComment_append { i with updatedAt := time, comments := i.comments + 1 } _ ?_
    have hne : id ≠ e.commentId := by omega
    simp [live, hne]
  | edit d =>
    simp only [applyBody]
    by_cases hzero : d.commentId = 0
    · rw [if_pos hzero]
      split
      · exact ⟨rfl, rfl, rfl, rfl, fun _ => ⟨rfl, rfl⟩, fun _ => rfl, hnone (by simp) rfl⟩
      · exact ⟨rfl, rfl, rfl, rfl, fun _ => ⟨rfl, rfl⟩, fun _ => rfl, fun _ _ => rfl⟩
      · exact ⟨rfl, rfl, rfl, rfl, fun _ => ⟨rfl, rfl⟩, fun _ => rfl, fun _ _ => rfl⟩
    · rw [if_neg hzero]
      obtain ⟨l, n, hedit⟩ := editComment_eq { i with updatedAt := time } d
      have hlive : ∀ e, c = .edit e →
          ({ i with updatedAt := time }.editComment d).liveComment e.commentId =
            i.liveComment e.commentId := by
        intro e he
        subst he
        simp only [ForgeBody.hitsComment, Bool.and_eq_false_iff, decide_eq_false_iff_not] at hcomment
        refine (liveComment_editComment _ d fun hdel => ?_).trans rfl
        exact hcomment.resolve_left (not_not_intro hdel)
      refine ⟨?_, ?_, ?_, ?_, fun _ => ?_, fun _ => ?_, hlive⟩ <;> rw [hedit]
      exact ⟨rfl, rfl⟩
  | state s =>
    have hno : c.readsState = false := by simpa [ForgeBody.setsState] using hstate
    simp only [applyBody]
    by_cases hclosed : s.closed
    · rw [if_pos hclosed]
      exact ⟨rfl, rfl, rfl, rfl, by simp [hno], fun _ => rfl, hnone (by simp) rfl⟩
    · rw [if_neg hclosed]
      exact ⟨rfl, rfl, rfl, rfl, by simp [hno], fun _ => rfl, hnone (by simp) rfl⟩
  | labels l =>
    exact ⟨rfl, rfl, rfl, rfl, fun _ => ⟨rfl, rfl⟩, fun _ => rfl, hnone (by simp) rfl⟩
  | assignees l =>
    exact ⟨rfl, rfl, rfl, rfl, fun _ => ⟨rfl, rfl⟩, fun _ => rfl, hnone (by simp) rfl⟩
  | review r =>
    exact ⟨rfl, rfl, rfl, rfl, fun _ => ⟨rfl, rfl⟩, fun _ => rfl, hnone (by simp) rfl⟩
  | draft d =>
    have hno : c.readsDraft = false := by simpa [ForgeBody.setsDraft] using hdraft
    exact ⟨rfl, rfl, rfl, rfl, fun _ => ⟨rfl, rfl⟩, by simp [hno], hnone (by simp) rfl⟩
  | merged m =>
    have hno : c.readsState = false := by simpa [ForgeBody.setsState] using hstate
    exact ⟨rfl, rfl, rfl, rfl, by simp [hno], fun _ => rfl, hnone (by simp) rfl⟩

/-- No body moves an item to other branches, and only a state change opens or closes it. -/
theorem applyBody_branches (i : Item) (id : ℕ) (time : String) (ev : ForgeEvent) (b : ForgeBody) :
    let j := { i with updatedAt := time }.applyBody id time ev b
    j.baseRef = i.baseRef ∧ j.headRef = i.headRef ∧ j.number = i.number ∧
      (b.setsState = false → j.state = i.state) := by
  cases b with
  | edit d =>
    simp only [applyBody]
    by_cases hzero : d.commentId = 0
    · rw [if_pos hzero]
      split <;> exact ⟨rfl, rfl, rfl, fun _ => rfl⟩
    · rw [if_neg hzero]
      obtain ⟨l, n, hedit⟩ := editComment_eq { i with updatedAt := time } d
      rw [hedit]
      exact ⟨rfl, rfl, rfl, fun _ => rfl⟩
  | state s =>
    simp only [applyBody]
    by_cases hclosed : s.closed
    · rw [if_pos hclosed]
      exact ⟨rfl, rfl, rfl, by simp [ForgeBody.setsState]⟩
    · rw [if_neg hclosed]
      exact ⟨rfl, rfl, rfl, by simp [ForgeBody.setsState]⟩
  | merged m => exact ⟨rfl, rfl, rfl, by simp [ForgeBody.setsState]⟩
  | _ => exact ⟨rfl, rfl, rfl, fun _ => rfl⟩

/-- An open item between the branches of `o`. -/
def rivals (o : ForgeOpened) (i : Item) : Bool :=
  i.state = .opened && i.baseRef = o.baseRef && i.headRef = o.headRef

theorem reference_sameFor (i : Item) (id : ℕ) (time : String) (ev : ForgeEvent) (c : ForgeBody) :
    (i.reference id time ev).SameFor c i := by
  unfold reference
  split
  · exact .refl c i
  · exact ⟨rfl, rfl, rfl, rfl, fun _ => ⟨rfl, rfl⟩, fun _ => rfl,
      fun _ _ => liveComment_append i _ (by simp [live])⟩

theorem reference_branches (i : Item) (id : ℕ) (time : String) (ev : ForgeEvent) :
    (i.reference id time ev).baseRef = i.baseRef ∧ (i.reference id time ev).headRef = i.headRef ∧
      (i.reference id time ev).number = i.number ∧
      (i.reference id time ev).state = i.state := by
  unfold reference
  split <;> exact ⟨rfl, rfl, rfl, rfl⟩

end Item

namespace ForgeState

/-- The open item that keeps a pull request between two branches from being opened. -/
def rival (s : ForgeState) (o : ForgeOpened) : Option ℕ :=
  (s.items.values.find? (Item.rivals o)).map Item.number

/-- The states agree on what the check of an event reads. -/
structure SameFor (f : ForgeEvent) (s t : ForgeState) : Prop where
  label : ∀ l, f.body = some (.label l) → l.deleted →
    (s.labels.find? l.name).isSome = (t.labels.find? l.name).isSome
  rival : ∀ o, f.body = some (.opened o) → o.kind = .pull → s.rival o = t.rival o
  item : ∀ c, f.body = some c → c.onItem →
    Option.Rel (Item.SameFor c) (s.items.find? f.number) (t.items.find? f.number)

theorem SameFor.refl (f : ForgeEvent) (s : ForgeState) : SameFor f s s := by
  refine ⟨fun _ _ _ => rfl, fun _ _ _ => rfl, fun c _ _ => ?_⟩
  cases s.items.find? f.number with
  | none => exact .none
  | some i => exact .some (.refl c i)

theorem SameFor.trans {f : ForgeEvent} {s t u : ForgeState} (h : SameFor f s t)
    (h' : SameFor f t u) : SameFor f s u := by
  refine ⟨fun l hl hd => (h.label l hl hd).trans (h'.label l hl hd),
    fun o ho hk => (h.rival o ho hk).trans (h'.rival o ho hk), fun c hc hon => ?_⟩
  have hst := h.item c hc hon
  have htu := h'.item c hc hon
  generalize s.items.find? f.number = x at hst
  generalize t.items.find? f.number = y at hst htu
  generalize u.items.find? f.number = z at htu
  cases hst with
  | none => exact htu
  | some hij =>
    cases htu with
    | some hjk => exact .some (hij.trans hjk)

/-- One item changes, in nothing the check reads. -/
theorem sameFor_modify {f : ForgeEvent} (s : ForgeState) {n : ℕ} {g : Item → Item}
    (hitem : ∀ i c, s.items.find? n = some i → f.body = some c → c.onItem → f.number = n →
      (g i).SameFor c i)
    (hopen : ∀ i o, s.items.find? n = some i → f.body = some (.opened o) → o.kind = .pull →
      Item.rivals o (g i) = Item.rivals o i ∧ (g i).number = i.number) :
    SameFor f { s with items := s.items.modify n g } s := by
  refine ⟨fun _ _ _ => rfl, fun o ho hk => ?_, fun c hc hon => ?_⟩
  · exact SortedMap.find?_values_modify fun i hi =>
      ⟨(hopen i o hi ho hk).1, fun _ => (hopen i o hi ho hk).2⟩
  · simp only [SortedMap.find?_modify]
    by_cases hn : f.number = n
    · rw [if_pos hn]
      cases hi : s.items.find? f.number with
      | none => exact .none
      | some i => exact .some (hitem i c (hn ▸ hi) hc hon hn)
    · rw [if_neg hn]
      exact (SameFor.refl f s).item c hc hon

theorem verifyOpened_congr {s t : ForgeState} {o : ForgeOpened}
    (h : o.kind = .pull → s.rival o = t.rival o) (role : Role) :
    verifyOpened s role o = verifyOpened t role o := by
  by_cases hk : o.kind = .pull
  · have hrival := h hk
    have htest : (fun i : Item => decide (i.state = .opened) && decide (i.baseRef = o.baseRef) &&
        decide (i.headRef = o.headRef)) = Item.rivals o := rfl
    unfold rival at hrival
    simp only [verifyOpened, htest]
    cases hs : s.items.values.find? (Item.rivals o) with
    | none =>
      cases ht : t.items.values.find? (Item.rivals o) with
      | none => rfl
      | some j => simp [hs, ht] at hrival
    | some i =>
      cases ht : t.items.values.find? (Item.rivals o) with
      | none => simp [hs, ht] at hrival
      | some j =>
        simp only [hs, ht, Option.map_some, Option.some.injEq] at hrival
        simp only [hrival]
  · simp only [verifyOpened, if_neg hk]

/-- No item has a number from `next` on. -/
def Below (s : ForgeState) (next : ℕ) : Prop := ∀ n i, s.items.find? n = some i → n < next

/-- Every item of `s` is still there and still between the same branches. -/
def Keeps (s t : ForgeState) : Prop :=
  ∀ n i, s.items.find? n = some i →
    ∃ j, t.items.find? n = some j ∧ j.baseRef = i.baseRef ∧ j.headRef = i.headRef

theorem Keeps.refl (s : ForgeState) : Keeps s s := fun _ i hi => ⟨i, hi, rfl, rfl⟩

theorem Keeps.trans {s t u : ForgeState} (h : Keeps s t) (h' : Keeps t u) : Keeps s u := by
  intro n i hi
  obtain ⟨j, hj, hbase, hhead⟩ := h n i hi
  obtain ⟨k, hk, hbase', hhead'⟩ := h' n j hj
  exact ⟨k, hk, hbase'.trans hbase, hhead'.trans hhead⟩

theorem keeps_modify (s : ForgeState) {n : ℕ} {g : Item → Item}
    (hg : ∀ i, (g i).baseRef = i.baseRef ∧ (g i).headRef = i.headRef) :
    Keeps s { s with items := s.items.modify n g } := by
  intro m i hi
  simp only [SortedMap.find?_modify, hi]
  by_cases hm : m = n
  · exact ⟨g i, by simp [hm], hg i⟩
  · exact ⟨i, by simp [hm], rfl, rfl⟩

theorem below_modify {s : ForgeState} {next : ℕ} (h : s.Below next) (n : ℕ) (g : Item → Item) :
    Below { s with items := s.items.modify n g } next := by
  intro m i hi
  simp only [SortedMap.find?_modify] at hi
  by_cases hm : m = n
  · rw [if_pos hm, Option.map_eq_some_iff] at hi
    obtain ⟨j, hj, -⟩ := hi
    exact h m j hj
  · exact h m i (by simpa [hm] using hi)

/-- An event keeps the items and takes at most its own number. -/
theorem apply_keeps (s : ForgeState) {next : ℕ} (h : s.Below next) (id : ℕ) (time : String)
    {e : ForgeEvent} (hnum : ∀ o, e.body = some (.opened o) → e.number = next) :
    Keeps s (s.apply id time e) ∧
      (s.apply id time e).Below
        (match e.body with | some (.opened _) => next + 1 | _ => next) := by
  unfold apply
  cases hbody : e.body with
  | none => exact ⟨.refl s, h⟩
  | some b =>
    cases b with
    | label l =>
      simp only
      split_ifs
      · refine ⟨fun n i hi => ⟨{ i with labels := i.labels.erase l.name }, ?_, rfl, rfl⟩, ?_⟩
        · simp [hi]
        · intro n i hi
          simp only [SortedMap.find?_mapValues, Option.map_eq_some_iff] at hi
          obtain ⟨j, hj, -⟩ := hi
          exact h n j hj
      · exact ⟨.refl s, h⟩
    | opened o =>
      have hnext := hnum o hbody
      refine ⟨fun n i hi => ⟨i, ?_, rfl, rfl⟩, fun n i hi => ?_⟩
      · have hlt := h n i hi
        have hne : n ≠ e.number := by omega
        simp [hne, hi]
      · by_cases hn : n = e.number
        · simp only
          omega
        · have hlt := h n i (by simpa [hn] using hi)
          simp only
          omega
    | _ =>
      exact ⟨keeps_modify s fun i => ⟨(i.applyBody_branches id time e _).1,
        (i.applyBody_branches id time e _).2.1⟩, below_modify h _ _⟩

/-- A body about one item leaves the check of an event alone unless it interferes. -/
theorem modify_sameFor {s₀ s : ForgeState} {id n : ℕ} {b : ForgeBody} {ev f : ForgeEvent}
    (time : String) (hkeeps : Keeps s₀ s) (hid : (s₀.seq + 1) <<< 10 ≤ id)
    (hopen : ∀ p, f.body = some (.opened p) → b.setsState → p.kind = .pull →
      ∃ i, s₀.items.find? n = some i ∧ ¬(i.baseRef = p.baseRef ∧ i.headRef = p.headRef))
    (hitem : ∀ c, f.body = some c → c.onItem → n = f.number →
      b.interferes ((s₀.seq + 1) <<< 10) c = false) :
    SameFor f { s with items := s.items.modify n fun i =>
      { i with updatedAt := time }.applyBody id time ev b } s := by
  refine sameFor_modify s (fun i c hi hc hon hn => ?_) fun i o hi ho hk => ?_
  · exact i.applyBody_sameFor time ev hid (hitem c hc hon hn.symm)
  · obtain ⟨hbase, hhead, hnumber, hstate⟩ := i.applyBody_branches id time ev b
    refine ⟨?_, hnumber⟩
    simp only [Item.rivals, hbase, hhead]
    cases hsets : b.setsState with
    | false => rw [hstate hsets]
    | true =>
      -- The item is between other branches, so it is no rival open or closed.
      obtain ⟨i₀, hi₀, hne⟩ := hopen o ho hsets hk
      obtain ⟨j, hj, hbase₀, hhead₀⟩ := hkeeps n i₀ hi₀
      obtain rfl : j = i := Option.some.inj (hj.symm.trans hi)
      rw [hbase₀, hhead₀, Bool.and_assoc, Bool.and_assoc]
      have hno : (decide (i₀.baseRef = o.baseRef) && decide (i₀.headRef = o.headRef)) = false := by
        simpa using hne
      rw [hno, Bool.and_false, Bool.and_false]

/-- An event that does not interfere leaves the check of another one alone. -/
theorem apply_sameFor {s₀ s : ForgeState} {next id : ℕ} {e f : ForgeEvent} (time : String)
    (hkeeps : Keeps s₀ s) (hid : (s₀.seq + 1) <<< 10 ≤ id)
    (hnum : ∀ o, e.body = some (.opened o) → next ≤ e.number ∧ s.Below e.number)
    (h : s₀.interferes next e f = false) : SameFor f (s.apply id time e) s := by
  unfold apply
  cases he : e.body with
  | none => exact .refl f s
  | some b =>
    cases b with
    | label l =>
      have hname : ∀ m, f.body = some (.label m) → m.deleted → m.name ≠ l.name := by
        intro m hm hd hname
        simp [interferes, he, hm, hd, hname] at h
      simp only
      split_ifs
      · refine ⟨fun m hm hd => ?_, fun o _ _ => ?_, fun c _ _ => ?_⟩
        · simp [hname m hm hd]
        · simp only [rival, SortedMap.values, SortedMap.mapValues, List.map_map, List.find?_map,
            Option.map_map]
          rfl
        · rw [SortedMap.find?_mapValues]
          cases s.items.find? f.number with
          | none => exact .none
          | some i => exact .some ⟨rfl, rfl, rfl, rfl, fun _ => ⟨rfl, rfl⟩, fun _ => rfl,
              fun _ _ => rfl⟩
      · refine ⟨fun m hm hd => ?_, fun _ _ _ => rfl, (SameFor.refl f s).item⟩
        simp [hname m hm hd]
    | opened o =>
      obtain ⟨hnext, hbelow⟩ := hnum o he
      refine ⟨fun _ _ _ => rfl, fun p hp hk => ?_, fun c hc hon => ?_⟩
      · have hno : Item.rivals p (Item.opened e time o) = false := by
          simp only [interferes, he, hp, hk, decide_true, Bool.true_and] at h
          simp only [Item.rivals, Item.opened, decide_true, Bool.true_and]
          exact h
        simp only [rival]
        rw [SortedMap.values_insert_of_lt _ hbelow, List.find?_append]
        simp [hno]
      · have hlt : f.number < next := by
          cases c <;> simp_all [interferes, ForgeBody.onItem]
        have hne : f.number ≠ e.number := by omega
        simpa [hne] using (SameFor.refl f s).item c hc hon
    | _ =>
      refine modify_sameFor time hkeeps hid (fun p hp hsets hk => ?_) fun c hc hon hn => ?_
      · simp only [interferes, he, hp, hsets, hk, decide_true, Bool.and_true, Bool.true_and,
          Option.all_eq_false] at h
        obtain ⟨i, hi, hne⟩ := h
        exact ⟨i, hi, by simpa using hne⟩
      · cases c <;> simp_all [interferes, ForgeBody.onItem]

/-- One step of numbering: an opened item takes the next number, other events stay. -/
theorem number_cons (ev : ForgeEvent) (evs : List ForgeEvent) (next : ℕ) :
    ∃ e next', number (ev :: evs) next = (e :: (number evs next').1, (number evs next').2) ∧
      e.body = ev.body ∧ next ≤ next' ∧
      (∀ o, e.body = some (.opened o) → e.number = next ∧ next' = next + 1) ∧
      ((∀ o, e.body ≠ some (.opened o)) → e = ev) := by
  rw [number]
  split
  · rename_i o hbody
    exact ⟨{ ev with number := next }, next + 1, rfl, rfl, Nat.le_succ next,
      fun _ _ => ⟨rfl, rfl⟩, fun hno => absurd hbody (hno o)⟩
  · rename_i hbody
    exact ⟨ev, next, rfl, rfl, le_rfl, fun o ho => absurd ho (hbody o), fun _ => rfl⟩

/-- What a check reads does not depend on the number an opened item is given. -/
theorem SameFor.number {s t : ForgeState} {evs : List ForgeEvent} (h : ∀ f ∈ evs, SameFor f s t)
    (next : ℕ) : ∀ e ∈ (number evs next).1, SameFor e s t := by
  induction evs generalizing next with
  | nil => simp [ForgeState.number]
  | cons ev evs ih =>
    obtain ⟨e, next', hnumber, hbody, -, -, hother⟩ := number_cons ev evs next
    have hev := h ev List.mem_cons_self
    rw [hnumber]
    intro e' he'
    rcases List.mem_cons.mp he' with rfl | he'
    · by_cases hop : ∃ o, e'.body = some (.opened o)
      · obtain ⟨o, ho⟩ := hop
        refine ⟨by simp [ho], fun p hp => hev.rival p (hbody ▸ hp), fun c hc hon => ?_⟩
        obtain rfl : ForgeBody.opened o = c := Option.some.inj (ho.symm.trans hc)
        cases hon
      · rw [hother fun o ho => hop ⟨o, ho⟩]
        exact hev
    · exact ih (fun f hf => h f (List.mem_cons_of_mem _ hf)) next' e' he'

end ForgeState

section Checks

variable [Text.CharTables]

theorem verifyOnItem_comment {e : ForgeEdit} (hcomment : e.commentId ≠ 0) (i : Item)
    (actor : Actor) (role : Role) :
    verifyOnItem i actor role (.edit e) = (i.liveComment e.commentId).elim
      (throw ("comment " ++ toString e.commentId ++ " does not exist")) fun author =>
        if role < .write && !actor.is author.1 author.2 then
          throw "only the author or a collaborator can edit this comment"
        else pure () := by
  simp only [verifyOnItem]
  rw [if_neg hcomment, Item.liveComment]
  split
  · rename_i hnone
    have hlive : i.timeline.find? (Item.live e.commentId) = none := hnone
    rw [hlive]
    rfl
  · rename_i t ht
    have hlive : i.timeline.find? (Item.live e.commentId) = some t := ht
    rw [hlive]
    rfl

theorem verifyOnItem_congr {c : ForgeBody} {i j : Item} (h : i.SameFor c j) (actor : Actor)
    (role : Role) : verifyOnItem i actor role c = verifyOnItem j actor role c := by
  obtain ⟨hnumber, hkind, hauthor, hauthorId, hstate, hdraft, hcomment⟩ := h
  cases c with
  | opened _ => rfl
  | label _ => rfl
  | comment _ => rfl
  | labels _ => rfl
  | assignees _ => rfl
  | edit e =>
    by_cases hzero : e.commentId = 0
    · simp only [verifyOnItem, if_pos hzero, hauthor, hauthorId]
    · rw [verifyOnItem_comment hzero, verifyOnItem_comment hzero, hcomment e rfl]
  | state s =>
    obtain ⟨hs, hm⟩ := hstate rfl
    simp only [verifyOnItem, hnumber, hauthor, hauthorId, hs, hm]
  | review r =>
    simp only [verifyOnItem, verifyReview, hnumber, hkind, hauthor, hauthorId, (hstate rfl).1]
  | draft d =>
    simp only [verifyOnItem, hnumber, hkind, hauthor, hauthorId, (hstate rfl).1, hdraft rfl]
  | merged m =>
    simp only [verifyOnItem, hnumber, hkind, (hstate rfl).1, hdraft rfl]

namespace ForgeState

/-- Cross references only add timeline entries. -/
theorem crossReference_sameFor (s : ForgeState) (f : ForgeEvent) (id : ℕ) (time : String)
    (ev : ForgeEvent) : SameFor f (s.crossReference id time ev) s := by
  unfold crossReference
  split
  · exact .refl f s
  · rename_i text _
    generalize (mentions text).filter (· ≠ ev.number) = targets
    induction targets generalizing s with
    | nil => exact .refl f s
    | cons n targets ih =>
      refine (ih { s with items := s.items.modify n (·.reference id time ev) }).trans ?_
      refine sameFor_modify s (fun i c _ _ _ _ => i.reference_sameFor id time ev c)
        fun i o _ _ _ => ?_
      obtain ⟨hbase, hhead, hnumber, hstate⟩ := i.reference_branches id time ev
      exact ⟨by simp only [Item.rivals, hbase, hhead, hstate], hnumber⟩

theorem crossReference_keeps (s : ForgeState) {next : ℕ} (h : s.Below next) (id : ℕ)
    (time : String) (ev : ForgeEvent) :
    Keeps s (s.crossReference id time ev) ∧ (s.crossReference id time ev).Below next := by
  unfold crossReference
  split
  · exact ⟨.refl s, h⟩
  · rename_i text _
    generalize (mentions text).filter (· ≠ ev.number) = targets
    induction targets generalizing s with
    | nil => exact ⟨.refl s, h⟩
    | cons n targets ih =>
      have hkeeps : Keeps s { s with items := s.items.modify n (·.reference id time ev) } :=
        keeps_modify s fun i =>
          ⟨(i.reference_branches id time ev).1, (i.reference_branches id time ev).2.1⟩
      obtain ⟨hrest, hbelow⟩ := ih _ (below_modify h n (·.reference id time ev))
      exact ⟨hkeeps.trans hrest, hbelow⟩

theorem verifyLabel_congr {s t : ForgeState} {l : ForgeLabel}
    (h : l.deleted → (s.labels.find? l.name).isSome = (t.labels.find? l.name).isSome)
    (role : Role) : verifyLabel s role l = verifyLabel t role l := by
  have hlast : (l.deleted && (s.labels.find? l.name).isNone) =
      (l.deleted && (t.labels.find? l.name).isNone) := by
    cases hd : l.deleted with
    | false => rfl
    | true => rw [← Option.not_isSome, ← Option.not_isSome, h hd]
  simp only [verifyLabel, hlast]

theorem verifyEvent_congr {f : ForgeEvent} {s t : ForgeState} (h : SameFor f s t) (actor : Actor)
    (role : Role) : s.verifyEvent actor role f = t.verifyEvent actor role f := by
  unfold verifyEvent
  cases hbody : f.body with
  | none => rfl
  | some c =>
    cases c with
    | label l => exact verifyLabel_congr (h.label l hbody) role
    | opened o => exact verifyOpened_congr (h.rival o hbody) role
    | _ =>
      have hitem := h.item _ hbody rfl
      simp only
      generalize s.items.find? f.number = x at hitem
      generalize t.items.find? f.number = y at hitem
      cases hitem with
      | none => rfl
      | some hij => exact verifyOnItem_congr hij actor role

/-- Numbered events keep the items, take the numbers they were given and leave the check of
every event alone with which none of them interferes. -/
theorem applyEvents_frame {s₀ s : ForgeState} {first next seq : ℕ} (time : String) (i : ℕ)
    (evs : List ForgeEvent) (hkeeps : Keeps s₀ s) (hbelow : s.Below next)
    (hfirst : first ≤ next) (hseq : s₀.seq < seq) :
    let t := s.applyEvents seq time i (number evs next).1
    Keeps s₀ t ∧ t.Below (number evs next).2 ∧
      ∀ f, (∀ e ∈ evs, s₀.interferes first e f = false) → SameFor f t s := by
  induction evs generalizing s i next with
  | nil => exact ⟨hkeeps, hbelow, fun f _ => .refl f s⟩
  | cons ev evs ih =>
    have hid : (s₀.seq + 1) <<< 10 ≤ seq <<< 10 ||| i := by
      refine le_trans ?_ Nat.left_le_or
      simp only [Nat.shiftLeft_eq]
      exact Nat.mul_le_mul_right _ hseq
    obtain ⟨e, next', hnumber, hbody, hnext, hopened, hother⟩ := number_cons ev evs next
    rw [hnumber]
    simp only [applyEvents]
    set id := seq <<< 10 ||| i
    obtain ⟨hone, hbelow₁⟩ := apply_keeps s hbelow id time fun o ho => (hopened o ho).1
    have hbelow₁ : (s.apply id time e).Below next' := by
      intro n j hj
      have hlt := hbelow₁ n j hj
      split at hlt
      · rename_i o ho
        have := (hopened o ho).2
        omega
      · omega
    obtain ⟨hcross, hbelow₂⟩ := crossReference_keeps _ hbelow₁ id time e
    obtain ⟨hkeeps', hbelow', hsame⟩ :=
      ih (i + 1) ((hkeeps.trans hone).trans hcross) hbelow₂ (hfirst.trans hnext)
    refine ⟨hkeeps', hbelow', fun f hf => ?_⟩
    have hfree : s₀.interferes first e f = false := by
      have hev := hf ev List.mem_cons_self
      by_cases hop : ∃ o, e.body = some (.opened o)
      · obtain ⟨o, ho⟩ := hop
        simpa only [interferes, ho, ← hbody] using hev
      · rw [hother fun o ho => hop ⟨o, ho⟩]
        exact hev
    refine (hsame f fun e he => hf e (List.mem_cons_of_mem _ he)).trans ?_
    refine (crossReference_sameFor _ f id time e).trans (apply_sameFor time hkeeps hid ?_ hfree)
    intro o ho
    have hat := (hopened o ho).1
    exact ⟨by omega, hat ▸ hbelow⟩

/-- One entry of numbered events after the state's position. -/
theorem foldEntry_frame {s₀ s : ForgeState} {first next : ℕ} {entry : LogEntry}
    {evs : List ForgeEvent} (hforge : entry.forge = (number evs next).1)
    (hseq : s.seq < entry.seq) (hseq₀ : s₀.seq ≤ s.seq) (hkeeps : Keeps s₀ s)
    (hbelow : s.Below next) (hfirst : first ≤ next) :
    Keeps s₀ (s.foldEntry entry) ∧ (s.foldEntry entry).Below (number evs next).2 ∧
      ∀ f, (∀ e ∈ evs, s₀.interferes first e f = false) → SameFor f (s.foldEntry entry) s := by
  rw [foldEntry, if_neg (by omega)]
  cases evs with
  | nil =>
    simp only [hforge, ForgeState.number, List.isEmpty_nil, if_true]
    exact ⟨hkeeps, hbelow, fun f _ => ⟨(SameFor.refl f s).label, (SameFor.refl f s).rival,
      (SameFor.refl f s).item⟩⟩
  | cons ev evs =>
    have hne : (number (ev :: evs) next).1.isEmpty = false := by
      obtain ⟨e, next', hnumber, -⟩ := number_cons ev evs next
      simp [hnumber]
    obtain ⟨hkeeps', hbelow', hsame⟩ := applyEvents_frame (forgeTime entry.createdAt) 0 (ev :: evs)
      hkeeps hbelow hfirst (hseq₀.trans_lt hseq)
    simp only [hforge, hne, Bool.false_eq_true, if_false, applyRecord]
    exact ⟨hkeeps', hbelow', fun f hf =>
      ⟨(hsame f hf).label, (hsame f hf).rival, (hsame f hf).item⟩⟩

/-- States that agree on what each of the events reads verify a request alike. -/
theorem verify_congr {s t : ForgeState} {evs : List ForgeEvent} (h : ∀ f ∈ evs, SameFor f s t)
    (actor : Actor) (role : Role) (next : ℕ) :
    s.verify actor role (number evs next).1 = t.verify actor role (number evs next).1 := by
  have hall := SameFor.number h next
  generalize (number evs next).1 = events at hall
  have hforM : events.forM (s.verifyEvent actor role) = events.forM (t.verifyEvent actor role) := by
    induction events with
    | nil => rfl
    | cons e events ih =>
      have hrest := ih fun f hf => hall f (List.mem_cons_of_mem _ hf)
      simp only [List.forM, verifyEvent_congr (hall e List.mem_cons_self) actor role, hrest]
  simp only [verify]
  rw [hforM]

end ForgeState

end Checks

end Walgit
