import Walgit.History

/-!
# Timeline ids

An entry's id in a timeline is the sequence number of its log entry and its index there, packed
into one number. As long as an entry has no more events than the index has room for, ids grow
along every timeline, and a comment is the only thing under its id.
-/
namespace Walgit

open Checks (guard_ok)

theorem map_modifyFirst {α β : Type} {p : α → Bool} {f : α → α} {g : α → β}
    (hf : ∀ a, g (f a) = g a) (l : List α) : (modifyFirst p f l).map g = l.map g := by
  induction l with
  | nil => rfl
  | cons a l ih =>
    unfold modifyFirst
    split_ifs
    · rw [List.map_cons, hf, List.map_cons]
    · rw [List.map_cons, ih, List.map_cons]

/-- The first element that satisfies the test is the one that is rewritten. -/
theorem modifyFirst_append {α : Type} {p : α → Bool} {f : α → α} {before after : List α} {a : α}
    (hbefore : ∀ b ∈ before, p b = false) (ha : p a = true) :
    modifyFirst p f (before ++ a :: after) = before ++ f a :: after := by
  induction before with
  | nil => simp [modifyFirst, ha]
  | cons b before ih =>
    obtain ⟨hb, hrest⟩ := List.forall_mem_cons.mp hbefore
    simp [modifyFirst, hb, ih hrest]

namespace Item

def ids (i : Item) : List ℕ := i.timeline.map TimelineItem.id

/-- Ids grow along the timeline and lie below a bound. -/
def IdsBelow (i : Item) (b : ℕ) : Prop := i.ids.Pairwise (· < ·) ∧ ∀ n ∈ i.ids, n < b

theorem IdsBelow.mono {i : Item} {b c : ℕ} (h : i.IdsBelow b) (hle : b ≤ c) : i.IdsBelow c :=
  ⟨h.1, fun n hn => (h.2 n hn).trans_le hle⟩

theorem IdsBelow.nodup {i : Item} {b : ℕ} (h : i.IdsBelow b) : i.ids.Nodup := h.1.imp Nat.ne_of_lt

/-- What an event may do to a timeline. -/
theorem IdsBelow.pushed {i j : Item} {id : ℕ} (h : i.IdsBelow id)
    (hids : j.ids = i.ids ∨ j.ids = i.ids ++ [id]) : j.IdsBelow (id + 1) := by
  rcases hids with hids | hids
  · refine ⟨hids ▸ h.1, fun n hn => ?_⟩
    have := h.2 n (hids ▸ hn)
    omega
  · refine ⟨?_, fun n hn => ?_⟩
    · rw [hids]
      exact List.pairwise_append.mpr ⟨h.1, List.pairwise_singleton _ _, fun a ha b hb => by
        rw [List.mem_singleton.mp hb]
        exact h.2 a ha⟩
    · rw [hids, List.mem_append, List.mem_singleton] at hn
      rcases hn with hn | rfl
      · have := h.2 n hn
        omega
      · exact Nat.lt_succ_self n

theorem ids_push (i : Item) (id : ℕ) (time : String) (ev : ForgeEvent) (t : Timeline) :
    (i.push id time ev t).ids = i.ids ++ [id] := by simp [ids, push]

theorem ids_editComment (i : Item) (e : ForgeEdit) : (i.editComment e).ids = i.ids := by
  unfold editComment
  split
  · exact map_modifyFirst (fun t => by unfold editBody; split <;> rfl) _
  · exact map_modifyFirst (fun t => by unfold deleteBody; split <;> rfl) _
  · rfl

theorem ids_applyBody (i : Item) (id : ℕ) (time : String) (ev : ForgeEvent) (body : ForgeBody) :
    (i.applyBody id time ev body).ids = i.ids ∨
      (i.applyBody id time ev body).ids = i.ids ++ [id] := by
  cases body with
  | opened o => exact Or.inl rfl
  | label l => exact Or.inl rfl
  | edit e =>
    simp only [applyBody]
    split_ifs
    · split
      · exact Or.inr (ids_push _ id time ev _)
      · exact Or.inl rfl
      · exact Or.inl rfl
    · exact Or.inl (ids_editComment i e)
  | state s =>
    by_cases hclosed : s.closed = true
    · simp only [applyBody, if_pos hclosed]
      exact Or.inr (ids_push _ id time ev _)
    · simp only [applyBody, if_neg hclosed]
      exact Or.inr (ids_push _ id time ev _)
  | _ => exact Or.inr (ids_push _ id time ev _)

/-- The item says that it was mentioned in another one. -/
def Mentions (i : Item) (source : ℕ) : Prop :=
  i.timeline.any (fun t => t.event == .referenced source) = true

theorem reference_of_mentions {i : Item} {ev : ForgeEvent} (h : i.Mentions ev.number) (id : ℕ)
    (time : String) : i.reference id time ev = i := if_pos h

theorem mentions_reference (i : Item) (id : ℕ) (time : String) (ev : ForgeEvent) :
    (i.reference id time ev).Mentions ev.number := by
  unfold reference
  split_ifs with h
  · exact h
  · simp [Mentions, push]

theorem ids_reference (i : Item) (id : ℕ) (time : String) (ev : ForgeEvent) :
    (i.reference id time ev).ids = i.ids ∨ (i.reference id time ev).ids = i.ids ++ [id] := by
  unfold reference
  split_ifs
  · exact Or.inl rfl
  · exact Or.inr (ids_push i id time ev _)

end Item

namespace ForgeState

def IdsBelow (s : ForgeState) (b : ℕ) : Prop := ∀ n i, s.items.find? n = some i → i.IdsBelow b

variable {s : ForgeState} {b id : ℕ}

theorem idsBelow_empty (b : ℕ) : empty.IdsBelow b := by
  intro n i hi
  simp [empty] at hi

theorem IdsBelow.mono {c : ℕ} (h : s.IdsBelow b) (hle : b ≤ c) : s.IdsBelow c :=
  fun n i hi => (h n i hi).mono hle

theorem idsBelow_opened (ev : ForgeEvent) (time : String) (o : ForgeOpened) (b : ℕ) :
    (Item.opened ev time o).IdsBelow b :=
  ⟨List.Pairwise.nil, fun n hn => by cases hn⟩

/-- The index of an event in its entry fits below the sequence number. -/
theorem id_eq {seq i : ℕ} (hi : i < 1024) : seq <<< 10 ||| i = seq * 1024 + i := by
  rw [← Nat.shiftLeft_add_eq_or_of_lt (by omega : i < 2 ^ 10), Nat.shiftLeft_eq]

/-- An event takes its id to no item but its own. -/
theorem IdsBelow.apply (h : s.IdsBelow id) (time : String) (ev : ForgeEvent) {n : ℕ} {i : Item}
    (hi : (s.apply id time ev).items.find? n = some i) :
    i.IdsBelow (id + 1) ∧ (n ≠ ev.number → i.IdsBelow id) := by
  have hold : ∀ j, s.items.find? n = some j → j.IdsBelow (id + 1) ∧ (n ≠ ev.number →
      j.IdsBelow id) := fun j hj => ⟨(h n j hj).mono (Nat.le_succ id), fun _ => h n j hj⟩
  unfold ForgeState.apply at hi
  split at hi
  · exact hold i hi
  · split_ifs at hi
    · rw [SortedMap.find?_mapValues, Option.map_eq_some_iff] at hi
      obtain ⟨j, hj, rfl⟩ := hi
      exact hold j hj
    · exact hold i hi
  · rw [SortedMap.find?_insert] at hi
    split_ifs at hi
    · cases hi
      exact ⟨idsBelow_opened ev time _ _, fun _ => idsBelow_opened ev time _ _⟩
    · exact hold i hi
  · rw [SortedMap.find?_modify] at hi
    split_ifs at hi with hn
    · obtain ⟨j, hj, rfl⟩ := Option.map_eq_some_iff.mp hi
      exact ⟨(h n j hj).pushed (Item.ids_applyBody { j with updatedAt := time } id time ev _),
        fun hne => absurd hn hne⟩
    · exact hold i hi

variable [Text.CharTables]

/-- References reach every other item at most once under the event's id. -/
theorem IdsBelow.event (h : s.IdsBelow id) (time : String) (ev : ForgeEvent) :
    ((s.apply id time ev).crossReference id time ev).IdsBelow (id + 1) := by
  unfold crossReference
  split
  · exact fun n i hi => (h.apply time ev hi).1
  · rename_i text _
    -- An item that the event may still reach has no entry under the id yet.
    let Reached (items : SortedMap ℕ Item) : Prop := ∀ n i, items.find? n = some i →
      i.IdsBelow (id + 1) ∧ (n ≠ ev.number → i.IdsBelow id ∨ i.Mentions ev.number)
    have hstart : Reached (s.apply id time ev).items := fun n i hi =>
      ⟨(h.apply time ev hi).1, fun hn => Or.inl ((h.apply time ev hi).2 hn)⟩
    have hstep : ∀ items, Reached items → ∀ n ∈ (mentions text).filter (· ≠ ev.number),
        Reached (items.modify n (·.reference id time ev)) := by
      intro items hitems n hn m i hi
      have hne : n ≠ ev.number := by simpa using (List.mem_filter.mp hn).2
      rw [SortedMap.find?_modify] at hi
      split_ifs at hi with hm
      · obtain ⟨j, hj, rfl⟩ := Option.map_eq_some_iff.mp hi
        refine ⟨?_, fun _ => Or.inr (Item.mentions_reference j id time ev)⟩
        obtain ⟨hbelow, hother⟩ := hitems m j hj
        rcases hother (hm ▸ hne) with hids | hmentions
        · exact hids.pushed (Item.ids_reference j id time ev)
        · rw [Item.reference_of_mentions hmentions]
          exact hbelow
      · exact hitems m i hi
    have hall := List.foldlRecOn _ (fun items n => items.modify n (·.reference id time ev)) hstart
      hstep
    exact fun n i hi => (hall n i hi).1

theorem IdsBelow.applyEvents {seq i : ℕ} {events : List ForgeEvent}
    (h : s.IdsBelow (seq * 1024 + i)) (hroom : i + events.length ≤ 1024) (time : String) :
    (s.applyEvents seq time i events).IdsBelow (seq * 1024 + (i + events.length)) := by
  induction events generalizing s i with
  | nil => exact h
  | cons ev events ih =>
    rw [List.length_cons] at hroom
    have hevent : ((s.apply (seq <<< 10 ||| i) time ev).crossReference (seq <<< 10 ||| i) time
        ev).IdsBelow (seq * 1024 + (i + 1)) := by
      rw [id_eq (by omega : i < 1024), ← Nat.add_assoc]
      exact h.event time ev
    have hlength : i + (events.length + 1) = i + 1 + events.length := by omega
    rw [List.length_cons, hlength]
    simp only [ForgeState.applyEvents]
    exact ih hevent (by omega)

theorem IdsBelow.foldEntry {e : LogEntry} (h : s.IdsBelow ((s.seq + 1) * 1024))
    (hroom : e.forge.length ≤ 1024) :
    (s.foldEntry e).IdsBelow (((s.foldEntry e).seq + 1) * 1024) := by
  unfold ForgeState.foldEntry
  split_ifs with hle hempty
  · exact h
  · exact h.mono (by simp only; omega)
  · have hstart : s.IdsBelow (e.seq * 1024 + 0) := h.mono (by omega)
    have hfits : 0 + e.forge.length ≤ 1024 := by omega
    have hevents := hstart.applyEvents hfits (forgeTime e.createdAt)
    exact hevents.mono (by simp only; omega)

theorem idsBelow_ofLog {log : List LogEntry} (hroom : ∀ e ∈ log, e.forge.length ≤ 1024) :
    (ofLog log).IdsBelow (((ofLog log).seq + 1) * 1024) :=
  List.foldlRecOn log foldEntry (motive := fun s => s.IdsBelow ((s.seq + 1) * 1024))
    (idsBelow_empty _) fun _ hs e he => hs.foldEntry (hroom e he)

/-- The states that a log leads to, also between the events of an entry. -/
def PassesThrough (log : List LogEntry) (s : ForgeState) : Prop :=
  s = ofLog log ∨ ∃ p e q k, log = p ++ e :: q ∧
    s = (ofLog p).applyEvents e.seq (forgeTime e.createdAt) 0 (e.forge.take k)

theorem PassesThrough.nodup {log : List LogEntry} (h : PassesThrough log s)
    (hsorted : Replay.Sorted LogEntry.seq log) (hpos : ∀ e ∈ log, 0 < e.seq)
    (hroom : ∀ e ∈ log, e.forge.length ≤ 1024) {n : ℕ} {i : Item}
    (hi : s.items.find? n = some i) : i.ids.Nodup := by
  rcases h with rfl | ⟨p, e, q, k, rfl, rfl⟩
  · exact (idsBelow_ofLog hroom n i hi).nodup
  · have he := hpos e (by simp)
    have hbefore : (ofLog p).seq ≤ e.seq - 1 := by
      refine Catchup.Fold.seq_foldl_le (F := follow) (Nat.zero_le _) fun e' he' => ?_
      exact Nat.le_sub_one_of_lt
        ((List.pairwise_append.mp hsorted).2.2 e' he' e List.mem_cons_self)
    have hstart := idsBelow_ofLog fun e' he' => hroom e' (List.mem_append_left _ he')
    have hlength := hroom e (by simp)
    have htake : 0 + (e.forge.take k).length ≤ 1024 := by
      rw [List.length_take]
      omega
    have hevents := (hstart.mono (by omega : _ ≤ e.seq * 1024 + 0)).applyEvents htake
      (forgeTime e.createdAt)
    exact (hevents n i hi).nodup

end ForgeState

/-- What an edit makes of the comment it names. -/
def ForgeEdit.rewrite (e : ForgeEdit) (t : TimelineItem) : TimelineItem :=
  match e.change with
  | some (.body b) => Item.editBody b t
  | some (.deleted true) => Item.deleteBody t
  | _ => t

/-- The comments an item has left after an edit of a live one. -/
def ForgeEdit.commentsLeft (e : ForgeEdit) (comments : ℕ) : ℕ :=
  if e.change = some (.deleted true) then comments - 1 else comments

section Edits

variable [Text.CharTables]

/-- A verified edit finds the comment it was verified for. -/
theorem Item.editComment_verified {i : Item} (hids : i.ids.Nodup) {actor : Actor} {role : Role}
    {e : ForgeEdit} (hcomment : e.commentId ≠ 0)
    (hok : verifyOnItem i actor role (.edit e) = .ok ()) :
    ∃ before t after, i.timeline = before ++ t :: after ∧ t.id = e.commentId ∧ t.event.isLive ∧
      i.editComment e = { i with
        timeline := before ++ e.rewrite t :: after
        comments := e.commentsLeft i.comments } := by
  simp only [verifyOnItem, if_neg hcomment] at hok
  split at hok
  · cases hok
  rename_i t hfind
  have hmem := List.mem_of_find?_eq_some hfind
  have htest := List.find?_some hfind
  simp only [Bool.and_eq_true, beq_iff_eq] at htest
  obtain ⟨hid, hlive⟩ := htest
  obtain ⟨before, after, htimeline⟩ := List.append_of_mem hmem
  have hother : ∀ u ∈ before, (u.id == e.commentId) = false := by
    intro u hu
    rw [ids, htimeline, List.map_append, List.map_cons] at hids
    have hne := (List.nodup_append.mp hids).2.2 u.id (List.mem_map_of_mem hu) t.id
      List.mem_cons_self
    simpa [← hid] using hne
  have hfirst : i.timeline.find? (fun u => u.id == e.commentId) = some t := by
    rw [htimeline, List.find?_append, List.find?_eq_none.mpr (by simpa using hother)]
    simp [hid]
  obtain ⟨body, edited, hevent⟩ : ∃ body edited, t.event = .comment body edited false := by
    cases hevent : t.event <;> simp_all
  have hrewrite : ∀ f, modifyFirst (fun u => u.id == e.commentId) f i.timeline =
      before ++ f t :: after := fun f => htimeline ▸ modifyFirst_append hother (by simp [hid])
  refine ⟨before, t, after, htimeline, hid, by simp [hevent, Timeline.isLive], ?_⟩
  unfold editComment
  simp only [hfirst, Option.map_some, hevent, hrewrite, ForgeEdit.rewrite, ForgeEdit.commentsLeft]
  cases hchange : e.change with
  | none => simp [← htimeline]
  | some change =>
    cases change with
    | title text => simp [← htimeline]
    | body text => simp
    | deleted flag => cases flag <;> simp [← htimeline]

/-- Applying a verified edit changes its item's time and that comment. -/
theorem ForgeState.apply_edit {s : ForgeState} {actor : Actor} {role : Role} {ev : ForgeEvent}
    {e : ForgeEdit} (hbody : ev.body = some (.edit e)) (hcomment : e.commentId ≠ 0)
    (hok : s.verifyEvent actor role ev = .ok ())
    (hids : ∀ i, s.items.find? ev.number = some i → i.ids.Nodup) (id : ℕ) (time : String) :
    ∃ i before t after, s.items.find? ev.number = some i ∧
      i.timeline = before ++ t :: after ∧ t.id = e.commentId ∧ t.event.isLive ∧
      s.apply id time ev = { s with
        items := s.items.insert ev.number { i with
          updatedAt := time
          timeline := before ++ e.rewrite t :: after
          comments := e.commentsLeft i.comments } } := by
  simp only [ForgeState.verifyEvent, hbody] at hok
  cases hi : s.items.find? ev.number with
  | none =>
    rw [hi] at hok
    cases hok
  | some i =>
    rw [hi] at hok
    have hedited : verifyOnItem { i with updatedAt := time } actor role (.edit e) = .ok () := hok
    obtain ⟨before, t, after, htimeline, hid, hlive, hedit⟩ :=
      Item.editComment_verified (i := { i with updatedAt := time }) (hids i hi) hcomment hedited
    refine ⟨i, before, t, after, rfl, htimeline, hid, hlive, ?_⟩
    simp only [ForgeState.apply, hbody, SortedMap.modify, hi, Item.applyBody, if_neg hcomment,
      hedit]

variable {cfg : Config} {access : Option RepoAccess} {now : Timestamp} {writer : String}
  {w : World} {actions : List Action}

/-- In every committed log whose entries have at most 1024 forge events each, an item's ids are
distinct, and a verified edit of a comment changes that comment. -/
theorem timeline_ids_distinct
    (hrun : Runs.run (step cfg) (World.created (createdManifest access now writer)) actions =
      some w) (hroom : ∀ e ∈ committedEntries w.gens, e.forge.length ≤ 1024) {s : ForgeState}
    (hs : ForgeState.PassesThrough (committedEntries w.gens) s) :
    (∀ n i, s.items.find? n = some i → (i.timeline.map TimelineItem.id).Nodup) ∧
    ∀ actor role ev e, ev.body = some (.edit e) → e.commentId ≠ 0 →
      s.verifyEvent actor role ev = .ok () → ∀ id time,
        ∃ i before t after, s.items.find? ev.number = some i ∧
          i.timeline = before ++ t :: after ∧ t.id = e.commentId ∧ t.event.isLive ∧
          s.apply id time ev = { s with
            items := s.items.insert ev.number { i with
              updatedAt := time
              timeline := before ++ e.rewrite t :: after
              comments := e.commentsLeft i.comments } } := by
  have h := inv_run hrun
  have hpos : ∀ e ∈ committedEntries w.gens, 0 < e.seq := fun e he => by
    obtain ⟨g, gs, hgens, -⟩ := h.current
    exact ((hgens ▸ h.chain : Chain cfg (g :: gs)).entry_bounds (hgens ▸ he)).1
  have hids : ∀ n i, s.items.find? n = some i → i.ids.Nodup := fun n i hi =>
    hs.nodup h.chain.sorted hpos hroom hi
  exact ⟨hids, fun actor role ev e hbody hcomment hok id time =>
    ForgeState.apply_edit hbody hcomment hok (hids ev.number) id time⟩

end Edits

section Floods

open ForgeState (ofLog)

attribute [local instance] Text.asciiTables

/-- Defines a label as often as given and then closes the first issue. -/
def labelsThenClose (n : ℕ) : PublishRequest :=
  { forge := List.replicate n ⟨0, "dev", "u1", some (.label ⟨"bug", "#ff0000", "", false⟩)⟩ ++
      [⟨1, "dev", "u1", some (.state ⟨true, "completed", "", ""⟩)⟩]
    actor := some developer }

/-- An issue is opened; then one request defines labels and closes it, and the next comments
on it. -/
def closedAndDiscussed (n : ℕ) : List Action :=
  let created := createdManifest (some sharedAccess) ⟨1, 0⟩ "w"
  let opening := forgeBatch 1 "a" created 0 .empty
    [forgeRequest 0 (.opened ⟨.issue, "crash", "on start", [], [], "", "", "", "", false⟩)]
  let after := (Runs.run (step ⟨3, List.length⟩) (World.created created) opening).map fun w =>
    (w.gens.head?.map Generation.manifest, ofLog (committedEntries w.gens))
  match after with
  | some (some m, forge) => opening ++ forgeBatch 2 "b" m 2 forge
      [labelsThenClose n, forgeRequest 1 (.comment ⟨"seen"⟩)]
  | _ => opening

/-- The edit of the comment with the id. -/
def commentEdit (id : ℕ) : ForgeEvent :=
  ⟨1, "dev", "u1", some (.edit ⟨id, some (.body "fixed")⟩)⟩

theorem timeline_ids_distinct_small :
    ∃ w : World, (committedEntries w.gens).length = 3 ∧
      ∃ i before t after, (ofLog (committedEntries w.gens)).items.find? 1 = some i ∧
        i.timeline = before ++ t :: after ∧ t.id = 3072 ∧ t.event.isLive := by
  have hrun : ((Runs.run (step ⟨3, List.length⟩)
      (World.created (createdManifest (some sharedAccess) ⟨1, 0⟩ "w")) (closedAndDiscussed 2)).map
        fun w : World => decide ((committedEntries w.gens).length = 3 ∧
          (∀ e ∈ committedEntries w.gens, e.forge.length ≤ 1024) ∧
          (ofLog (committedEntries w.gens)).verifyEvent developer .write (commentEdit 3072) =
            .ok ())) = some true := by decide
  obtain ⟨w, hw, heq⟩ := Option.map_eq_some_iff.mp hrun
  obtain ⟨hlength, hroom, hok⟩ := of_decide_eq_true heq
  obtain ⟨-, hedits⟩ := timeline_ids_distinct hw hroom (Or.inl rfl)
  obtain ⟨i, before, t, after, hi, htimeline, hid, hlive, -⟩ :=
    hedits developer .write (commentEdit 3072) _ rfl (by decide) hok 0 ""
  exact ⟨w, hlength, i, before, t, after, hi, htimeline, hid, hlive⟩

/-- The event with index 1024 of an entry has the id of the next entry's first one: the issue
closed there and the comment after it share an id, and the verified edit of the comment changes
nothing in the timeline. -/
theorem timeline_ids_distinct_flood :
    ∃ w s i, Runs.run (step ⟨3, List.length⟩)
        (World.created (createdManifest (some sharedAccess) ⟨1, 0⟩ "w")) (closedAndDiscussed 1024) =
          some w ∧
      s = ofLog (committedEntries w.gens) ∧ s.items.find? 1 = some i ∧
      i.timeline.map TimelineItem.id = [3072, 3072] ∧
      s.verifyEvent developer .write (commentEdit 3072) = .ok () ∧
      ((s.apply 4096 "" (commentEdit 3072)).items.find? 1).map Item.timeline =
        some i.timeline := by
  have hrun : ((Runs.run (step ⟨3, List.length⟩)
      (World.created (createdManifest (some sharedAccess) ⟨1, 0⟩ "w"))
      (closedAndDiscussed 1024)).bind fun w : World =>
        let s := ofLog (committedEntries w.gens)
        (s.items.find? 1).map fun i =>
          (i.timeline.map TimelineItem.id, s.verifyEvent developer .write (commentEdit 3072),
            decide (((s.apply 4096 "" (commentEdit 3072)).items.find? 1).map Item.timeline =
              some i.timeline))) = some ([3072, 3072], Except.ok (), true) := by decide +kernel
  obtain ⟨w, hw, hrest⟩ := Option.bind_eq_some_iff.mp hrun
  obtain ⟨i, hi, heq⟩ := Option.map_eq_some_iff.mp hrest
  simp only [Prod.mk.injEq, decide_eq_true_eq] at heq
  exact ⟨w, _, i, hw, rfl, hi, heq⟩

end Floods

end Walgit
