import Walgit.ColdLoads
import Walgit.Interference

/-!
# Forge states up to their times

A publisher folds its batch with other times than those it made durable, and a checkpoint may
drop the label changes made before the first item. So the forge state of a handle need not be the
fold of the log: its items are those of the fold up to times, and its labels are among those of
the fold. The checks of events cannot tell the two apart, but that they may miss a label.
-/
namespace Walgit

namespace TimelineItem

def untimed (t : TimelineItem) : TimelineItem := { t with time := "" }

@[simp] theorem untimed_idem (t : TimelineItem) : t.untimed.untimed = t.untimed := rfl

@[simp] theorem untimed_comp : untimed ∘ untimed = untimed := rfl

/-- A change that reads and sets no time. -/
theorem modifyFirst_untimed {f : TimelineItem → TimelineItem}
    (hf : ∀ t, f t.untimed = (f t).untimed) (n : ℕ) (l : List TimelineItem) :
    modifyFirst (fun t => t.id == n) f (l.map untimed) =
      (modifyFirst (fun t => t.id == n) f l).map untimed := by
  induction l with
  | nil => rfl
  | cons t l ih =>
    have htest : (t.untimed.id == n) = (t.id == n) := rfl
    simp only [List.map_cons, modifyFirst, htest]
    split_ifs
    · rw [hf t, List.map_cons]
    · rw [ih, List.map_cons]

end TimelineItem

namespace Item

/-- The item without its times. -/
def untimed (i : Item) : Item :=
  { i with
    createdAt := ""
    updatedAt := ""
    closedAt := none
    timeline := i.timeline.map TimelineItem.untimed }

theorem untimed_push (i : Item) (id : ℕ) (time : String) (ev : ForgeEvent) (t : Timeline) :
    (i.push id time ev t).untimed = i.untimed.push id "" ev t := by
  simp [push, untimed, TimelineItem.untimed]

theorem untimed_editComment (i : Item) (e : ForgeEdit) :
    (i.editComment e).untimed = i.untimed.editComment e := by
  have hfind : (i.untimed.timeline.find? fun t => t.id == e.commentId).map TimelineItem.event =
      (i.timeline.find? fun t => t.id == e.commentId).map TimelineItem.event := by
    simp only [untimed, List.find?_map, Option.map_map]
    rfl
  have hedit : ∀ b t, editBody b (TimelineItem.untimed t) = (editBody b t).untimed := by
    rintro b ⟨id, actor, actorId, time, event⟩
    cases event <;> rfl
  have hdelete : ∀ t, deleteBody (TimelineItem.untimed t) = (deleteBody t).untimed := by
    rintro ⟨id, actor, actorId, time, event⟩
    cases event <;> rfl
  unfold editComment
  rw [hfind]
  split
  · rename_i b _ _
    simp only [untimed, TimelineItem.modifyFirst_untimed (hedit b)]
  · simp only [untimed, TimelineItem.modifyFirst_untimed hdelete]
  · rfl

theorem untimed_idem (i : Item) : i.untimed.untimed = i.untimed := by
  simp [untimed]

/-- An event changes items that differ in times alike. -/
theorem applyBody_untimed {i j : Item} (h : i.untimed = j.untimed) (id : ℕ) (time time' : String)
    (ev : ForgeEvent) (b : ForgeBody) :
    ({ i with updatedAt := time }.applyBody id time ev b).untimed =
      ({ j with updatedAt := time' }.applyBody id time' ev b).untimed := by
  -- Both are what the event makes of the item without times.
  suffices hone : ∀ (i : Item) (time : String),
      ({ i with updatedAt := time }.applyBody id time ev b).untimed =
        (i.untimed.applyBody id "" ev b).untimed by
    rw [hone i time, hone j time', h]
  clear h
  intro i time
  have hset : ({ i with updatedAt := time } : Item).untimed = i.untimed := rfl
  cases b with
  | edit e =>
    simp only [applyBody]
    split_ifs
    · split
      · rw [untimed_push, untimed_push]
        simp [untimed]
      · simp [untimed]
      · rw [hset, untimed_idem]
    · rw [untimed_editComment, untimed_editComment, hset, untimed_idem]
  | state s =>
    simp only [applyBody]
    split_ifs <;> rw [untimed_push, untimed_push] <;> simp [untimed]
  | opened o => simp [applyBody, untimed]
  | label l => simp [applyBody, untimed]
  | _ =>
    simp only [applyBody]
    rw [untimed_push, untimed_push]
    simp [untimed]

theorem reference_untimed {i j : Item} (h : i.untimed = j.untimed) (id : ℕ)
    (time time' : String) (ev : ForgeEvent) :
    (i.reference id time ev).untimed = (j.reference id time' ev).untimed := by
  have hany : ∀ i : Item, i.timeline.any (fun t => t.event == .referenced ev.number) =
      i.untimed.timeline.any fun t => t.event == .referenced ev.number := by
    intro i
    simp only [untimed, List.any_map]
    rfl
  unfold reference
  rw [hany i, hany j, h]
  split_ifs
  · exact h
  · rw [untimed_push, untimed_push, h]

theorem sameFor_untimed (c : ForgeBody) {i j : Item} (h : i.untimed = j.untimed) :
    i.SameFor c j := by
  have hlive : ∀ (i : Item) n, i.liveComment n = i.untimed.liveComment n := by
    intro i n
    simp only [liveComment, untimed, List.find?_map, Option.map_map]
    rfl
  have hof : ∀ {β : Type} (φ : Item → β), (∀ k, φ k.untimed = φ k) → φ i = φ j := by
    intro β φ hφ
    rw [← hφ i, ← hφ j, h]
  exact ⟨hof number fun _ => rfl, hof kind fun _ => rfl, hof author fun _ => rfl,
    hof authorId fun _ => rfl, fun _ => ⟨hof state fun _ => rfl, hof merged fun _ => rfl⟩,
    fun _ => hof draft fun _ => rfl, fun e _ => by rw [hlive i, hlive j, h]⟩

end Item

namespace ForgeState

/-- The items are the same up to times, and every label is one of the other state's. -/
structure Within (s t : ForgeState) : Prop where
  items : s.items.mapValues Item.untimed = t.items.mapValues Item.untimed
  labels : ∀ name, (s.labels.find? name).isSome → (t.labels.find? name).isSome

variable {s t : ForgeState}

theorem Within.find? (h : Within s t) (n : ℕ) :
    (s.items.find? n).map Item.untimed = (t.items.find? n).map Item.untimed := by
  rw [← SortedMap.find?_mapValues, ← SortedMap.find?_mapValues, h.items]

theorem Within.of_find? (hitems : ∀ n, (s.items.find? n).map Item.untimed =
      (t.items.find? n).map Item.untimed)
    (hlabels : ∀ name, (s.labels.find? name).isSome → (t.labels.find? name).isSome) :
    Within s t := by
  refine ⟨?_, hlabels⟩
  ext1 n
  rw [SortedMap.find?_mapValues, SortedMap.find?_mapValues, hitems n]

/-- A change of both items that reads no time. -/
theorem Within.map_find? (h : Within s t) (n : ℕ) {g g' : Item → Item}
    (hg : ∀ i j, i.untimed = j.untimed → (g i).untimed = (g' j).untimed) :
    ((s.items.find? n).map g).map Item.untimed = ((t.items.find? n).map g').map Item.untimed := by
  have hn := h.find? n
  cases hs : s.items.find? n with
  | none =>
    cases ht : t.items.find? n with
    | none => rfl
    | some j => simp [hs, ht] at hn
  | some i =>
    cases ht : t.items.find? n with
    | none => simp [hs, ht] at hn
    | some j =>
      simp only [hs, ht, Option.map_some, Option.some.injEq] at hn
      simp only [Option.map_some, hg i j hn]

theorem Within.modify (h : Within s t) (n : ℕ) {g g' : Item → Item}
    (hg : ∀ i j, i.untimed = j.untimed → (g i).untimed = (g' j).untimed) :
    Within { s with items := s.items.modify n g } { t with items := t.items.modify n g' } := by
  refine .of_find? (fun m => ?_) h.labels
  simp only [SortedMap.find?_modify]
  split_ifs with hmn
  · exact h.map_find? m hg
  · exact h.find? m

theorem Within.apply (h : Within s t) (id : ℕ) (time time' : String) (ev : ForgeEvent) :
    Within (s.apply id time ev) (t.apply id time' ev) := by
  unfold ForgeState.apply
  cases ev.body with
  | none => exact h
  | some b =>
    cases b with
    | label l =>
      simp only
      split_ifs
      · refine .of_find? (fun n => ?_) fun name hname => ?_
        · simp only [SortedMap.find?_mapValues]
          exact h.map_find? n fun i j hij =>
            congrArg (fun k : Item => { k with labels := k.labels.erase l.name }) hij
        · simp only [SortedMap.find?_erase] at hname ⊢
          split_ifs at hname ⊢ with heq
          · simp at hname
          · exact h.labels name hname
      · refine ⟨h.items, fun name hname => ?_⟩
        simp only [SortedMap.find?_insert] at hname ⊢
        split_ifs at hname ⊢ with heq
        · rfl
        · exact h.labels name hname
    | opened o =>
      refine .of_find? (fun n => ?_) h.labels
      simp only [SortedMap.find?_insert]
      split_ifs with heq
      · rfl
      · exact h.find? n
    | _ => exact h.modify _ fun i j hij => Item.applyBody_untimed hij id time time' ev _

variable [Text.CharTables]

theorem Within.crossReference (h : Within s t) (id : ℕ) (time time' : String)
    (ev : ForgeEvent) : Within (s.crossReference id time ev) (t.crossReference id time' ev) := by
  unfold ForgeState.crossReference
  split
  · exact h
  · rename_i text _
    generalize (mentions text).filter (· ≠ ev.number) = targets
    induction targets generalizing s t with
    | nil => exact h
    | cons n targets ih =>
      exact ih (h.modify n fun i j hij => Item.reference_untimed hij id time time' ev)

theorem Within.applyEvents (h : Within s t) (seq : ℕ) (time time' : String) (i : ℕ)
    (evs : List ForgeEvent) :
    Within (s.applyEvents seq time i evs) (t.applyEvents seq time' i evs) := by
  induction evs generalizing s t i with
  | nil => exact h
  | cons ev evs ih =>
    exact ih ((h.apply (seq <<< 10 ||| i) time time' ev).crossReference _ time time' ev) (i + 1)

theorem Within.record (h : Within s t) {r q : ForgeRecord} (hseq : r.seq = q.seq)
    (hevents : r.events = q.events) : Within (s.applyRecord r) (t.applyRecord q) := by
  have hall := h.applyEvents q.seq (forgeTime r.at?) (forgeTime q.at?) 0 q.events
  rw [ForgeState.applyRecord, ForgeState.applyRecord, hseq, hevents]
  exact ⟨hall.items, hall.labels⟩

/-- Without items, events that open none leave it so. -/
theorem applyEvents_itemless (hs : s.items = .empty) (seq : ℕ) (time : String) (i : ℕ)
    {evs : List ForgeEvent} (hopens : opens evs = []) :
    (s.applyEvents seq time i evs).items = .empty := by
  induction evs generalizing s i with
  | nil => exact hs
  | cons ev evs ih =>
    have hev : ev.opens = false := by
      cases hev : ev.opens with
      | true => simp [opens_cons_of_pos evs hev] at hopens
      | false => rfl
    rw [opens_cons_of_neg evs hev] at hopens
    refine ih ?_ (i + 1) hopens
    have happly : (s.apply (seq <<< 10 ||| i) time ev).items = .empty := by
      unfold ForgeState.apply
      cases hbody : ev.body with
      | none => exact hs
      | some b =>
        cases b with
        | label l =>
          simp only
          split_ifs
          · rw [hs]
            rfl
          · exact hs
        | opened o => simp [ForgeEvent.opens, hbody] at hev
        | _ =>
          simp only [hs]
          rfl
    unfold ForgeState.crossReference
    split
    · exact happly
    · rename_i text _
      generalize (mentions text).filter (· ≠ ev.number) = targets
      simp only [happly]
      induction targets with
      | nil => rfl
      | cons n targets ih => exact ih

end ForgeState

/-- What a record tells besides its time. -/
def ForgeRecord.key (r : ForgeRecord) : ℕ × List ForgeEvent := (r.seq, r.events)

def LogEntry.forgeKey (e : LogEntry) : ℕ × List ForgeEvent := (e.seq, e.forge)

namespace ForgeState

section Records

variable [Text.CharTables] {s t : ForgeState}

theorem Within.foldl (h : Within s t) {rs qs : List ForgeRecord}
    (hkeys : rs.map ForgeRecord.key = qs.map ForgeRecord.key) :
    Within (rs.foldl applyRecord s) (qs.foldl applyRecord t) := by
  induction rs generalizing s t qs with
  | nil =>
    rw [List.map_nil, eq_comm, List.map_eq_nil_iff] at hkeys
    rw [hkeys]
    exact h
  | cons r rs ih =>
    cases qs with
    | nil => simp at hkeys
    | cons q qs =>
      rw [List.map_cons, List.map_cons, List.cons.injEq] at hkeys
      exact ih (h.record (congrArg Prod.fst hkeys.1) (congrArg Prod.snd hkeys.1)) hkeys.2

theorem foldl_itemless (hs : s.items = .empty) {rs : List ForgeRecord}
    (hopens : ∀ r ∈ rs, opens r.events = []) : (rs.foldl applyRecord s).items = .empty := by
  induction rs generalizing s with
  | nil => exact hs
  | cons r rs ih =>
    obtain ⟨hr, hrest⟩ := List.forall_mem_cons.mp hopens
    exact ih (applyEvents_itemless hs r.seq (forgeTime r.at?) 0 hr) hrest

/-- The first state lacks at most records from before the first item, and their times. -/
structure Resembles (s t : ForgeState) : Prop where
  seq : s.seq = t.seq
  records : ∃ early, t.records.map ForgeRecord.key = early ++ s.records.map ForgeRecord.key ∧
    ∀ k ∈ early, opens k.2 = []

/-- A state that resembles another one has its items, and labels among its labels. -/
theorem Resembles.within (h : Resembles s t) (hs : s.Rebuilt) (ht : t.Rebuilt) : Within s t := by
  obtain ⟨early, hkeys, hearly⟩ := h.records
  obtain ⟨qs, qs', hsplit, hqs, hqs'⟩ := List.map_eq_append_iff.mp hkeys
  have hbare : ∀ r ∈ qs, opens r.events = [] := fun r hr =>
    hearly r.key (hqs ▸ List.mem_map_of_mem hr)
  have hstart : Within empty (qs.foldl applyRecord empty) := by
    refine ⟨?_, fun name hname => ?_⟩
    · rw [foldl_itemless rfl hbare]
      rfl
    · simp [empty] at hname
  have hall := hstart.foldl hqs'.symm
  rw [← List.foldl_append, ← hsplit] at hall
  rw [← hs.2, ← ht.2]
  exact ⟨hall.items, hall.labels⟩

theorem Resembles.foldEntry (h : Resembles s t) {e e' : LogEntry}
    (hkey : e.forgeKey = e'.forgeKey) : Resembles (s.foldEntry e) (t.foldEntry e') := by
  obtain ⟨hseq, hforge⟩ := Prod.mk.inj hkey
  unfold ForgeState.foldEntry
  rw [hseq, hforge, h.seq]
  split_ifs
  · exact h
  · exact ⟨rfl, h.records⟩
  · obtain ⟨early, hkeys, hearly⟩ := h.records
    refine ⟨rfl, early, ?_, hearly⟩
    simp only [applyRecord_records, List.map_append, hkeys, List.append_assoc]
    rfl

theorem Resembles.foldEntries (h : Resembles s t) (after : ℕ) {es fs : List LogEntry}
    (hkeys : es.map LogEntry.forgeKey = fs.map LogEntry.forgeKey) :
    Resembles (s.foldEntries after es) (t.foldEntries after fs) := by
  unfold ForgeState.foldEntries
  rw [h.seq]
  split_ifs with hbehind
  · exact h
  · clear hbehind
    induction es generalizing s t fs with
    | nil =>
      rw [List.map_nil, eq_comm, List.map_eq_nil_iff] at hkeys
      rw [hkeys]
      exact h
    | cons e es ih =>
      cases fs with
      | nil => simp at hkeys
      | cons f fs =>
        rw [List.map_cons, List.map_cons, List.cons.injEq] at hkeys
        exact ih (h.foldEntry hkeys.1) hkeys.2

theorem fromHistory_records (n : ℕ) (rs : List ForgeRecord) :
    (fromHistory ⟨n, rs⟩).records = rs := by
  have hfold : ∀ s : ForgeState, (rs.foldl applyRecord s).records = s.records ++ rs := by
    induction rs with
    | nil => intro s; simp
    | cons r rs ih => intro s; simp [ih, applyRecord_records]
  simpa [fromHistory, empty] using hfold empty

theorem rebuilt_fromHistory {n : ℕ} {rs : List ForgeRecord} (h : ∀ r ∈ rs, r.seq ≤ n) :
    (fromHistory ⟨n, rs⟩).Rebuilt := by
  refine ⟨fun r hr => ?_, ?_⟩
  · rw [fromHistory_records] at hr
    exact h r hr
  · rw [fromHistory_records]
    rfl

/-- States that resemble each other have such histories. -/
theorem Resembles.historyUpto (h : Resembles s t) (n : ℕ) :
    Resembles (fromHistory (s.historyUpto n)) (fromHistory (t.historyUpto n)) := by
  obtain ⟨early, hkeys, hearly⟩ := h.records
  have hcut : ∀ rs : List ForgeRecord, (rs.filter fun r => r.seq ≤ n).map ForgeRecord.key =
      (rs.map ForgeRecord.key).filter fun k => k.1 ≤ n := by
    intro rs
    rw [List.filter_map]
    rfl
  refine ⟨rfl, early.filter fun k => k.1 ≤ n, ?_, fun k hk => hearly k (List.mem_of_mem_filter hk)⟩
  simp only [ForgeState.historyUpto, fromHistory_records]
  rw [hcut, hcut, hkeys, List.filter_append]

theorem Rebuilt.foldEntries (h : s.Rebuilt) (after : ℕ) (es : List LogEntry) :
    (s.foldEntries after es).Rebuilt := by
  unfold ForgeState.foldEntries
  split_ifs with hbehind
  · exact h
  · clear hbehind
    induction es generalizing s with
    | nil => exact h
    | cons e es ih => exact ih (h.foldEntry e)

end Records

section Checks

variable {s t : ForgeState}

theorem Within.rival (h : Within s t) (o : ForgeOpened) : s.rival o = t.rival o := by
  have huntimed : ∀ s : ForgeState, s.rival o =
      ((s.items.mapValues Item.untimed).values.find? (Item.rivals o)).map Item.number := by
    intro s
    simp only [ForgeState.rival, SortedMap.values, SortedMap.mapValues, List.map_map,
      List.find?_map, Option.map_map]
    rfl
  rw [huntimed s, huntimed t, h.items]

variable [Text.CharTables]

/-- Only the deletion of a label asks for labels. -/
theorem verifyLabel_mono {role : Role} {l : ForgeLabel}
    (h : l.deleted → (s.labels.find? l.name).isSome → (t.labels.find? l.name).isSome)
    (hok : verifyLabel s role l = .ok ()) : verifyLabel t role l = .ok () := by
  simp only [verifyLabel, Checks.guard_ok, Checks.last_ok, Bool.and_eq_true, not_and,
    ← Option.not_isSome, Bool.not_eq_true', Bool.not_eq_false] at hok ⊢
  obtain ⟨hrole, hname, hcolor, hlabel, hdone⟩ := hok
  exact ⟨hrole, hname, hcolor, fun hd => h hd (hlabel hd), hdone⟩

/-- What passes the check of a state passes that of one with more labels. -/
theorem Within.verifyEvent (h : Within s t) {actor : Actor} {role : Role} {ev : ForgeEvent}
    (hok : s.verifyEvent actor role ev = .ok ()) : t.verifyEvent actor role ev = .ok () := by
  by_cases hlabel : ∃ l, ev.body = some (.label l)
  · obtain ⟨l, hl⟩ := hlabel
    simp only [ForgeState.verifyEvent, hl] at hok ⊢
    exact verifyLabel_mono (fun _ => h.labels l.name) hok
  · have hsame : SameFor ev s t := by
      refine ⟨fun l hl => absurd ⟨l, hl⟩ hlabel, fun o _ _ => h.rival o, fun c _ _ => ?_⟩
      have hn := h.find? ev.number
      cases hs : s.items.find? ev.number with
      | none =>
        cases ht : t.items.find? ev.number with
        | none => exact .none
        | some j => simp [hs, ht] at hn
      | some i =>
        cases ht : t.items.find? ev.number with
        | none => simp [hs, ht] at hn
        | some j =>
          simp only [hs, ht, Option.map_some, Option.some.injEq] at hn
          exact .some (Item.sameFor_untimed c hn)
    rw [← verifyEvent_congr hsame]
    exact hok

end Checks

end ForgeState

section Log

variable [Text.CharTables] {cfg : Config} {w : World}

/-- A forge state is the fold of a prefix of the committed log, up to what no check reads. -/
structure ForgeState.Traces (f : ForgeState) (w : World) : Prop where
  rebuilt : f.Rebuilt
  fold : ∃ t, t.On w ∧ f.Resembles t

theorem standing_traces : Standing cfg ForgeState.Traces where
  empty h := ⟨ForgeState.rebuilt_foldl [], .empty, standing_on.empty h, rfl, [], rfl, by simp⟩
  grows hf h' hgrows := by
    obtain ⟨hrebuilt, t, ht, hlike⟩ := hf
    exact ⟨hrebuilt, t, ht.grows h' hgrows, hlike⟩
  foldEntries hf h hg hafter hread := by
    obtain ⟨hrebuilt, t, ht, hlike⟩ := hf
    exact ⟨hrebuilt.foldEntries _ _, _, ht.foldEntries h hg hafter hread, hlike.foldEntries _ rfl⟩

/-- A second build of a batch has the numbers and events of the first. -/
theorem Origin.Wrote.rebuilt_forgeKey {o : Origin} (h : o.Wrote) {reqs : List PublishRequest}
    (hjob : o.job = .batch reqs) (clock : ℕ → Timestamp) :
    (o.rebuilt reqs clock).map LogEntry.forgeKey = o.slot.bytes.map LogEntry.forgeKey := by
  obtain ⟨written, es, hes, -, hbytes⟩ := h
  rw [hjob] at hes
  cases hes
  refine List.ext_getElem? fun k => ?_
  rw [hbytes, List.getElem?_map, List.getElem?_map, withNonce_getElem?_map, Origin.rebuilt,
    buildEntries_getElem?, buildEntries_getElem?]
  cases (accepted reqs (verifyBatch o.attempt.basis reqs).1)[k]? with
  | none => rfl
  | some m =>
    simp only [Option.map_some]
    split_ifs <;> rfl

/-- What a publisher folds of its own batch leaves it along the log. -/
theorem ForgeState.Traces.foldRebuilt {f : ForgeState} (hf : f.Traces w) (h : Inv cfg w)
    {o : Origin} (ho : Committed w o) {reqs : List PublishRequest} (hjob : o.job = .batch reqs)
    (clock : ℕ → Timestamp) :
    (f.foldEntries o.attempt.basis.manifest.headSeq (o.rebuilt reqs clock)).Traces w := by
  obtain ⟨hrebuilt, t, ht, hlike⟩ := hf
  have hclaim := h.claims o (h.claimed o ho)
  obtain ⟨g, hg, ho⟩ := ho
  have hon : (t.foldEntries o.attempt.basis.manifest.headSeq o.slot.bytes).On w := by
    rw [← h.chain.span hg ho le_rfl hclaim.burned.1]
    exact Catchup.Fold.Reached.foldFrom ht h.ordered _ _
  exact ⟨hrebuilt.foldEntries _ _, _, hon,
    hlike.foldEntries _ (hclaim.wrote.rebuilt_forgeKey hjob clock)⟩

/-- The next number of a manifest counts the items its log opens. -/
theorem Chain.opened {g : Generation} {gens : List Generation} (h : Chain cfg (g :: gens)) :
    max g.manifest.forgeNextNumber 1 =
      1 + (ForgeState.openedNumbers (committedEntries (g :: gens))).length := by
  generalize hl : g :: gens = l at h
  induction h generalizing g gens with
  | created access now writer version =>
    cases hl
    rfl
  | append older o now m version basis wrote burned edit newer ih =>
    cases hl
    have hnext := (wrote.numbers edit).2
    rw [basis, ih rfl] at hnext
    change max m.forgeNextNumber 1 = 1 + (ForgeState.openedNumbers
      (committedEntries _ ++ o.slot.bytes)).length
    rw [ForgeState.openedNumbers_append, List.length_append, hnext, Nat.add_assoc]
  | rewrite older job policy writer now m version edit folded newer ih =>
    cases hl
    have hnext : m.forgeNextNumber = _ := congrArg (fun r => r.2.2) (MetaJob.manifest_records edit)
    change max m.forgeNextNumber 1 = 1 + (ForgeState.openedNumbers
      (committedEntries _ ++ [])).length
    rw [hnext, List.append_nil]
    exact ih rfl

/-- The records of a log that opens nothing. -/
theorem records_bare {es : List LogEntry} (hsorted : Replay.Sorted LogEntry.seq es)
    (hpos : ∀ e ∈ es, 0 < e.seq) (hopens : ForgeState.openedNumbers es = []) :
    ∀ r ∈ (ForgeState.ofLog es).records, ForgeState.opens r.events = [] := by
  intro r hr
  have hrecords := ForgeState.recorded.records_foldl hsorted ForgeState.empty hpos
  change (ForgeState.ofLog es).records = _ at hrecords
  rw [hrecords] at hr
  obtain ⟨e, he, hre⟩ := List.mem_flatMap.mp ((List.mem_append.mp hr).resolve_left (by
    simp [ForgeState.recorded, ForgeState.empty]))
  simp only [ForgeState.recorded] at hre
  split_ifs at hre
  · cases hre
  · rw [List.mem_singleton.mp hre]
    have hsub : ForgeState.opens e.forge ⊆ ForgeState.openedNumbers es := by
      obtain ⟨front, back, rfl⟩ := List.append_of_mem he
      rw [ForgeState.openedNumbers_append, ForgeState.openedNumbers_cons]
      exact fun n hn => List.mem_append_right _ (List.mem_append_left _ hn)
    exact List.subset_nil.mp (hopens ▸ hsub)

/-- A checkpoint made of a committed manifest. If the manifest counts no item, no item was opened
below it. -/
theorem draft_traces (h : Inv cfg w) {view : PublicationView}
    (hview : ∃ g ∈ w.gens, g.manifest = view.manifest) {forge : Option ForgeState}
    (hforge : ∀ f ∈ forge, f.Traces w) {createdAt firstStateAt asOf : Option Timestamp}
    {cp : CheckpointRef} (hdraft : view.draft forge createdAt firstStateAt asOf = some cp) :
    cp.Holds ForgeState.Traces w := by
  by_cases hcounts : 0 < view.manifest.forgeNextNumber
  · unfold PublicationView.draft at hdraft
    simp only [if_pos hcounts] at hdraft
    split at hdraft
    · rename_i f
      split_ifs at hdraft with hle
      cases hdraft
      obtain ⟨hrebuilt, t, ht, hlike⟩ := hforge f rfl
      -- The fold of the log makes a checkpoint of its own, one that keeps the history.
      have hstored : w.forgeStored view.manifest := by simp [World.forgeStored, hcounts]
      have hdraft : view.draft (some t) createdAt firstStateAt asOf = some
          ⟨view.manifest.headSeq, createdAt, firstStateAt, asOf, view.refs,
            some (t.historyUpto view.manifest.headSeq)⟩ := by
        simp only [PublicationView.draft, if_pos hcounts, if_pos (hlike.seq ▸ hle)]
      have hkept := draft_kept h hview (fun f hf => Option.some.inj hf ▸ ht) hstored hdraft
      refine ⟨⟨?_, _, hkept.on, hlike.historyUpto view.manifest.headSeq⟩, rfl⟩
      exact ForgeState.rebuilt_fromHistory fun r hr => by
        simpa using (List.mem_filter.mp hr).2
    · cases hdraft
  · unfold PublicationView.draft at hdraft
    simp only [if_neg hcounts] at hdraft
    cases hdraft
    obtain ⟨g, hg, hm⟩ := hview
    obtain ⟨gens, hsuffix⟩ := exists_suffix hg
    have hchain := h.chain.suffix hsuffix
    have hnone : ForgeState.openedNumbers (committedEntries (g :: gens)) = [] := by
      have hnext := hchain.opened
      rw [hm] at hnext
      exact List.length_eq_zero_iff.mp (by omega)
    have hlog : forgeAt w view.manifest.headSeq = ForgeState.ofLog (committedEntries (g :: gens)) := by
      rw [← h.chain.upTo_head hsuffix, hm]
      rfl
    have hbare := records_bare hchain.sorted (fun e he => (hchain.entry_bounds he).1) hnone
    have hnothing : ∀ r ∈ ([] : List ForgeRecord), r.seq ≤ view.manifest.headSeq := by simp
    refine ⟨⟨ForgeState.rebuilt_fromHistory hnothing, _,
      .forgeAt h view.manifest.headSeq, ?_, _, (List.append_nil _).symm, ?_⟩, rfl⟩
    · exact (hm ▸ h.seq_forgeAt hg).symm
    · intro k hk
      rw [hlog] at hk
      obtain ⟨r, hr, rfl⟩ := List.mem_map.mp hk
      exact hbare r hr

end Log

namespace ForgeLoads

variable [Text.CharTables] {cfg : Config}

/-- One event. -/
theorem step_traces {s s' : ForgeLoads} {e : LoadEvent} (h : s.Holds ForgeState.Traces cfg)
    (hstep : step cfg s e = some s') : s'.Holds ForgeState.Traces cfg := by
  refine h.step standing_traces (fun d c _ hc => ?_) hstep
  have hinv := h.cluster.world
  exact h.cluster.step standing_traces
    (fun t clock task handle _ ht hh => hh.foldTask hinv ht fun o reqs ho hjob _ f hf =>
      hf.foldRebuilt hinv ho hjob clock)
    (fun i k createdAt firstStateAt asOf view forge cp _ _ hview hforge hcp =>
      draft_traces hinv hview hforge hcp) hc

end ForgeLoads

end Walgit
