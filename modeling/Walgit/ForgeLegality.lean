import Walgit.ForgeCaptures

/-!
# The legality of forge events

A batch is verified against the forge state at its basis, event by event, and not against what
its own earlier events leave. An event is legal where it stands unless an earlier event of its
batch takes away what its check found.
-/
namespace Walgit

open Checks (guard_ok last_ok forM_ok)
open ForgeState (ofLog number number_cons)

namespace ForgeEvent

/-- The event removes the label from the repository. -/
def deletes (name : String) (ev : ForgeEvent) : Bool :=
  match ev.body with
  | some (.label l) => l.deleted && l.name = name
  | _ => false

/-- The event with the number it is given, if it opens an item. -/
def Renumbered (ev x : ForgeEvent) : Prop :=
  x.body = ev.body ∧ ((∀ o, x.body ≠ some (.opened o)) → x = ev)

theorem Renumbered.deletes {ev x : ForgeEvent} (h : ev.Renumbered x) (name : String) :
    x.deletes name = ev.deletes name := by
  simp only [ForgeEvent.deletes, h.1]

end ForgeEvent

namespace ForgeState

theorem number_renumbered (ev : ForgeEvent) (evs : List ForgeEvent) (next : ℕ) :
    ∃ x next', number (ev :: evs) next = (x :: (number evs next').1, (number evs next').2) ∧
      ev.Renumbered x := by
  obtain ⟨x, next', hnumber, hbody, -, -, hother⟩ := number_cons ev evs next
  exact ⟨x, next', hnumber, hbody, hother⟩

/-- An event of a numbered list comes after the numbered events before it. -/
theorem number_split {evs l l' : List ForgeEvent} {next : ℕ} {x : ForgeEvent}
    (h : (number evs next).1 = l ++ x :: l') :
    ∃ front ev back, evs = front ++ ev :: back ∧ (number front next).1 = l ∧ ev.Renumbered x := by
  induction evs generalizing next l with
  | nil => simp [number] at h
  | cons ev evs ih =>
    cases l with
    | nil =>
      obtain ⟨y, next', hnumber, hrenumbered⟩ := number_renumbered ev evs next
      rw [hnumber, List.nil_append, List.cons.injEq] at h
      exact ⟨[], ev, evs, rfl, rfl, h.1 ▸ hrenumbered⟩
    | cons y l =>
      -- The numbers of the events before do not depend on those behind.
      have hstep : ∀ evs, number (ev :: evs) next =
          ((number [ev] next).1 ++ (number evs (number [ev] next).2).1,
            (number evs (number [ev] next).2).2) := by
        intro evs
        simp only [number]
        split <;> rfl
      have hone : ∃ z, (number [ev] next).1 = [z] := by
        simp only [number]
        split <;> exact ⟨_, rfl⟩
      obtain ⟨z, hz⟩ := hone
      rw [hstep evs, hz, List.singleton_append, List.cons_append, List.cons.injEq] at h
      obtain ⟨front, ev', back, rfl, hfront, hrenumbered⟩ := ih h.2
      refine ⟨ev :: front, ev', back, rfl, ?_, hrenumbered⟩
      rw [hstep front, hz, hfront, ← h.1]
      rfl

/-- Where both are legal in `s`, the first event takes away what the check of the second found. -/
def spoils (s : ForgeState) (next : ℕ) (e f : ForgeEvent) : Bool :=
  match f.body with
  | some (.label m) => m.deleted && e.deletes m.name
  | _ => s.interferes next e f

theorem spoils_renumbered (s : ForgeState) (next : ℕ) (e : ForgeEvent) {f x : ForgeEvent}
    (h : f.Renumbered x) : s.spoils next e x = s.spoils next e f := by
  by_cases hopened : ∃ o, x.body = some (.opened o)
  · obtain ⟨o, ho⟩ := hopened
    have hf := h.1 ▸ ho
    simp only [spoils, interferes, ho, hf]
  · rw [h.2 fun o ho => hopened ⟨o, ho⟩]

theorem Within.interferes {s t : ForgeState} (h : Within s t) (hseq : s.seq = t.seq) (next : ℕ)
    (e f : ForgeEvent) : s.interferes next e f = t.interferes next e f := by
  have hbranches : ∀ p : ForgeOpened,
      ((s.items.find? e.number).all fun i => i.baseRef = p.baseRef && i.headRef = p.headRef) =
        (t.items.find? e.number).all fun i => i.baseRef = p.baseRef && i.headRef = p.headRef := by
    intro p
    have huntimed : ∀ x : Option Item, (x.all fun i => i.baseRef = p.baseRef &&
        i.headRef = p.headRef) = (x.map Item.untimed).all fun i => i.baseRef = p.baseRef &&
          i.headRef = p.headRef := by
      intro x
      cases x <;> rfl
    rw [huntimed, huntimed (t.items.find? e.number), h.find?]
  unfold ForgeState.interferes
  simp only [hbranches, hseq]

theorem Within.spoils {s t : ForgeState} (h : Within s t) (hseq : s.seq = t.seq) (next : ℕ)
    (e f : ForgeEvent) : s.spoils next e f = t.spoils next e f := by
  unfold ForgeState.spoils
  rw [h.interferes hseq]

theorem apply_labels (s : ForgeState) (id : ℕ) (time : String) {ev : ForgeEvent} {name : String}
    (hkeeps : ev.deletes name = false) (h : (s.labels.find? name).isSome) :
    ((s.apply id time ev).labels.find? name).isSome := by
  unfold ForgeState.apply
  cases hbody : ev.body with
  | none => exact h
  | some b =>
    cases b with
    | label l =>
      simp only [ForgeEvent.deletes, hbody, Bool.and_eq_false_iff, decide_eq_false_iff_not]
        at hkeeps
      simp only
      split_ifs with hdeleted
      · have hne : name ≠ l.name := fun heq => (hkeeps.resolve_left (by simp [hdeleted])) heq.symm
        simpa [hne] using h
      · rw [SortedMap.find?_insert]
        split_ifs
        · rfl
        · exact h
    | _ => exact h

theorem number_deletes {evs : List ForgeEvent} {name : String}
    (h : ∀ e ∈ evs, e.deletes name = false) (next : ℕ) :
    ∀ e ∈ (number evs next).1, e.deletes name = false := by
  intro x hx
  obtain ⟨l, l', hsplit⟩ := List.append_of_mem hx
  obtain ⟨front, ev, back, rfl, -, hrenumbered⟩ := number_split hsplit
  rw [hrenumbered.deletes]
  exact h ev (by simp)

theorem number_isEmpty (evs : List ForgeEvent) (next : ℕ) :
    (number evs next).1.isEmpty = evs.isEmpty := by
  cases evs with
  | nil => rfl
  | cons ev evs =>
    obtain ⟨x, next', hnumber, -⟩ := number_renumbered ev evs next
    rw [hnumber]
    rfl

variable {s s₀ : ForgeState} {first next : ℕ} {earlier : List ForgeEvent}

/-- What checks find in a state that some events leave of `s₀`. -/
structure Leaves (s₀ : ForgeState) (first : ℕ) (earlier : List ForgeEvent) (next : ℕ)
    (s : ForgeState) : Prop where
  keeps : s₀.Keeps s
  below : s.Below next
  fresh : first ≤ next
  seq : s₀.seq ≤ s.seq
  same : ∀ f, (∀ e ∈ earlier, s₀.interferes first e f = false) → SameFor f s s₀
  labels : ∀ name, (∀ e ∈ earlier, e.deletes name = false) → (s₀.labels.find? name).isSome →
    (s.labels.find? name).isSome

theorem Leaves.refl (h : s.Below next) : Leaves s next [] next s :=
  ⟨.refl s, h, le_rfl, le_rfl, fun f _ => .refl f s, fun _ _ h => h⟩

section Checks

variable [Text.CharTables]

theorem crossReference_labels (s : ForgeState) (id : ℕ) (time : String) (ev : ForgeEvent) :
    (s.crossReference id time ev).labels = s.labels := by
  unfold ForgeState.crossReference
  split
  · rfl
  · rename_i text _
    generalize (mentions text).filter (· ≠ ev.number) = targets
    induction targets generalizing s with
    | nil => rfl
    | cons n targets ih => exact ih _

/-- Events that do not delete a label keep it. -/
theorem applyEvents_labels {name : String} (seq : ℕ) (time : String) (i : ℕ)
    {evs : List ForgeEvent} (hkeep : ∀ e ∈ evs, e.deletes name = false)
    (h : (s.labels.find? name).isSome) :
    ((s.applyEvents seq time i evs).labels.find? name).isSome := by
  induction evs generalizing s i with
  | nil => exact h
  | cons ev evs ih =>
    obtain ⟨hev, hrest⟩ := List.forall_mem_cons.mp hkeep
    refine ih (i + 1) hrest ?_
    rw [crossReference_labels]
    exact apply_labels s _ time hev h

theorem foldEntry_labels {name : String} {entry : LogEntry}
    (hkeep : ∀ e ∈ entry.forge, e.deletes name = false) (h : (s.labels.find? name).isSome) :
    ((s.foldEntry entry).labels.find? name).isSome := by
  unfold foldEntry
  split_ifs
  · exact h
  · exact h
  · exact applyEvents_labels entry.seq _ 0 hkeep h

theorem verifyEvent_renumbered (s : ForgeState) (actor : Actor) (role : Role) {ev x : ForgeEvent}
    (h : ev.Renumbered x) : s.verifyEvent actor role x = s.verifyEvent actor role ev := by
  by_cases hopened : ∃ o, x.body = some (.opened o)
  · obtain ⟨o, ho⟩ := hopened
    have hev := h.1 ▸ ho
    simp only [verifyEvent, ho, hev]
  · rw [h.2 fun o ho => hopened ⟨o, ho⟩]

/-- What a request is refused for does not depend on the numbers its items are given. -/
theorem verify_number (s : ForgeState) (actor : Actor) (role : Role) (evs : List ForgeEvent)
    (next : ℕ) : s.verify actor role (number evs next).1 = s.verify actor role evs := by
  have hevents : (number evs next).1.forM (s.verifyEvent actor role) =
      evs.forM (s.verifyEvent actor role) := by
    induction evs generalizing next with
    | nil => rfl
    | cons ev evs ih =>
      obtain ⟨x, next', hnumber, hrenumbered⟩ := number_renumbered ev evs next
      rw [hnumber]
      simp only [List.forM, verifyEvent_renumbered s actor role hrenumbered, ih next']
  simp only [verify, number_isEmpty]
  rw [hevents]

/-- One more entry. -/
theorem Leaves.foldEntry (h : Leaves s₀ first earlier next s) {entry : LogEntry}
    {evs : List ForgeEvent} (hforge : entry.forge = (number evs next).1)
    (hseq : s.seq < entry.seq) :
    Leaves s₀ first (earlier ++ evs) (number evs next).2 (s.foldEntry entry) := by
  obtain ⟨hkeeps, hbelow, hsame⟩ := foldEntry_frame hforge hseq h.seq h.keeps h.below h.fresh
  refine ⟨hkeeps, hbelow, h.fresh.trans (number_le evs next), ?_, fun f hf => ?_,
    fun name hname hsome => ?_⟩
  · rw [foldEntry_seq]
    exact h.seq.trans (le_max_left _ _)
  · exact (hsame f fun e he => hf e (List.mem_append_right _ he)).trans
      (h.same f fun e he => hf e (List.mem_append_left _ he))
  · refine foldEntry_labels ?_ (h.labels name (fun e he => hname e (List.mem_append_left _ he))
      hsome)
    rw [hforge]
    exact number_deletes (fun e he => hname e (List.mem_append_right _ he)) next

/-- An event that none of the events before it spoils is as legal as it was. -/
theorem Leaves.verifyEvent (h : Leaves s₀ first earlier next s) {actor : Actor} {role : Role}
    {ev : ForgeEvent} (hspoils : ∀ e ∈ earlier, s₀.spoils first e ev = false)
    (hok : s₀.verifyEvent actor role ev = .ok ()) : s.verifyEvent actor role ev = .ok () := by
  by_cases hlabel : ∃ l, ev.body = some (.label l)
  · obtain ⟨l, hl⟩ := hlabel
    simp only [ForgeState.verifyEvent, hl] at hok ⊢
    refine verifyLabel_mono (fun hdeleted => ?_) hok
    refine h.labels l.name fun e he => ?_
    simpa [ForgeState.spoils, hl, hdeleted] using hspoils e he
  · rw [verifyEvent_congr (h.same ev fun e he => ?_)]
    · exact hok
    · have hfree := hspoils e he
      unfold ForgeState.spoils at hfree
      split at hfree
      · rename_i m hm
        exact absurd ⟨m, hm⟩ hlabel
      · exact hfree

/-- An event of an entry that neither the events before the entry nor those before it in the entry
spoil. -/
theorem Leaves.event (h : Leaves s₀ first earlier next s) {entry : LogEntry}
    {evs : List ForgeEvent} (hforge : entry.forge = (number evs next).1)
    (hseq : s.seq < entry.seq)
    (hcalm : (earlier ++ evs).Pairwise fun e f => s₀.spoils first e f = false)
    {l l' : List ForgeEvent} {x : ForgeEvent} (hsplit : entry.forge = l ++ x :: l')
    {actor : Actor} {role : Role} (hok : s₀.verifyEvent actor role x = .ok ()) :
    (s.foldEntry { entry with forge := l }).verifyEvent actor role x = .ok () := by
  obtain ⟨front, ev, back, rfl, rfl, hrenumbered⟩ := number_split (hforge.symm.trans hsplit)
  have hentry : ({ entry with forge := (number front next).1 } : LogEntry).forge =
    (number front next).1 := rfl
  refine (h.foldEntry hentry hseq).verifyEvent (fun e he => ?_) hok
  rw [s₀.spoils_renumbered first e hrenumbered]
  rw [← List.append_assoc] at hcalm
  exact (List.pairwise_append.mp hcalm).2.2 e he ev List.mem_cons_self

/-- A request that passes, and one of its events that passes elsewhere. -/
theorem verify_single {t : ForgeState} {actor : Actor} {role : Role} {evs : List ForgeEvent}
    (h : s.verify actor role evs = .ok ()) {ev : ForgeEvent}
    (hev : t.verifyEvent actor role ev = .ok ()) : t.verify actor role [ev] = .ok () := by
  simp only [verify, guard_ok, forM_ok] at h ⊢
  refine ⟨by simp, h.2.1, h.2.2.1, fun e he => ?_⟩
  rw [List.mem_singleton.mp he]
  exact hev

/-- A request that passes the check of a state passes that of one with more labels. -/
theorem Within.verify {t : ForgeState} (h : Within s t) {actor : Actor} {role : Role}
    {evs : List ForgeEvent} (hok : s.verify actor role evs = .ok ()) :
    t.verify actor role evs = .ok () := by
  simp only [ForgeState.verify, guard_ok, forM_ok] at hok ⊢
  exact ⟨hok.1, hok.2.1, hok.2.2.1, fun ev hev => h.verifyEvent (hok.2.2.2 ev hev)⟩

end Checks

end ForgeState

section Batches

variable [Text.CharTables] {b : Basis} {w : Working} {reqs : List PublishRequest}
  {s s₀ : ForgeState} {first : ℕ} {earlier : List ForgeEvent} {es : List LogEntry}

theorem forgeErrorOf_number (b : Basis) (req : PublishRequest) (next : ℕ) :
    forgeErrorOf b req (number req.forge next).1 = forgeErrorOf b req req.forge := by
  have hverify : ∀ actor role, b.forge.verify actor role (number req.forge next).1 =
      b.forge.verify actor role req.forge := fun actor role =>
    b.forge.verify_number actor role req.forge next
  have hempty : (number req.forge next).1.isEmpty = req.forge.isEmpty :=
    ForgeState.number_isEmpty req.forge next
  simp only [forgeErrorOf, hverify, hempty]

/-- The events of the requests that the forge state of the basis does not refuse. -/
def Basis.admitted (b : Basis) (reqs : List PublishRequest) : List ForgeEvent :=
  (reqs.filter fun req => (forgeErrorOf b req req.forge).isNone).flatMap PublishRequest.forge

theorem Basis.admitted_cons (b : Basis) (req : PublishRequest) (reqs : List PublishRequest) :
    b.admitted (req :: reqs) =
      (if (forgeErrorOf b req req.forge).isNone then req.forge else []) ++ b.admitted reqs := by
  unfold Basis.admitted
  rw [List.filter_cons]
  split_ifs <;> rfl

/-- Each event of an accepted member is legal where it is folded, if none spoils a later one. -/
theorem ForgeState.Leaves.batch (h : Leaves s₀ first earlier w.forgeNext s)
    (hwithin : b.forge.Within s₀)
    (hcalm : (earlier ++ b.admitted reqs).Pairwise fun e f => s₀.spoils first e f = false)
    (hforge : es.map LogEntry.forge = (accepted reqs (judgeAll b w reqs).1).map Prod.snd)
    (hseqs : (s.seq :: es.map LogEntry.seq).Pairwise (· < ·))
    {before after : List LogEntry} {e : LogEntry} (hsplit : es = before ++ e :: after)
    {evs rest : List ForgeEvent} {ev : ForgeEvent} (hevents : e.forge = evs ++ ev :: rest) :
    ∃ m actor, (accepted reqs (judgeAll b w reqs).1)[before.length]? = some m ∧
      m.1.actor = some actor ∧
      ((before ++ [{ e with forge := evs }]).foldl ForgeState.foldEntry s).verify actor
        (actor.role b.manifest.access) [ev] = .ok () := by
  induction reqs generalizing w s earlier es before with
  | nil =>
    rw [hsplit] at hforge
    simp [accepted] at hforge
  | cons req reqs ih =>
    have hnext := judge_forgeNext b w req
    rw [Basis.admitted_cons] at hcalm
    simp only [judgeAll, accepted] at hforge ⊢
    cases hvalid : (judge b w req).1.valid with
    | false =>
      rw [hvalid, if_neg Bool.false_ne_true] at hnext
      simp only [hvalid, Bool.false_eq_true, if_false] at hforge ⊢
      refine ih (hnext ▸ h) (hcalm.sublist ?_) hforge hseqs hsplit
      exact (List.sublist_append_right _ _).append_left earlier
    | true =>
      rw [hvalid, if_pos rfl] at hnext
      simp only [hvalid, if_true] at hforge ⊢
      have hnone := (judge_valid hvalid).1
      have hown : (judge b w req).1.forge = (number req.forge w.forgeNext).1 := rfl
      rw [hown, forgeErrorOf_number] at hnone
      rw [hnone, Option.isNone_none, if_pos rfl, ← List.append_assoc] at hcalm
      cases before with
      | nil =>
        subst hsplit
        simp only [List.nil_append, List.map_cons, List.cons.injEq] at hforge hseqs
        have hlt := (List.pairwise_cons.mp hseqs).1 e.seq List.mem_cons_self
        rw [← forgeErrorOf_number b req w.forgeNext, ← hown, ← hforge.1] at hnone
        obtain ⟨actor, hactor, hok⟩ := forgeErrorOf_none hnone (by simp [hevents])
        have hevent : b.forge.verifyEvent actor (actor.role b.manifest.access) ev = .ok () := by
          simp only [ForgeState.verify, guard_ok, forM_ok] at hok
          exact hok.2.2.2 ev (by simp [hevents])
        refine ⟨_, actor, rfl, hactor, ForgeState.verify_single hok ?_⟩
        exact h.event (hforge.1.trans hown) hlt (List.pairwise_append.mp hcalm).1 hevents
          (hwithin.verifyEvent hevent)
      | cons e₀ before =>
        subst hsplit
        simp only [List.cons_append, List.map_cons, List.cons.injEq] at hforge hseqs
        obtain ⟨hall, hrest⟩ := List.pairwise_cons.mp hseqs
        have hlt := hall e₀.seq List.mem_cons_self
        refine ih (hnext ▸ h.foldEntry (hforge.1.trans hown) hlt) hcalm hforge.2 ?_ rfl
        rw [ForgeState.foldEntry_seq, max_eq_right hlt.le]
        exact hrest

end Batches

section Log

variable [Text.CharTables] {cfg : Config} {w : World} {g g₀ : Generation}
  {gens : List Generation} {o : Origin} {e : LogEntry}

/-- No event of these requests spoils a later one, as far as the basis admits them. -/
def Basis.Calm (b : Basis) (reqs : List PublishRequest) : Prop :=
  (b.admitted reqs).Pairwise fun e f =>
    b.forge.spoils (max b.manifest.forgeNextNumber 1) e f = false

instance (b : Basis) (reqs : List PublishRequest) : Decidable (b.Calm reqs) :=
  inferInstanceAs (Decidable (List.Pairwise _ _))

def Origin.calm (o : Origin) : Bool :=
  match o.job with
  | .batch reqs => o.attempt.basis.Calm reqs
  | _ => true

/-- Every forge event of the log passes the check of all that was committed before it: the
earlier entries and the earlier events of its own. -/
def ForgeLegal (gens : List Generation) : Prop :=
  ∀ before e after, committedEntries gens = before ++ e :: after →
    ∀ evs ev rest, e.forge = evs ++ ev :: rest →
      ∃ o ∈ committedOrigins gens, ∃ reqs i req actor, o.job = .batch reqs ∧
        reqs[i]? = some req ∧ o.entryOf i = some e ∧ req.actor = some actor ∧
        (ofLog (before ++ [{ e with forge := evs }])).verify actor
          (actor.role o.attempt.basis.manifest.access) [ev] = .ok ()

theorem Origin.Wrote.map_forge (h : o.Wrote) {reqs : List PublishRequest}
    (hjob : o.job = .batch reqs) : o.slot.bytes.map LogEntry.forge =
      (accepted reqs (verifyBatch o.attempt.basis reqs).1).map Prod.snd := by
  obtain ⟨clock, es, hes, -, hbytes⟩ := h
  rw [hjob] at hes
  cases hes
  rw [hbytes, withNonce_forge, buildEntries_forge]

/-- The entry of an accepted member is that of its request. -/
theorem Origin.entryOf_accepted {reqs : List PublishRequest} (hjob : o.job = .batch reqs) {k : ℕ}
    {m : PublishRequest × List ForgeEvent}
    (hm : (accepted reqs (verifyBatch o.attempt.basis reqs).1)[k]? = some m)
    (he : o.slot.bytes[k]? = some e) : ∃ i : ℕ, reqs[i]? = some m.1 ∧ o.entryOf i = some e := by
  obtain ⟨i, v, hreq, hv, hvalid, -, rfl⟩ := of_accepted_getElem? hm
  refine ⟨i, hreq, ?_⟩
  simp only [Origin.entryOf, hjob, hv, hvalid, if_true]
  exact he

theorem Origin.Wrote.hasForge (h : o.Wrote) (he : e ∈ o.slot.bytes) (hne : e.forge ≠ []) :
    o.job.hasForge := by
  obtain ⟨reqs, i, req, hjob, hreq, hentry⟩ := Origin.requested h he (Or.inr hne)
  obtain ⟨work, -, hforge, -⟩ := Origin.entryOf_judged h hjob hreq hentry
  rw [hjob]
  refine List.any_eq_true.mpr ⟨req, List.mem_of_getElem? hreq, ?_⟩
  have hnumbered : e.forge.isEmpty = req.forge.isEmpty :=
    hforge ▸ ForgeState.number_isEmpty req.forge work.forgeNext
  rw [← hnumbered]
  simpa using hne

/-- What a batch was verified against has the items of the log it was committed over. -/
theorem World.Sees.within (h : w.Sees) (hinv : Inv cfg w)
    (hsuffix : (g :: g₀ :: gens) <:+ w.gens) (ho : g.origin = some o) (hforge : o.job.hasForge) :
    o.attempt.basis.forge.Within (ofLog (committedEntries (g₀ :: gens))) ∧
      o.attempt.basis.forge.seq = (ofLog (committedEntries (g₀ :: gens))).seq := by
  obtain ⟨hrebuilt, hlike⟩ := h.resembles hinv hsuffix ho hforge
  exact ⟨hlike.within hrebuilt (ForgeState.rebuilt_foldl _), hlike.seq⟩

theorem World.Sees.verified (h : w.Sees) (hinv : Inv cfg w) {gens : List Generation}
    (hsuffix : gens <:+ w.gens) : ForgeVerified gens := by
  induction gens with
  | nil => trivial
  | cons g gens ih =>
    have hold : gens <:+ w.gens := (List.suffix_cons g gens).trans hsuffix
    refine ⟨ih hold, fun o ho e he hne => ?_⟩
    have hchain := hinv.chain.suffix hsuffix
    cases gens with
    | nil =>
      cases hchain
      cases ho
    | cons g₀ gens =>
      obtain ⟨-, hwrote, -⟩ := hchain.newest ho
      obtain ⟨actor, role, hok⟩ := hwrote.verified he hne
      obtain ⟨hwithin, -⟩ := h.within hinv hsuffix ho (hwrote.hasForge he hne)
      exact ⟨actor, role, hwithin.verify hok⟩

/-- The events of a committed batch none of whose events spoils a later one. -/
theorem World.Sees.legal (h : w.Sees) (hinv : Inv cfg w)
    (hsuffix : (g :: g₀ :: gens) <:+ w.gens) (ho : g.origin = some o) (hcalm : o.calm)
    {before after : List LogEntry} (hsplit : o.slot.bytes = before ++ e :: after)
    {evs rest : List ForgeEvent} {ev : ForgeEvent} (hevents : e.forge = evs ++ ev :: rest) :
    ∃ reqs i req actor, o.job = .batch reqs ∧ reqs[i]? = some req ∧ o.entryOf i = some e ∧
      req.actor = some actor ∧
      (ofLog (committedEntries (g₀ :: gens) ++ (before ++ [{ e with forge := evs }]))).verify actor
        (actor.role o.attempt.basis.manifest.access) [ev] = .ok () := by
  have hne : e.forge ≠ [] := by simp [hevents]
  have he : e ∈ o.slot.bytes := by simp [hsplit]
  have hchain := (List.suffix_cons g _).trans hsuffix
  obtain ⟨hbasis, hwrote, hburned⟩ := (hinv.chain.suffix hsuffix).newest ho
  obtain ⟨reqs, -, -, hjob, -, -⟩ := Origin.requested hwrote he (Or.inr hne)
  obtain ⟨hwithin, hseq⟩ := h.within hinv hsuffix ho (hwrote.hasForge he hne)
  set s := ofLog (committedEntries (g₀ :: gens)) with hs
  have hspec := (hinv.chain.suffix hchain).forgeSpec (h.verified hinv hchain)
  have hbelow : s.Below o.attempt.basis.working.forgeNext := by
    intro n i hi
    have hrange := ((hspec.items _ List.prefix_rfl).range n).mp (by rw [← hs, hi]; rfl)
    change n < max o.attempt.basis.manifest.forgeNextNumber 1
    rw [hbasis, hspec.next]
    exact hrange.2
  have hpairs : ([] ++ o.attempt.basis.admitted reqs).Pairwise fun e f =>
      s.spoils o.attempt.basis.working.forgeNext e f = false := by
    simp only [Origin.calm, hjob, decide_eq_true_eq] at hcalm
    exact hcalm.imp fun h => (hwithin.spoils hseq _ _ _).symm.trans h
  have hseqs : (s.seq :: o.slot.bytes.map LogEntry.seq).Pairwise (· < ·) := by
    rw [hwrote.seqs]
    refine List.pairwise_cons.mpr ⟨fun n hn => ?_, List.pairwise_lt_range'⟩
    have hle : s.seq ≤ _ := ofLog_seq_le (hinv.chain.suffix hchain).logSpec
    have hlt := hburned.1
    rw [List.mem_range'_1] at hn
    omega
  obtain ⟨m, actor, hm, hactor, hok⟩ := (ForgeState.Leaves.refl hbelow).batch hwithin hpairs
    (hwrote.map_forge hjob) hseqs hsplit hevents
  obtain ⟨i, hreq, hentry⟩ := Origin.entryOf_accepted (e := e) hjob hm (by simp [hsplit])
  refine ⟨reqs, i, m.1, actor, hjob, hreq, hentry, hactor, ?_⟩
  rw [ofLog, List.foldl_append]
  exact hok

theorem World.Sees.forgeLegal (h : w.Sees) (hinv : Inv cfg w)
    (hcalm : ∀ o ∈ committedOrigins w.gens, o.calm) {gens : List Generation}
    (hsuffix : gens <:+ w.gens) : ForgeLegal gens := by
  induction gens with
  | nil =>
    intro before e after hsplit
    simp [committedEntries] at hsplit
  | cons g gens ih =>
    have hold : gens <:+ w.gens := (List.suffix_cons g gens).trans hsuffix
    intro before e after hsplit evs ev rest hevents
    have hnewest : ∀ as, before = committedEntries gens ++ as →
        (g.origin.map fun o => o.slot.bytes).getD [] = as ++ e :: after →
        ∃ o ∈ committedOrigins (g :: gens), ∃ reqs i req actor, o.job = .batch reqs ∧
          reqs[i]? = some req ∧ o.entryOf i = some e ∧ req.actor = some actor ∧
          (ofLog (before ++ [{ e with forge := evs }])).verify actor
            (actor.role o.attempt.basis.manifest.access) [ev] = .ok () := by
      intro as hbefore hbytes
      cases ho : g.origin with
      | none => simp [ho] at hbytes
      | some o =>
        rw [ho, Option.map_some, Option.getD_some] at hbytes
        have hmem : o ∈ committedOrigins (g :: gens) :=
          mem_committedOrigins.mpr ⟨g, List.mem_cons_self, ho⟩
        have hnewer : o.calm := hcalm o (mem_committedOrigins.mpr
          ⟨g, hsuffix.subset List.mem_cons_self, ho⟩)
        cases gens with
        | nil =>
          cases hinv.chain.suffix hsuffix
          cases ho
        | cons g₀ gens =>
          obtain ⟨reqs, i, req, actor, hlegal⟩ := h.legal hinv hsuffix ho hnewer hbytes hevents
          refine ⟨o, hmem, reqs, i, req, actor, ?_⟩
          rw [hbefore, List.append_assoc]
          exact hlegal
    rcases List.append_eq_append_iff.mp hsplit with ⟨as, hbefore, hbytes⟩ | ⟨bs, hlog, hbytes⟩
    · exact hnewest as hbefore hbytes
    · cases bs with
      | nil => exact hnewest [] (by simpa using hlog.symm) hbytes.symm
      | cons e' bs =>
        rw [List.cons_append, List.cons.injEq] at hbytes
        obtain ⟨rfl, -⟩ := hbytes
        obtain ⟨o, ho, hlegal⟩ := ih hold before e bs hlog evs ev rest hevents
        obtain ⟨g', hg', horigin⟩ := mem_committedOrigins.mp ho
        exact ⟨o, mem_committedOrigins.mpr ⟨g', List.mem_cons_of_mem g hg', horigin⟩, hlegal⟩

/-- In every run none of whose committed batches has an event that spoils a later one, every
committed forge event is legal. -/
theorem committed_events_legal {access : Option RepoAccess} {now : Timestamp} {writer : String}
    {events : List LoadEvent} {s : ForgeLoads}
    (hrun : Runs.run (ForgeLoads.step cfg) (.created (createdManifest access now writer)) events =
      some s) (hcalm : ∀ o ∈ committedOrigins s.cluster.world.gens, o.calm) :
    ForgeLegal s.cluster.world.gens := by
  obtain ⟨hinv, hsees⟩ := sees_run hrun
  exact hsees.forgeLegal hinv hcalm List.suffix_rfl

end Log

section Runs

open ForgeLoads (runShared published)

attribute [local instance] Text.asciiTables

def closing : ForgeBody := .state ⟨true, "completed", "", ""⟩

/-- An issue is opened, and one batch of two requests is published on it. -/
def issueThen (b c : ForgeBody) : List LoadEvent :=
  published [forgeRequest 0 (.opened ⟨.issue, "crash", "on start", [], [], "", "", "", "", false⟩)] ++
    (Cluster.publish 0 2 "b" [forgeRequest 1 b, forgeRequest 1 c]).map .deed

/-- It is commented on and closed. -/
theorem committed_events_legal_closed : ∃ s, runShared (issueThen (.comment ⟨"seen"⟩) closing) =
    some s ∧ (committedEntries s.cluster.world.gens).length = 3 ∧
      ForgeLegal s.cluster.world.gens := by
  have hrun : ((runShared (issueThen (.comment ⟨"seen"⟩) closing)).map fun s : ForgeLoads =>
      decide ((committedEntries s.cluster.world.gens).length = 3 ∧
        ∀ o ∈ committedOrigins s.cluster.world.gens, o.calm)) = some true := by decide +kernel
  obtain ⟨s, hs, heq⟩ := Option.map_eq_some_iff.mp hrun
  obtain ⟨hlength, hcalm⟩ := of_decide_eq_true heq
  exact ⟨s, hs, hlength, committed_events_legal hs hcalm⟩

/-- A closed item admits no closing. -/
theorem verifyEvent_closing [Text.CharTables] {s : ForgeState} {actor : Actor} {role : Role}
    {ev : ForgeEvent} (hbody : ev.body = some closing)
    (hclosed : (s.items.find? ev.number).map Item.state = some .closed) :
    s.verifyEvent actor role ev ≠ .ok () := by
  obtain ⟨i, hi, hstate⟩ := Option.map_eq_some_iff.mp hclosed
  intro hok
  simp only [ForgeState.verifyEvent, hbody, closing, hi, verifyOnItem, guard_ok] at hok
  exact hok.2.2.1 (by simp [hstate])

/-- It is closed twice. -/
theorem double_close_committed : ∃ s, runShared (issueThen closing closing) = some s ∧
    ¬ForgeLegal s.cluster.world.gens := by
  have hrun : ((runShared (issueThen closing closing)).map fun s : ForgeLoads =>
      (committedEntries s.cluster.world.gens)[2]?.any fun e =>
        decide (e.forge = [⟨1, "dev", "u1", some closing⟩] ∧
          ((ofLog ((committedEntries s.cluster.world.gens).take 2 ++
            [{ e with forge := [] }])).items.find? 1).map Item.state = some .closed)) =
      some true := by decide +kernel
  obtain ⟨s, hs, hlog⟩ := Option.map_eq_some_iff.mp hrun
  refine ⟨s, hs, fun hlegal => ?_⟩
  obtain ⟨e, he, hsecond⟩ := Option.any_eq_true _ _ |>.mp hlog
  obtain ⟨hforge, hclosed⟩ := of_decide_eq_true hsecond
  obtain ⟨hlt, rfl⟩ := List.getElem?_eq_some_iff.mp he
  have hentries : committedEntries s.cluster.world.gens =
      (committedEntries s.cluster.world.gens).take 2 ++
        (committedEntries s.cluster.world.gens)[2] ::
          (committedEntries s.cluster.world.gens).drop 3 := by
    rw [← List.drop_eq_getElem_cons hlt, List.take_append_drop]
  obtain ⟨o, -, reqs, i, req, actor, -, -, -, -, hok⟩ := hlegal _ _ _ hentries [] _ [] hforge
  simp only [ForgeState.verify, guard_ok, forM_ok] at hok
  exact verifyEvent_closing rfl hclosed (hok.2.2.2 _ List.mem_cons_self)

end Runs

end Walgit
