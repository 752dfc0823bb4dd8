import Walgit.Truthful

/-!
# Revocation

The publisher judges roles by the access record of the manifest its attempt captured, and
the swap commits only onto that manifest. So whatever access edits run beside it, every
committed write was permitted by the record it was committed onto.
-/
namespace Walgit

open Checks (guard_ok last_ok forM_ok)

/-- The role an event of this kind needs; `own` when its actor wrote what it changes. -/
def ForgeBody.requiredRole (own : Bool) : ForgeBody → Role
  | .opened o => if o.labels.isEmpty && o.assignees.isEmpty then .read else .triage
  | .comment _ | .review _ => .read
  | .edit _ | .draft _ => if own then .read else .write
  | .state _ => if own then .read else .triage
  | .labels _ | .assignees _ | .label _ => .triage
  | .merged _ => .write

namespace Item

/-- The actor wrote the comment an edit names, or the item if it names none. -/
def ownedBy (item : Item) (actor : Actor) : ForgeBody → Bool
  | .edit e =>
    if e.commentId = 0 then actor.is item.authorId item.author
    else item.timeline.any fun t => t.id == e.commentId && actor.is t.actorId t.actor
  | _ => actor.is item.authorId item.author

end Item

namespace ForgeState

/-- The role an event needs of its actor in this state. -/
def requiredRole (s : ForgeState) (actor : Actor) (ev : ForgeEvent) : Role :=
  match ev.body with
  | none => .read
  | some body =>
    body.requiredRole (((s.items.find? ev.number).map (·.ownedBy actor body)).getD false)

end ForgeState

section Verify

variable [Text.CharTables]

/-- What passes the check of an event on an item has the role for it. -/
theorem verifyOnItem_role {item : Item} {actor : Actor} {role : Role} {body : ForgeBody}
    (hread : .read ≤ role) (hopened : ∀ o, body ≠ .opened o) (hlabel : ∀ l, body ≠ .label l)
    (h : verifyOnItem item actor role body = .ok ()) :
    body.requiredRole (item.ownedBy actor body) ≤ role := by
  cases body with
  | opened o => exact absurd rfl (hopened o)
  | label l => exact absurd rfl (hlabel l)
  | comment c => exact hread
  | review r => exact hread
  | edit e =>
    by_cases hid : e.commentId = 0
    · simp only [verifyOnItem, hid, if_true, guard_ok] at h
      cases hown : actor.is item.authorId item.author with
      | true => simpa [ForgeBody.requiredRole, Item.ownedBy, hid, hown] using hread
      | false => simpa [ForgeBody.requiredRole, Item.ownedBy, hid, hown] using h.1
    · simp only [verifyOnItem, hid, if_false] at h
      split at h
      · cases h
      · rename_i t hfind
        rw [last_ok] at h
        cases hown : actor.is t.actorId t.actor with
        | true =>
          have hid' : t.id = e.commentId := by
            have hprop := List.find?_some hfind
            simp only [Bool.and_eq_true, beq_iff_eq] at hprop
            exact hprop.1
          have hany : (item.timeline.any fun t =>
              t.id == e.commentId && actor.is t.actorId t.actor) = true :=
            List.any_eq_true.mpr ⟨t, List.mem_of_find?_eq_some hfind, by simp [hid', hown]⟩
          simpa [ForgeBody.requiredRole, Item.ownedBy, hid, hany] using hread
        | false =>
          have hwrite : .write ≤ role := by simpa [hown] using h.1
          simp only [ForgeBody.requiredRole]
          split_ifs
          · exact hread
          · exact hwrite
  | state s =>
    simp only [verifyOnItem, guard_ok] at h
    cases hown : actor.is item.authorId item.author with
    | true => simpa [ForgeBody.requiredRole, Item.ownedBy, hown] using hread
    | false => simpa [ForgeBody.requiredRole, Item.ownedBy, hown] using h.2.1
  | labels c | assignees c =>
    simp only [verifyOnItem, last_ok] at h
    exact not_lt.mp h.1
  | draft d =>
    simp only [verifyOnItem, guard_ok] at h
    cases hown : actor.is item.authorId item.author with
    | true => simpa [ForgeBody.requiredRole, Item.ownedBy, hown] using hread
    | false => simpa [ForgeBody.requiredRole, Item.ownedBy, hown] using h.2.1
  | merged m =>
    simp only [verifyOnItem, guard_ok] at h
    exact not_lt.mp h.2.2.1

/-- Verified events come from an actor with the role each of them needs. -/
theorem verify_role {s : ForgeState} {actor : Actor} {role : Role} {events : List ForgeEvent}
    (h : s.verify actor role events = .ok ()) {ev : ForgeEvent} (hev : ev ∈ events) :
    s.requiredRole actor ev ≤ role := by
  simp only [ForgeState.verify, guard_ok, forM_ok] at h
  obtain ⟨-, -, hread, hevents⟩ := h
  have hread := not_lt.mp hread
  have hone := hevents ev hev
  unfold ForgeState.verifyEvent at hone
  unfold ForgeState.requiredRole
  split at hone
  · cases hone
  · rename_i l hbody
    simp only [verifyLabel, guard_ok] at hone
    simp only [hbody]
    exact not_lt.mp hone.1
  · rename_i o hbody
    simp only [verifyOpened, guard_ok] at hone
    simp only [hbody, ForgeBody.requiredRole]
    split_ifs with hplain
    · exact hread
    · have hset := hone.2.2.1
      simp only [Bool.and_eq_true, not_and] at hplain
      by_contra hlt
      refine hset ?_
      simp only [Bool.and_eq_true, decide_eq_true_eq, Bool.or_eq_true, Bool.not_eq_true',
        lt_of_not_ge hlt, true_and]
      by_cases hl : o.labels.isEmpty
      · exact Or.inr (by simpa using hplain hl)
      · exact Or.inl (by simpa using hl)
  · rename_i body hlabel hopened hbody
    simp only [hbody]
    split at hone
    · cases hone
    · rename_i item hitem
      simp only [hitem, Option.map_some, Option.getD_some]
      exact verifyOnItem_role hread hopened hlabel hone

/-- Events are accepted from an actor whom the forge state of the basis allows them. -/
theorem forgeErrorOf_none {b : Basis} {req : PublishRequest} {evs : List ForgeEvent}
    (h : forgeErrorOf b req evs = none) (hne : evs ≠ []) :
    ∃ actor, req.actor = some actor ∧
      b.forge.verify actor (actor.role b.manifest.access) evs = .ok () := by
  rw [forgeErrorOf, if_neg (by simpa using hne)] at h
  split at h
  · cases h
  · rename_i actor hactor
    split at h
    · rename_i hok
      exact ⟨actor, hactor, hok⟩
    · cases h

/-- A request judged valid is permitted everything it does. -/
theorem judge_permitted {b : Basis} {w : Working} {req : PublishRequest}
    (h : (judge b w req).1.valid) :
    (∀ actor, req.actor = some actor → req.txn.updates ≠ [] →
      .write ≤ actor.role b.manifest.access) ∧
    ∀ ev ∈ (judge b w req).1.forge, ∃ actor, req.actor = some actor ∧
      b.forge.requiredRole actor ev ≤ actor.role b.manifest.access := by
  obtain ⟨hforge, hrefs⟩ := judge_valid h
  refine ⟨fun actor hactor hne => ?_, fun ev hev => ?_⟩
  · simp only [refsErrorOf, hactor] at hrefs
    split_ifs at hrefs with hlow
    simpa [hne] using hlow
  · obtain ⟨actor, hactor, hok⟩ := forgeErrorOf_none hforge (List.ne_nil_of_mem hev)
    exact ⟨actor, hactor, verify_role hok hev⟩

end Verify

section Commits

variable [Text.CharTables]

/-- Every entry of a batch is the entry of one of its requests. -/
theorem Origin.mem_bytes {o : Origin} (hwrote : o.Wrote) {reqs : List PublishRequest}
    (hjob : o.job = .batch reqs) {e : LogEntry} (he : e ∈ o.slot.bytes) :
    ∃ (i : ℕ) (req : PublishRequest), reqs[i]? = some req ∧ o.entryOf i = some e := by
  obtain ⟨clock, es, hes, -, hbytes⟩ := hwrote
  rw [hjob] at hes
  cases hes
  obtain ⟨k, hk⟩ := List.mem_iff_getElem?.mp he
  have hlt : k < (accepted reqs (verifyBatch o.attempt.basis reqs).1).length := by
    have hlen := (List.getElem?_eq_some_iff.mp hk).1
    simpa [hbytes] using hlen
  obtain ⟨i, v, hreq, hv, hvalid, -, rfl⟩ :=
    of_accepted_getElem? (List.getElem?_eq_getElem hlt)
  refine ⟨i, _, hreq, ?_⟩
  unfold Origin.entryOf
  simp only [hjob, hv, hvalid, if_true]
  exact hk

/-- The entry of a request holds the events it was judged with and its transaction. -/
theorem Origin.entryOf_judged {o : Origin} (hwrote : o.Wrote) {reqs : List PublishRequest}
    (hjob : o.job = .batch reqs) {i : ℕ} {req : PublishRequest} (hreq : reqs[i]? = some req)
    {e : LogEntry} (he : o.entryOf i = some e) :
    ∃ w, (judge o.attempt.basis w req).1.valid ∧ e.forge = (judge o.attempt.basis w req).1.forge ∧
      e.txn = if req.forgeOnly then none else some req.txn := by
  obtain ⟨clock, es, hes, -, hbytes⟩ := hwrote
  rw [hjob] at hes
  cases hes
  unfold Origin.entryOf at he
  simp only [hjob] at he
  split at he
  · rename_i v hv
    split_ifs at he with hvalid
    have hmember := accepted_getElem? hreq hv hvalid
    rw [verifyBatch, judgeAll_getElem?, hreq, Option.map_some, Option.some.injEq] at hv
    subst hv
    refine ⟨_, hvalid, ?_⟩
    rw [hbytes, withNonce_getElem?_map, buildEntries_getElem?, hmember] at he
    simp only [Option.map_some, Option.some.injEq] at he
    subst he
    simp only [apply_ite LogEntry.forge, apply_ite LogEntry.txn, ite_self]
    exact ⟨rfl, rfl⟩
  · cases he

/-- Nothing but a request writes refs or forge events. -/
theorem Origin.requested {o : Origin} (hwrote : o.Wrote) {e : LogEntry} (he : e ∈ o.slot.bytes)
    (hkind : e.txn ≠ none ∨ e.forge ≠ []) :
    ∃ reqs i req, o.job = .batch reqs ∧ reqs[i]? = some req ∧ o.entryOf i = some e := by
  cases hb : o.job.isBatch with
  | true =>
    cases hjob : o.job with
    | batch reqs =>
      obtain ⟨i, req, hreq, hentry⟩ := Origin.mem_bytes hwrote hjob he
      exact ⟨reqs, i, req, rfl, hreq, hentry⟩
    | _ =>
      rw [hjob] at hb
      cases hb
  | false =>
    obtain ⟨clock, es, hes, -, hbytes⟩ := hwrote
    obtain ⟨e₀, he₀, heq⟩ := mem_withNonce (hbytes ▸ he)
    obtain ⟨htxn, hforge⟩ := Job.entries_of_not_batch hes hb e₀ he₀
    rcases hkind with hne | hne
    · exact absurd ((congrArg LogEntry.txn heq).trans htxn) hne
    · exact absurd ((congrArg LogEntry.forge heq).trans hforge) hne

/-- Whatever runs beside it, a committed request had the roles it needs in the access record
of the manifest its swap replaced, and nothing but requests writes refs or forge events. -/
theorem committed_requests_permitted {cfg : Config} {access : Option RepoAccess} {now : Timestamp}
    {writer : String} {w : World} {actions : List Action}
    (hrun : Runs.run (step cfg) (World.created (createdManifest access now writer)) actions =
      some w) {g' g : Generation} {gens : List Generation} (hsuf : (g' :: g :: gens) <:+ w.gens)
    {o : Origin} (ho : g'.origin = some o) :
    (∀ reqs i req e, o.job = .batch reqs → reqs[i]? = some req → o.entryOf i = some e →
      (∀ actor, req.actor = some actor → req.txn.updates ≠ [] →
        .write ≤ actor.role g.manifest.access) ∧
      ∀ ev ∈ e.forge, ∃ actor, req.actor = some actor ∧
        o.attempt.basis.forge.requiredRole actor ev ≤ actor.role g.manifest.access) ∧
    ∀ e ∈ o.slot.bytes, e.txn ≠ none ∨ e.forge ≠ [] →
      ∃ reqs i req, o.job = .batch reqs ∧ reqs[i]? = some req ∧ o.entryOf i = some e := by
  obtain ⟨hwrote, hbasis⟩ : o.Wrote ∧ o.attempt.basis.manifest = g.manifest := by
    cases (inv_run hrun).chain.suffix hsuf with
    | append older p now m version basis wrote burned edit newer =>
      cases ho
      exact ⟨wrote, basis⟩
    | rewrite older job policy writer now m version edit folded newer => cases ho
  refine ⟨fun reqs i req e hjob hreq he => ?_, fun e he hkind => ?_⟩
  · obtain ⟨work, hvalid, hforge, -⟩ := Origin.entryOf_judged hwrote hjob hreq he
    rw [hforge, ← hbasis]
    exact judge_permitted hvalid
  · exact Origin.requested hwrote he hkind

end Commits

section Push

attribute [local instance] Text.asciiTables

/-- A private repository with one collaborator who may write. -/
def sharedAccess : RepoAccess := ⟨.privateRepo, .ofList [("u1", .write)], 1, "root", none, ""⟩

/-- The collaborator pushes a branch and defines a label. -/
def collaboratorPush : List Action :=
  let main : RefUpdate := ⟨"refs/heads/main", "", "aaaaaaaaaaaaaaaaaaaaaaaaaaaaaaaaaaaaaaaa", ""⟩
  let label : ForgeEvent := ⟨0, "dev", "u1", some (.label ⟨"bug", "#ff0000", "", false⟩)⟩
  let req : PublishRequest :=
    { txn := ⟨[main], [], true⟩, forge := [label], actor := some ⟨"dev", "u1", false⟩ }
  [.start 1 (.batch [req]),
    .capture 1 ⟨⟨createdManifest (some sharedAccess) ⟨1, 0⟩ "w", some 0, .new .fresh, .empty, none⟩,
      ⟨"", .empty⟩, "w", ⟨2, 0⟩⟩,
    .claim 1 "a" (fun _ => ⟨2, 0⟩) .delivered, .swap 1 ⟨3, 0⟩ .delivered, .finish 1]

theorem committed_requests_permitted_push :
    ∃ (w : World) (g' g : Generation) (o : Origin), w.gens = [g', g] ∧ g'.origin = some o ∧
      o.slot.bytes.length = 1 ∧ ∀ e ∈ o.slot.bytes, e.txn ≠ none ∨ e.forge ≠ [] →
        ∃ reqs i req, o.job = .batch reqs ∧ reqs[i]? = some req ∧ o.entryOf i = some e ∧
          ∀ actor, req.actor = some actor → req.txn.updates ≠ [] →
            .write ≤ actor.role g.manifest.access := by
  have hsome : ((Runs.run (step ⟨3, List.length⟩)
      (World.created (createdManifest (some sharedAccess) ⟨1, 0⟩ "w")) collaboratorPush).map
        fun w => w.gens.map fun g => g.origin.map fun o => o.slot.bytes.length) =
      some [some 1, none] := by decide
  obtain ⟨w, hrun, heq⟩ := Option.map_eq_some_iff.mp hsome
  obtain ⟨g', rest, hgens, hg', hrest⟩ := List.map_eq_cons_iff.mp heq
  obtain ⟨g, rest', rfl, -, hnil⟩ := List.map_eq_cons_iff.mp hrest
  rw [List.map_eq_nil_iff] at hnil
  subst hnil
  obtain ⟨o, ho, hlen⟩ := Option.map_eq_some_iff.mp hg'
  have hsuf : [g', g] <:+ w.gens := by simp [hgens]
  obtain ⟨hpermitted, hbatch⟩ := committed_requests_permitted hrun hsuf ho
  refine ⟨w, g', g, o, hgens, ho, hlen, fun e he hkind => ?_⟩
  obtain ⟨reqs, i, req, hjob, hreq, hentry⟩ := hbatch e he hkind
  exact ⟨reqs, i, req, hjob, hreq, hentry, (hpermitted reqs i req e hjob hreq hentry).1⟩

end Push

end Walgit
