import Mathlib.Data.List.GetD
import Walgit.Runs

/-!
# The handle and the directory of one repository on one host

Requests open or create the repository and keep the handle they got; evictions and deletions
take it out of the map and remove its directory. Every handle works on the same directory.
-/
namespace Walgit

namespace RepoCache

inductive OpenKind where
  | openRepo
  | createWithAccess
  deriving DecidableEq, Repr

/-- A request: its call of `open` or `create_with_access`, then its work with the handle. -/
inductive Phase where
  | looking
  | waiting
  /-- Inside the gate, without a handle. -/
  | entered
  /-- The manifest was read or created. -/
  | read
  /-- The handle works on the directory and is not in the map yet. -/
  | localised (handle : ℕ)
  /-- `guarded` while the request has the handle's `sync_mutex` or a read guard of `rw`. -/
  | holding (handle : ℕ) (guarded : Bool)
  | ended
  deriving DecidableEq, Repr

structure Request where
  kind : OpenKind
  phase : Phase
  deriving DecidableEq, Repr

/-- The call holds the repository's gate. -/
def Phase.gated : Phase → Bool
  | .entered | .read | .localised _ => true
  | _ => false

/-- The handle a request works with. -/
def Phase.handle : Phase → Option ℕ
  | .localised h | .holding h _ => some h
  | _ => none

def Phase.guards (p : Phase) (h : ℕ) : Bool := p = .holding h true

inductive EvictPhase where
  /-- The handle was seen idle. -/
  | candidate
  /-- Both locks of the handle are held. -/
  | locked
  | dropped
  | ended
  deriving DecidableEq, Repr

/-- What a pass of `evict_idle` does to the repository. -/
structure Eviction where
  handle : ℕ
  phase : EvictPhase
  deriving DecidableEq, Repr

inductive DeletePhase where
  | checked
  | dropped
  /-- The manifest and the objects under the prefix are deleted. -/
  | swept
  | ended
  deriving DecidableEq, Repr

end RepoCache

structure RepoCache where
  /-- The store has the manifest. -/
  manifest : Bool
  /-- The local directory is there. -/
  dir : Bool
  repos : Option ℕ
  /-- The request that holds the gate. -/
  opening : Option ℕ
  /-- Handles made so far. -/
  handles : ℕ
  requests : List RepoCache.Request
  evictions : List RepoCache.Eviction
  deletions : List RepoCache.DeletePhase
  deriving DecidableEq, Repr

namespace RepoCache

inductive Event where
  | call (kind : OpenKind)
  | lookup (k : ℕ)
  | enter (k : ℕ)
  | get (k : ℕ)
  | put (k : ℕ) (answered : Bool)
  | initLocal (k : ℕ)
  | insert (k : ℕ)
  | fail (k : ℕ)
  | guard (k : ℕ)
  | release (k : ℕ)
  | finish (k : ℕ)
  /-- Another host creates or deletes the repository. -/
  | foreign (present : Bool)
  | evict
  | lock (e : ℕ)
  /-- One of the two `try_lock`s fails, or the pass ends before. -/
  | skip (e : ℕ)
  | dropEvicted (e : ℕ)
  | removeEvicted (e : ℕ)
  | delete
  | dropDeleted (d : ℕ)
  | sweep (d : ℕ)
  | removeDeleted (d : ℕ)
  | failDelete (d : ℕ)
  deriving DecidableEq, Repr

def init : RepoCache := ⟨false, false, none, none, 0, [], [], []⟩

variable (s : RepoCache)

def setPhase (k : ℕ) (r : Request) (p : Phase) : RepoCache :=
  { s with requests := s.requests.set k { r with phase := p } }

/-- The call leaves the gate, if it is inside. -/
def leave (k : ℕ) (r : Request) (p : Phase) : RepoCache :=
  { s.setPhase k r p with opening := if r.phase.gated then none else s.opening }

/-- An eviction holds the locks of a handle. -/
def locks (h : ℕ) : Bool :=
  s.evictions.any fun e => e.handle = h && (e.phase = .locked || e.phase = .dropped)

/-- A step of one request. -/
def stepRequest (k : ℕ) (r : Request) : Event → Option RepoCache
  | .lookup _ =>
    match r.phase, s.repos with
    | .looking, some h => some (s.setPhase k r (.holding h false))
    | .looking, none => some (s.setPhase k r .waiting)
    | _, _ => none
  | .enter _ =>
    if s.opening.isSome then none
    else match r.phase, s.repos with
      | .waiting, some h => some (s.setPhase k r (.holding h false))
      | .waiting, none => some { s.setPhase k r .entered with opening := some k }
      | _, _ => none
  | .get _ =>
    match r.kind, r.phase with
    | .openRepo, .entered => some (if s.manifest then s.setPhase k r .read else s.leave k r .ended)
    | _, _ => none
  | .put _ answered =>
    match r.kind, r.phase with
    | .createWithAccess, .entered =>
      if s.manifest then some (s.leave k r .ended)
      else
        let s := { s with manifest := true }
        some (if answered then s.setPhase k r .read else s.leave k r .ended)
    | _, _ => none
  | .initLocal _ =>
    match r.phase with
    | .read => some { s.setPhase k r (.localised s.handles) with
        dir := true, handles := s.handles + 1 }
    | _ => none
  | .insert _ =>
    match r.phase with
    | .localised h => some { s.leave k r (.holding h false) with repos := some h }
    | _ => none
  | .fail _ =>
    match r.phase with
    | .holding _ _ | .ended => none
    | _ => some (s.leave k r .ended)
  | .guard _ =>
    match r.phase with
    | .holding h false => if s.locks h then none else some (s.setPhase k r (.holding h true))
    | _ => none
  | .release _ =>
    match r.phase with
    | .holding h true => some (s.setPhase k r (.holding h false))
    | _ => none
  | .finish _ =>
    match r.phase with
    | .holding _ _ => some (s.setPhase k r .ended)
    | _ => none
  | _ => none

/-- A step of one eviction; the locks are held until it ends. -/
def stepEviction (i : ℕ) (e : Eviction) : Event → Option RepoCache
  | .lock _ =>
    if e.phase = .candidate && !s.locks e.handle &&
        !s.requests.any (fun r => r.phase.guards e.handle) then
      some { s with evictions := s.evictions.set i { e with phase := .locked } }
    else none
  | .skip _ =>
    if e.phase = .candidate then
      some { s with evictions := s.evictions.set i { e with phase := .ended } }
    else none
  | .dropEvicted _ =>
    if e.phase = .locked then
      some { s with repos := none, evictions := s.evictions.set i { e with phase := .dropped } }
    else none
  | .removeEvicted _ =>
    if e.phase = .dropped then
      some { s with dir := false, evictions := s.evictions.set i { e with phase := .ended } }
    else none
  | _ => none

/-- A step of one deletion. -/
def stepDeletion (i : ℕ) (p : DeletePhase) : Event → Option RepoCache
  | .dropDeleted _ =>
    if p = .checked then some { s with repos := none, deletions := s.deletions.set i .dropped }
    else none
  | .sweep _ =>
    if p = .dropped then some { s with manifest := false, deletions := s.deletions.set i .swept }
    else none
  | .removeDeleted _ =>
    if p = .swept then some { s with dir := false, deletions := s.deletions.set i .ended }
    else none
  | .failDelete _ =>
    if p = .ended then none else some { s with deletions := s.deletions.set i .ended }
  | _ => none

def step (s : RepoCache) (e : Event) : Option RepoCache :=
  match e with
  | .call kind => some { s with requests := s.requests ++ [⟨kind, .looking⟩] }
  | .lookup k | .enter k | .get k | .put k _ | .initLocal k | .insert k | .fail k | .guard k
  | .release k | .finish k => s.requests[k]?.bind fun r => s.stepRequest k r e
  | .foreign present => some { s with manifest := present }
  | .evict => s.repos.map fun h => { s with evictions := s.evictions ++ [⟨h, .candidate⟩] }
  | .lock i | .skip i | .dropEvicted i | .removeEvicted i =>
    s.evictions[i]?.bind fun x => s.stepEviction i x e
  | .delete =>
    some (if s.manifest then { s with deletions := s.deletions ++ [.checked] } else s)
  | .dropDeleted i | .sweep i | .removeDeleted i | .failDelete i =>
    s.deletions[i]?.bind fun p => s.stepDeletion i p e

/-- The step removes the directory. -/
def Event.removes : Event → Bool
  | .removeEvicted _ | .removeDeleted _ => true
  | _ => false

/-- No request works with a handle. -/
def idle : Bool := s.requests.all fun r => r.phase.handle.isNone

/-- The handle is in the map or a request works with it. -/
def Operates (h : ℕ) : Prop := s.repos = some h ∨ ∃ r ∈ s.requests, r.phase.handle = some h

/-- One handle at most works on the directory. -/
def Sole : Prop := ∀ h h', s.Operates h → s.Operates h' → h = h'

/-- An eviction or a deletion is on its way to remove the directory. -/
def removing : Bool :=
  s.evictions.any (fun e => e.phase = .locked || e.phase = .dropped) ||
    s.deletions.any fun p => p = .dropped || p = .swept

/-- An eviction locks, and a deletion drops, the handle of a repository that no request works
with or opens; until the directory is gone, no request gets at the repository. -/
def calm (s : RepoCache) : Event → Bool
  | .lookup _ => !s.removing || s.repos.isNone
  | .enter _ => !s.removing
  | .lock i => (s.evictions[i]?).all fun e => s.repos = some e.handle && s.idle
  | .dropDeleted _ => s.idle && s.opening.isNone
  | _ => true

/-- What a step of a request does: its phase, the gate and the map after it. -/
inductive Effect (s : RepoCache) (e : Event) (k : ℕ) (r : Request) :
    Phase → Option ℕ → Option ℕ → Prop
  /-- The request goes on or ends without a handle. -/
  | leaves {p : Phase} {opening : Option ℕ} (hp : p.gated = false) (hhandle : p.handle = none)
      (hopening : opening = if r.phase.gated then none else s.opening) :
      Effect s e k r p opening s.repos
  /-- The request gets the handle of the map. -/
  | takes {h : ℕ} (he : e = .lookup k ∨ e = .enter k) (hr : r.phase.gated = false)
      (hrepos : s.repos = some h) : Effect s e k r (.holding h false) s.opening s.repos
  | keeps {h : ℕ} {g g' : Bool} (hr : r.phase = .holding h g) :
      Effect s e k r (.holding h g') s.opening s.repos
  | enters (he : e = .enter k) (hopening : s.opening = none) (hrepos : s.repos = none) :
      Effect s e k r .entered (some k) s.repos
  | works {p : Phase} (hr : r.phase.gated) (hp : p.gated) : Effect s e k r p s.opening s.repos
  | inserts {h : ℕ} (hr : r.phase = .localised h) : Effect s e k r (.holding h false) none (some h)

section Steps

variable {s s' : RepoCache} {e : Event}

theorem stepRequest_effect {k : ℕ} {r : Request} (h : s.stepRequest k r e = some s')
    (he : ∀ j, e = .lookup j ∨ e = .enter j → j = k) :
    ∃ p, s'.requests = s.requests.set k { r with phase := p } ∧ s'.evictions = s.evictions ∧
      s'.deletions = s.deletions ∧ Effect s e k r p s'.opening s'.repos := by
  cases e with
  | lookup j =>
    obtain rfl := he j (Or.inl rfl)
    simp only [stepRequest] at h
    split at h
    · rename_i handle hphase hrepos
      cases h
      exact ⟨_, rfl, rfl, rfl, .takes (Or.inl rfl) (by rw [hphase]; rfl) hrepos⟩
    · rename_i hphase hrepos
      cases h
      exact ⟨_, rfl, rfl, rfl, .leaves rfl rfl (by rw [hphase]; rfl)⟩
    · cases h
  | enter j =>
    obtain rfl := he j (Or.inr rfl)
    simp only [stepRequest] at h
    split_ifs at h with hopening
    have hnone : s.opening = none := by simpa using hopening
    split at h
    · rename_i handle hphase hrepos
      cases h
      exact ⟨_, rfl, rfl, rfl, .takes (Or.inr rfl) (by rw [hphase]; rfl) hrepos⟩
    · rename_i hphase hrepos
      cases h
      exact ⟨_, rfl, rfl, rfl, .enters rfl hnone hrepos⟩
    · cases h
  | get j =>
    simp only [stepRequest] at h
    split at h
    · rename_i hkind hphase
      split_ifs at h <;> cases h
      · exact ⟨_, rfl, rfl, rfl, .works (by rw [hphase]; rfl) rfl⟩
      · exact ⟨_, rfl, rfl, rfl, .leaves rfl rfl rfl⟩
    · cases h
  | put j answered =>
    simp only [stepRequest] at h
    split at h
    · rename_i hkind hphase
      split_ifs at h <;> cases h
      · exact ⟨_, rfl, rfl, rfl, .leaves rfl rfl rfl⟩
      · exact ⟨_, rfl, rfl, rfl, .works (by rw [hphase]; rfl) rfl⟩
      · exact ⟨_, rfl, rfl, rfl, .leaves rfl rfl rfl⟩
    · cases h
  | initLocal j =>
    simp only [stepRequest] at h
    split at h
    · rename_i hphase
      cases h
      exact ⟨_, rfl, rfl, rfl, .works (by rw [hphase]; rfl) rfl⟩
    · cases h
  | insert j =>
    simp only [stepRequest] at h
    split at h
    · rename_i handle hphase
      cases h
      have hopening : (if r.phase.gated then none else s.opening) = none := by rw [hphase]; rfl
      refine ⟨_, rfl, rfl, rfl, ?_⟩
      simp only [leave, hopening]
      exact .inserts hphase
    · cases h
  | fail j =>
    simp only [stepRequest] at h
    split at h
    · cases h
    · cases h
    · cases h
      exact ⟨_, rfl, rfl, rfl, .leaves rfl rfl rfl⟩
  | guard j =>
    simp only [stepRequest] at h
    split at h
    · rename_i handle hphase
      split_ifs at h
      cases h
      exact ⟨_, rfl, rfl, rfl, .keeps hphase⟩
    · cases h
  | release j =>
    simp only [stepRequest] at h
    split at h
    · rename_i handle hphase
      cases h
      exact ⟨_, rfl, rfl, rfl, .keeps hphase⟩
    · cases h
  | finish j =>
    simp only [stepRequest] at h
    split at h
    · rename_i handle g hphase
      cases h
      exact ⟨_, rfl, rfl, rfl, .leaves rfl rfl (by rw [hphase]; rfl)⟩
    · cases h
  | _ => simp [stepRequest] at h

/-- What holds of a host all of whose steps are calm. -/
structure Inv (s : RepoCache) : Prop where
  gate : ∀ (k : ℕ) (r : Request), s.requests[k]? = some r → r.phase.gated → s.opening = some k
  shut : ∀ h, s.repos = some h → s.opening = none
  held : ∀ (k : ℕ) (r : Request) h g, s.requests[k]? = some r → r.phase = .holding h g →
    s.repos = some h
  quiet : s.removing → s.idle ∧ s.opening = none

theorem inv_init : Inv init := ⟨by simp [init], by simp [init], by simp [init], by decide⟩

theorem idle_iff : s.idle ↔
    ∀ (k : ℕ) (r : Request), s.requests[k]? = some r → r.phase.handle = none := by
  simp only [idle, List.all_eq_true, Option.isNone_iff_eq_none]
  constructor
  · intro h k r hr
    exact h r (List.mem_of_getElem? hr)
  · intro h r hr
    obtain ⟨k, hk⟩ := List.mem_iff_getElem?.mp hr
    exact h k r hk

/-- A handle that works on the directory is in the map, or on its way there behind the gate. -/
theorem Inv.operates (h : Inv s) {x : ℕ} (hx : s.Operates x) :
    s.repos = some x ∨ ∃ k r, s.requests[k]? = some r ∧ r.phase = .localised x ∧
      s.opening = some k := by
  rcases hx with hx | ⟨r, hr, hx⟩
  · exact Or.inl hx
  · obtain ⟨k, hk⟩ := List.mem_iff_getElem?.mp hr
    cases hphase : r.phase with
    | holding y g =>
      rw [hphase] at hx
      cases hx
      exact Or.inl (h.held k r x g hk hphase)
    | localised y =>
      rw [hphase] at hx
      cases hx
      exact Or.inr ⟨k, r, hk, hphase, h.gate k r hk (by rw [hphase]; rfl)⟩
    | looking | waiting | entered | read | ended => simp [hphase, Phase.handle] at hx

theorem Inv.sole (h : Inv s) : s.Sole := by
  intro x y hx hy
  rcases h.operates hx with hx | ⟨k, r, hk, hr, hopening⟩ <;>
    rcases h.operates hy with hy | ⟨j, r', hj, hr', hopening'⟩
  · exact Option.some.inj (hx.symm.trans hy)
  · simp [h.shut x hx] at hopening'
  · simp [h.shut y hy] at hopening
  · obtain rfl : k = j := Option.some.inj (hopening.symm.trans hopening')
    obtain rfl : r = r' := Option.some.inj (hk.symm.trans hj)
    simpa [hr] using hr'

/-- A request moves to phase `p`, and the gate and the map follow. -/
theorem Inv.update {k : ℕ} {r : Request} {p : Phase} (h : Inv s)
    (hrequests : s'.requests = s.requests.set k { r with phase := p })
    (hremoving : s'.removing = s.removing)
    (hgate : p.gated → s'.opening = some k)
    (hgates : ∀ j, j ≠ k → s.opening = some j → s'.opening = some j)
    (hshut : ∀ x, s'.repos = some x → s'.opening = none)
    (hheld : ∀ x g, p = .holding x g → s'.repos = some x)
    (hkept : ∀ x, s.repos = some x → s'.repos = some x)
    (hquiet : s.removing → p.handle = none ∧ s'.opening = none) : Inv s' := by
  have hlookup : ∀ (j : ℕ) (r' : Request), s'.requests[j]? = some r' →
      (j = k ∧ r'.phase = p) ∨ j ≠ k ∧ s.requests[j]? = some r' := by
    intro j r' hj
    rw [hrequests, List.getElem?_set] at hj
    split_ifs at hj with hjk
    · cases hj
      exact Or.inl ⟨hjk.symm, rfl⟩
    · exact Or.inr ⟨fun heq => hjk heq.symm, hj⟩
  refine ⟨fun j r' hj hgated => ?_, hshut, fun j r' x g hj hphase => ?_, fun hrem => ?_⟩
  · rcases hlookup j r' hj with ⟨rfl, hp⟩ | ⟨hne, hold⟩
    · exact hgate (hp ▸ hgated)
    · exact hgates j hne (h.gate j r' hold hgated)
  · rcases hlookup j r' hj with ⟨rfl, hp⟩ | ⟨hne, hold⟩
    · exact hheld x g (hp ▸ hphase)
    · exact hkept x (h.held j r' x g hold hphase)
  · rw [hremoving] at hrem
    obtain ⟨hhandle, hopening⟩ := hquiet hrem
    refine ⟨idle_iff.mpr fun j r' hj => ?_, hopening⟩
    rcases hlookup j r' hj with ⟨rfl, hp⟩ | ⟨hne, hold⟩
    · rw [hp, hhandle]
    · exact idle_iff.mp (h.quiet hrem).1 j r' hold

/-- Nothing is being removed while a request is behind the gate or has a handle. -/
theorem Inv.busy {k : ℕ} {r : Request} (h : Inv s) (hr : s.requests[k]? = some r)
    (hbusy : r.phase.gated ∨ r.phase.handle.isSome) : ¬ s.removing := by
  intro hrem
  obtain ⟨hidle, hopening⟩ := h.quiet hrem
  rcases hbusy with hgated | hhandle
  · rw [h.gate k r hr hgated] at hopening
    cases hopening
  · rw [idle_iff.mp hidle k r hr] at hhandle
    cases hhandle

theorem Inv.stepRequest {k : ℕ} {r : Request} {p : Phase} (h : Inv s) (hcalm : calm s e)
    (hr : s.requests[k]? = some r)
    (hrequests : s'.requests = s.requests.set k { r with phase := p })
    (hevictions : s'.evictions = s.evictions) (hdeletions : s'.deletions = s.deletions)
    (heffect : Effect s e k r p s'.opening s'.repos) : Inv s' := by
  have hremoving : s'.removing = s.removing := by simp only [removing, hevictions, hdeletions]
  generalize hopening : s'.opening = opening at heffect
  generalize hrepos : s'.repos = repos at heffect
  cases heffect with
  | leaves hp hhandle ho =>
    refine h.update hrequests hremoving ?_ ?_ ?_ ?_ ?_ ?_
    · simp [hp]
    · intro j hne hj
      rw [hopening, ho]
      split_ifs with hgated
      · rw [h.gate k r hr hgated] at hj
        exact absurd (Option.some.inj hj).symm hne
      · exact hj
    · intro x hx
      rw [hopening, ho, h.shut x (hrepos ▸ hx)]
      simp
    · rintro x g rfl
      cases hhandle
    · exact fun x hx => hrepos ▸ hx
    · intro hrem
      rw [hopening, ho, (h.quiet hrem).2]
      exact ⟨hhandle, by simp⟩
  | takes he hfree hsome =>
    refine h.update hrequests hremoving ?_ ?_ ?_ ?_ ?_ ?_
    · simp [Phase.gated]
    · exact fun j _ hj => hopening ▸ hj
    · exact fun x hx => hopening ▸ h.shut x (hrepos ▸ hx)
    · rintro x g ⟨⟩
      exact hrepos ▸ hsome
    · exact fun x hx => hrepos ▸ hx
    · intro hrem
      rcases he with rfl | rfl <;> simp [calm, hrem, hsome] at hcalm
  | keeps hphase =>
    refine h.update hrequests hremoving ?_ ?_ ?_ ?_ ?_ ?_
    · simp [Phase.gated]
    · exact fun j _ hj => hopening ▸ hj
    · exact fun x hx => hopening ▸ h.shut x (hrepos ▸ hx)
    · rintro x g ⟨⟩
      exact hrepos ▸ h.held k r _ _ hr hphase
    · exact fun x hx => hrepos ▸ hx
    · exact fun hrem => absurd hrem (h.busy hr (Or.inr (by rw [hphase]; rfl)))
  | enters he hfree hnone =>
    refine h.update hrequests hremoving ?_ ?_ ?_ ?_ ?_ ?_
    · exact fun _ => hopening
    · simp [hfree]
    · simp [hrepos, hnone]
    · rintro x g ⟨⟩
    · exact fun x hx => hrepos ▸ hx
    · intro hrem
      subst he
      simp [calm, hrem] at hcalm
  | works hgated hp =>
    refine h.update hrequests hremoving ?_ ?_ ?_ ?_ ?_ ?_
    · exact fun _ => hopening ▸ h.gate k r hr hgated
    · exact fun j _ hj => hopening ▸ hj
    · exact fun x hx => hopening ▸ h.shut x (hrepos ▸ hx)
    · rintro x g rfl
      cases hp
    · exact fun x hx => hrepos ▸ hx
    · exact fun hrem => absurd hrem (h.busy hr (Or.inl hgated))
  | inserts hphase =>
    have hgated : r.phase.gated := by rw [hphase]; rfl
    have hgate := h.gate k r hr hgated
    refine h.update hrequests hremoving ?_ ?_ ?_ ?_ ?_ ?_
    · simp [Phase.gated]
    · intro j hne hj
      exact absurd (Option.some.inj (hgate.symm.trans hj)).symm hne
    · exact fun _ _ => hopening
    · rintro x g ⟨⟩
      exact hrepos
    · intro x hx
      simp [h.shut x hx] at hgate
    · exact fun hrem => absurd hrem (h.busy hr (Or.inl hgated))

/-- The requests stay as they are, and a handle leaves the map only while none has it. -/
theorem Inv.retain (h : Inv s) (hrequests : s'.requests = s.requests)
    (hopening : s'.opening = s.opening)
    (hrepos : s'.repos = s.repos ∨ s'.repos = none ∧ s.idle)
    (hquiet : s'.removing → s.removing ∨ s.idle ∧ s.opening = none) : Inv s' := by
  refine ⟨fun k r hr hgated => ?_, fun x hx => ?_, fun k r x g hr hphase => ?_, fun hrem => ?_⟩
  · rw [hopening]
    exact h.gate k r (hrequests ▸ hr) hgated
  · rw [hopening]
    rcases hrepos with heq | ⟨hnone, -⟩
    · exact h.shut x (heq ▸ hx)
    · simp [hnone] at hx
  · rw [hrequests] at hr
    rcases hrepos with heq | ⟨-, hidle⟩
    · rw [heq]
      exact h.held k r x g hr hphase
    · have hnone := idle_iff.mp hidle k r hr
      simp [hphase, Phase.handle] at hnone
  · have hidle : s'.idle = s.idle := by simp only [idle, hrequests]
    rw [hidle, hopening]
    rcases hquiet hrem with hold | hnew
    · exact h.quiet hold
    · exact hnew

/-- A new request has no handle. -/
theorem Inv.call (h : Inv s) (kind : OpenKind) :
    Inv { s with requests := s.requests ++ [⟨kind, .looking⟩] } := by
  have hlookup : ∀ (k : ℕ) (r : Request), (s.requests ++ [⟨kind, .looking⟩])[k]? = some r →
      s.requests[k]? = some r ∨ r.phase = .looking := by
    intro k r hr
    rw [List.getElem?_append] at hr
    split_ifs at hr
    · exact Or.inl hr
    · rw [List.mem_singleton.mp (List.mem_of_getElem? hr)]
      exact Or.inr rfl
  refine ⟨fun k r hr hgated => ?_, h.shut, fun k r x g hr hphase => ?_, fun hrem => ?_⟩
  · rcases hlookup k r hr with hold | hnew
    · exact h.gate k r hold hgated
    · rw [hnew] at hgated
      cases hgated
  · rcases hlookup k r hr with hold | hnew
    · exact h.held k r x g hold hphase
    · rw [hnew] at hphase
      cases hphase
  · obtain ⟨hidle, hopening⟩ := h.quiet hrem
    refine ⟨idle_iff.mpr fun k r hr => ?_, hopening⟩
    rcases hlookup k r hr with hold | hnew
    · exact idle_iff.mp hidle k r hold
    · rw [hnew]
      rfl

theorem any_set {α : Type} {l : List α} {i : ℕ} {a : α} {p : α → Bool}
    (h : (l.set i a).any p) : l.any p ∨ p a := by
  obtain ⟨b, hb, hpb⟩ := List.any_eq_true.mp h
  rcases List.mem_or_eq_of_mem_set hb with hmem | rfl
  · exact Or.inl (List.any_eq_true.mpr ⟨b, hmem, hpb⟩)
  · exact Or.inr hpb

theorem removing_iff : s.removing ↔
    (s.evictions.any fun e => e.phase = .locked || e.phase = .dropped) ∨
      s.deletions.any fun p => p = .dropped || p = .swept := by
  simp only [removing, Bool.or_eq_true]

theorem Inv.stepEviction {i : ℕ} {x : Eviction} (h : Inv s) (hcalm : calm s e)
    (hx : s.evictions[i]? = some x) (he : ∀ j, e = .lock j → j = i)
    (hstep : s.stepEviction i x e = some s') : Inv s' := by
  have hbegun : x.phase = .locked ∨ x.phase = .dropped → s.removing := fun hphase =>
    removing_iff.mpr (Or.inl (List.any_eq_true.mpr
      ⟨x, List.mem_of_getElem? hx, by simpa using hphase⟩))
  cases e with
  | lock j =>
    obtain rfl := he j rfl
    simp only [RepoCache.stepEviction] at hstep
    split_ifs at hstep
    cases hstep
    simp only [calm, hx, Option.all_some, Bool.and_eq_true, decide_eq_true_eq] at hcalm
    exact h.retain rfl rfl (Or.inl rfl) fun _ => Or.inr ⟨hcalm.2, h.shut _ hcalm.1⟩
  | skip j =>
    simp only [RepoCache.stepEviction] at hstep
    split_ifs at hstep
    cases hstep
    refine h.retain rfl rfl (Or.inl rfl) fun hrem => Or.inl ?_
    rcases removing_iff.mp hrem with hev | hdel
    · rcases any_set hev with hold | hnew
      · exact removing_iff.mpr (Or.inl hold)
      · cases hnew
    · exact removing_iff.mpr (Or.inr hdel)
  | dropEvicted j =>
    simp only [RepoCache.stepEviction] at hstep
    split_ifs at hstep with hphase
    cases hstep
    have hrem := hbegun (Or.inl hphase)
    exact h.retain rfl rfl (Or.inr ⟨rfl, (h.quiet hrem).1⟩) fun _ => Or.inl hrem
  | removeEvicted j =>
    simp only [RepoCache.stepEviction] at hstep
    split_ifs at hstep with hphase
    cases hstep
    exact h.retain rfl rfl (Or.inl rfl) fun _ => Or.inl (hbegun (Or.inr hphase))
  | _ => simp [RepoCache.stepEviction] at hstep

theorem Inv.stepDeletion {i : ℕ} {x : DeletePhase} (h : Inv s) (hcalm : calm s e)
    (hx : s.deletions[i]? = some x) (hstep : s.stepDeletion i x e = some s') : Inv s' := by
  have hbegun : x = .dropped ∨ x = .swept → s.removing := fun hphase =>
    removing_iff.mpr (Or.inr (List.any_eq_true.mpr
      ⟨x, List.mem_of_getElem? hx, by simpa using hphase⟩))
  cases e with
  | dropDeleted j =>
    simp only [RepoCache.stepDeletion] at hstep
    split_ifs at hstep
    cases hstep
    simp only [calm, Bool.and_eq_true, Option.isNone_iff_eq_none] at hcalm
    exact h.retain rfl rfl (Or.inr ⟨rfl, hcalm.1⟩) fun _ => Or.inr hcalm
  | sweep j =>
    simp only [RepoCache.stepDeletion] at hstep
    split_ifs at hstep with hphase
    cases hstep
    exact h.retain rfl rfl (Or.inl rfl) fun _ => Or.inl (hbegun (Or.inl hphase))
  | removeDeleted j =>
    simp only [RepoCache.stepDeletion] at hstep
    split_ifs at hstep with hphase
    cases hstep
    exact h.retain rfl rfl (Or.inl rfl) fun _ => Or.inl (hbegun (Or.inr hphase))
  | failDelete j =>
    simp only [RepoCache.stepDeletion] at hstep
    split_ifs at hstep
    cases hstep
    refine h.retain rfl rfl (Or.inl rfl) fun hrem => Or.inl ?_
    rcases removing_iff.mp hrem with hev | hdel
    · exact removing_iff.mpr (Or.inl hev)
    · rcases any_set hdel with hold | hnew
      · exact removing_iff.mpr (Or.inr hold)
      · cases hnew
  | _ => simp [RepoCache.stepDeletion] at hstep

theorem Inv.step (h : Inv s) (hcalm : calm s e) (hstep : step s e = some s') : Inv s' := by
  have hrequest : ∀ k, (∀ j, e = .lookup j ∨ e = .enter j → j = k) →
      ((s.requests[k]?).bind fun r => s.stepRequest k r e) = some s' → Inv s' := by
    intro k he hbind
    obtain ⟨r, hr, hstep⟩ := Option.bind_eq_some_iff.mp hbind
    obtain ⟨p, hrequests, hevictions, hdeletions, heffect⟩ := stepRequest_effect hstep he
    exact h.stepRequest hcalm hr hrequests hevictions hdeletions heffect
  have heviction : ∀ i, (∀ j, e = .lock j → j = i) →
      ((s.evictions[i]?).bind fun x => s.stepEviction i x e) = some s' → Inv s' := by
    intro i he hbind
    obtain ⟨x, hx, hstep⟩ := Option.bind_eq_some_iff.mp hbind
    exact h.stepEviction hcalm hx he hstep
  have hdeletion : ∀ i, ((s.deletions[i]?).bind fun p => s.stepDeletion i p e) = some s' →
      Inv s' := by
    intro i hbind
    obtain ⟨x, hx, hstep⟩ := Option.bind_eq_some_iff.mp hbind
    exact h.stepDeletion hcalm hx hstep
  cases e with
  | call kind =>
    cases hstep
    exact h.call kind
  | lookup k | enter k | get k | put k _ | initLocal k | insert k | fail k | guard k | release k
  | finish k => exact hrequest k (by simp) hstep
  | foreign present =>
    cases hstep
    exact h.retain rfl rfl (Or.inl rfl) Or.inl
  | evict =>
    obtain ⟨x, hx, rfl⟩ := Option.map_eq_some_iff.mp hstep
    refine h.retain rfl rfl (Or.inl rfl) fun hrem => Or.inl ?_
    simpa [removing] using hrem
  | lock i | skip i | dropEvicted i | removeEvicted i => exact heviction i (by simp) hstep
  | delete =>
    simp only [RepoCache.step, Option.some.injEq] at hstep
    split_ifs at hstep <;> cases hstep
    · refine h.retain rfl rfl (Or.inl rfl) fun hrem => Or.inl ?_
      simpa [removing] using hrem
    · exact h
  | dropDeleted i | sweep i | removeDeleted i | failDelete i => exact hdeletion i hstep

/-- What removes the directory has been under way, so nobody works with a handle. -/
theorem Inv.removes (h : Inv s) (hremoves : e.removes) (hstep : RepoCache.step s e = some s') :
    s.idle := by
  refine (h.quiet ?_).1
  cases e with
  | removeEvicted i =>
    obtain ⟨x, hx, hstep⟩ := Option.bind_eq_some_iff.mp hstep
    simp only [RepoCache.stepEviction] at hstep
    split_ifs at hstep with hphase
    exact removing_iff.mpr (Or.inl (List.any_eq_true.mpr
      ⟨x, List.mem_of_getElem? hx, by simp [hphase]⟩))
  | removeDeleted i =>
    obtain ⟨x, hx, hstep⟩ := Option.bind_eq_some_iff.mp hstep
    simp only [RepoCache.stepDeletion] at hstep
    split_ifs at hstep with hphase
    exact removing_iff.mpr (Or.inr (List.any_eq_true.mpr
      ⟨x, List.mem_of_getElem? hx, by simp [hphase]⟩))
  | _ => cases hremoves

/-- When every step is calm, one handle at most works on the directory, and the directory is
removed only while no request works with a handle. -/
theorem directory_exclusive {events : List Event}
    (hcalm : Runs.AllSteps step (fun s e => calm s e = true) init events)
    (hrun : Runs.run step init events = some s) :
    s.Sole ∧ ∀ e t, step s e = some t → e.removes → s.idle := by
  have hinv : Inv s :=
    Runs.invariant (I := Inv) (fun _ _ _ h hok hstep => h.step hok hstep) hrun hcalm inv_init
  exact ⟨hinv.sole, fun e t hstep hremoves => hinv.removes hremoves hstep⟩

end Steps

section Hosts

/-- Request `k` comes and finds no handle and no fault. -/
def opened (k : ℕ) : List Event :=
  [.call .openRepo, .lookup k, .enter k, .get k, .initLocal k, .insert k]

/-- The repository is used, evicted once idle, and opened again. -/
def idleEviction : List Event :=
  .foreign true :: (opened 0 ++ .guard 0 :: .release 0 :: .finish 0 :: .evict :: .lock 0 ::
    .dropEvicted 0 :: .removeEvicted 0 :: opened 1)

theorem directory_exclusive_idleEviction :
    ∃ s, Runs.run step init idleEviction = some s ∧ s.Sole ∧
      ∀ e t, step s e = some t → e.removes → s.idle := by
  have hrun : (Runs.run step init idleEviction).isSome := by decide
  obtain ⟨s, hs⟩ := Option.isSome_iff_exists.mp hrun
  exact ⟨s, hs, directory_exclusive (by decide) hs⟩

/-- The eviction finds both locks free while a request has the handle and no guard. -/
def heldEviction : List Event :=
  .foreign true :: (opened 0 ++ [.evict, .lock 0, .dropEvicted 0])

/-- Then the directory is removed, and the next request opens the repository. -/
def sharedDirectory : List Event := heldEviction ++ .removeEvicted 0 :: opened 1

/-- The directory goes under the request, and the next one works on it with another handle. -/
theorem directory_shared :
    (∃ s t, Runs.run step init heldEviction = some s ∧ step s (.removeEvicted 0) = some t ∧
      s.idle = false) ∧
    ∃ s, Runs.run step init sharedDirectory = some s ∧ ¬ s.Sole := by
  have hheld : (Runs.run step init heldEviction).any fun s =>
      (step s (.removeEvicted 0)).isSome && !s.idle := by decide
  have htwo : (Runs.run step init sharedDirectory).map
      (fun s => (s.repos, s.requests.map Request.phase)) =
        some (some 1, [.holding 0 false, .holding 1 false]) := by decide
  constructor
  · obtain ⟨s, hs, hsome⟩ := (Option.any_eq_true _ _).mp hheld
    simp only [Bool.and_eq_true, Bool.not_eq_true'] at hsome
    obtain ⟨t, ht⟩ := Option.isSome_iff_exists.mp hsome.1
    exact ⟨s, t, hs, ht, hsome.2⟩
  · obtain ⟨s, hs, heq⟩ := Option.map_eq_some_iff.mp htwo
    obtain ⟨hrepos, hphases⟩ := Prod.mk.inj heq
    refine ⟨s, hs, fun hsole => ?_⟩
    have hfirst : s.Operates 0 := by
      have hmem : Phase.holding 0 false ∈ s.requests.map Request.phase := by simp [hphases]
      obtain ⟨r, hr, hphase⟩ := List.mem_map.mp hmem
      exact Or.inr ⟨r, hr, by rw [hphase]; rfl⟩
    exact absurd (hsole 0 1 hfirst (Or.inl hrepos)) (by decide)

end Hosts

end RepoCache

end Walgit
