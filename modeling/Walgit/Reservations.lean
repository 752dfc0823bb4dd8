import Walgit.AccountHosts
import Walgit.Authorize

/-!
# Reserved namespaces

A repository is created only in a namespace that somebody holds: a user, an organisation, or the
reservation that `authorize_create` makes for a site admin before the creation goes on.
-/
namespace Walgit

open Checks (guard_ok bind_eq_ok)

/-- `authorize_create`'s question, which tells an organisation of others from nobody's name. -/
def AccountsState.mayCreate (s : AccountsState) (owner me : String) : Option Bool :=
  match s.namespaceOf owner with
  | .user u => some (u.userId == me)
  | .org o => some (o.owners.find? me).isSome
  | .reserved | .free => none

inductive CreatePhase where
  | deciding (p : AccountLog.SyncPhase)
  | reserving (p : AccountLog.SyncPhase)
  | publishing
  | authorized
  | refused (e : ApiError)
  /-- The manifest was created when the account log was this long. -/
  | created (n : ℕ)
  deriving DecidableEq

/-- A request that creates a repository. -/
structure CreateCall where
  host : ℕ
  id : RepoId
  subject : Subject
  phase : CreatePhase

structure CreateCalls where
  accounts : AccountLog
  calls : List CreateCall

inductive CreateEvent where
  | deed (d : AccountDeed)
  | authorizeCreate (host : ℕ) (id : RepoId) (subject : Subject)
  | synced (k : ℕ) (e : LogEntry)
  | read (k : ℕ)
  | publish (k : ℕ) (e : LogEntry)
  | createManifest (k : ℕ)

namespace CreateCalls

def init : CreateCalls := ⟨.init, []⟩

def setPhase (s : CreateCalls) (k : ℕ) (c : CreateCall) (phase : CreatePhase) : CreateCalls :=
  { s with calls := s.calls.set k { c with phase := phase } }

/-- What follows from the first read. -/
def afterRead (s : CreateCalls) (c : CreateCall) : CreatePhase :=
  let mine := (s.accounts.read c.host).mayCreate c.id.owner (c.subject.userId.getD "")
  if c.subject.siteAdmin then
    if mine.isNone then .reserving (.syncing false) else .authorized
  else match mine with
    | some true =>
      if c.subject.canCreate then .authorized
      else .refused (.denied (c.subject.name ++ " may not create repositories on this host"))
    | _ => .refused (.denied (c.subject.name ++ " can only create repositories under " ++
        c.subject.name ++ "/ or an org they own, not " ++ c.id.owner ++ "/"))

/-- The first read lets a creation go on only in a name that it found taken. -/
theorem afterRead_cases (s : CreateCalls) (c : CreateCall) :
    s.afterRead c = .authorized ∧ (s.accounts.read c.host).namespaceOf c.id.owner ≠ .free ∨
      s.afterRead c = .reserving (.syncing false) ∨ ∃ e, s.afterRead c = .refused e := by
  have htaken : ∀ {t : AccountsState} {owner me : String} {b : Bool},
      t.mayCreate owner me = some b → t.namespaceOf owner ≠ .free := by
    intro t owner me b hb hfree
    simp [AccountsState.mayCreate, hfree] at hb
  unfold afterRead
  cases hmine : (s.accounts.read c.host).mayCreate c.id.owner (c.subject.userId.getD "") with
  | none => by_cases hsite : c.subject.siteAdmin <;> simp [hsite]
  | some b =>
    by_cases hsite : c.subject.siteAdmin
    · exact Or.inl ⟨by simp [hsite], htaken hmine⟩
    · cases b
      · simp [hsite]
      · by_cases hcan : c.subject.canCreate
        · exact Or.inl ⟨by simp [hsite, hcan], htaken hmine⟩
        · simp [hsite, hcan]

section Calls

variable [Text.CharTables]

/-- One step of the requests on all hosts; `none` when it is not enabled. -/
def step (s : CreateCalls) : CreateEvent → Option CreateCalls
  | .deed d => (s.accounts.step d).map fun a => { s with accounts := a }
  | .authorizeCreate host id subject =>
    let phase : CreatePhase :=
      if subject.isAnonymous then .refused .unauthorized else .deciding (.syncing false)
    some { s with calls := s.calls ++ [⟨host, id, subject, phase⟩] }
  | .synced k e => do
    let c ← s.calls[k]?
    match c.phase with
    | .deciding p => (s.accounts.synced c.host e p).map fun r =>
        { s.setPhase k c (.deciding r.2) with accounts := r.1 }
    | .reserving p => (s.accounts.synced c.host e p).map fun r =>
        { s.setPhase k c (.reserving r.2) with accounts := r.1 }
    | _ => none
  | .read k => do
    let c ← s.calls[k]?
    match c.phase with
    | .deciding .ready => some (s.setPhase k c (s.afterRead c))
    | .reserving .ready => some (s.setPhase k c
        (if (s.accounts.read c.host).namespaceOf c.id.owner = .reserved then .authorized
        else .publishing))
    | _ => none
  | .publish k e => do
    let c ← s.calls[k]?
    if c.phase ≠ .publishing || e.account ≠ [.namespaceReserved c.id.owner] then none
    else match s.accounts.state.verify e.account with
      | .error m => some (s.setPhase k c (.refused (.conflict m)))
      | .ok _ => (s.accounts.step (.commit e)).map fun a =>
          { s.setPhase k c .authorized with accounts := a }
  | .createManifest k => do
    let c ← s.calls[k]?
    if c.phase ≠ .authorized then none
    else some (s.setPhase k c (.created s.accounts.log.length))

/-- Whoever may go on with a creation has a name that is taken. -/
structure Held (s : CreateCalls) : Prop where
  accounts : s.accounts.Inv
  authorized : ∀ c ∈ s.calls, c.phase = .authorized →
    s.accounts.state.namespaceOf c.id.owner ≠ .free
  created : ∀ c ∈ s.calls, ∀ n, c.phase = .created n → n ≤ s.accounts.log.length ∧
    ∃ t, Runs.run AccountsState.accept .empty (s.accounts.log.take n) = some t ∧
      t.namespaceOf c.id.owner ≠ .free

theorem indexed_of_run {log : List LogEntry} {t : AccountsState}
    (hrun : Runs.run AccountsState.accept .empty log = some t) : t.Indexed :=
  (AccountsState.Keeps.run AccountsState.indexed_empty hrun).indexed

variable {s s' : CreateCalls}

theorem Held.grows (h : Held s) {a : AccountLog} (ha : a.Inv)
    (hgrows : AccountLog.Grows s.accounts a) : Held { s with accounts := a } := by
  have hkeeps : AccountsState.Keeps s.accounts.state a.state := by
    obtain ⟨new, hnew⟩ := hgrows.log
    have hwhole := ha.run
    rw [hnew, Runs.run_append, h.accounts.run] at hwhole
    exact .run (indexed_of_run h.accounts.run) hwhole
  refine ⟨ha, fun c hc hphase => ?_, fun c hc n hphase => ?_⟩
  · exact hkeeps.not_free (indexed_of_run h.accounts.run) (h.authorized c hc hphase)
  · obtain ⟨hn, t, hrun, htaken⟩ := h.created c hc n hphase
    exact ⟨hn.trans hgrows.length, t, by rw [hgrows.take hn, hrun], htaken⟩

theorem Held.setPhase (h : Held s) {k : ℕ} {c : CreateCall} {phase : CreatePhase}
    (hauthorized : phase = .authorized → s.accounts.state.namespaceOf c.id.owner ≠ .free)
    (hcreated : ∀ n, phase = .created n → n ≤ s.accounts.log.length ∧
      ∃ t, Runs.run AccountsState.accept .empty (s.accounts.log.take n) = some t ∧
        t.namespaceOf c.id.owner ≠ .free) : Held (s.setPhase k c phase) := by
  refine ⟨h.accounts, fun b hb => ?_, fun b hb => ?_⟩
  · rcases List.mem_or_eq_of_mem_set hb with hb | rfl
    · exact h.authorized b hb
    · exact hauthorized
  · rcases List.mem_or_eq_of_mem_set hb with hb | rfl
    · exact h.created b hb
    · exact hcreated

/-- A read that finds the name taken is right from then on. -/
theorem Held.read (h : Held s) {host : ℕ} {owner : String}
    (htaken : (s.accounts.read host).namespaceOf owner ≠ .free) :
    s.accounts.state.namespaceOf owner ≠ .free := by
  obtain ⟨hindexed, hkeeps⟩ := AccountLog.read_keeps h.accounts host
  exact hkeeps.not_free hindexed htaken

/-- The reservation of a name leaves it taken. -/
theorem reserved_taken {t u : AccountsState} {owner : String} {e : LogEntry} (ht : t.Indexed)
    (hevent : e.account = [.namespaceReserved owner]) (haccept : t.accept e = some u) :
    u.namespaceOf owner ≠ .free := by
  have hindexed := (AccountsState.Keeps.entry ht haccept).indexed
  obtain ⟨-, -, hlogin, -⟩ := AccountsState.accept_ok haccept
  rw [ne_eq, hindexed.free_iff, hlogin, hevent, List.foldl_cons, List.foldl_nil]
  simp only [AccountsState.apply, AccountsState.reserve]
  split_ifs with hsome
  · exact Option.isSome_iff_ne_none.mp hsome
  · simp

theorem Held.step {e : CreateEvent} (h : Held s) (hstep : step s e = some s') : Held s' := by
  cases e with
  | deed d =>
    obtain ⟨a, ha, rfl⟩ := Option.map_eq_some_iff.mp hstep
    obtain ⟨hinv, hgrows⟩ := AccountLog.step_inv h.accounts ha
    exact h.grows hinv hgrows
  | authorizeCreate host id subject =>
    cases hstep
    have hnew : ∀ c ∈ s.calls ++ [⟨host, id, subject, if subject.isAnonymous then
        .refused .unauthorized else .deciding (.syncing false)⟩],
        c ∈ s.calls ∨ c.phase ≠ .authorized ∧ ∀ n, c.phase ≠ .created n := by
      intro c hc
      refine (List.mem_append.mp hc).imp_right fun hc => ?_
      rw [List.mem_singleton.mp hc]
      dsimp only
      split_ifs <;> simp
    refine ⟨h.accounts, fun c hc hphase => ?_, fun c hc n hphase => ?_⟩
    · rcases hnew c hc with hold | ⟨hno, -⟩
      · exact h.authorized c hold hphase
      · exact absurd hphase hno
    · rcases hnew c hc with hold | ⟨-, hno⟩
      · exact h.created c hold n hphase
      · exact absurd hphase (hno n)
  | synced k e =>
    obtain ⟨c, hc, hrest⟩ := Option.bind_eq_some_iff.mp hstep
    split at hrest
    · obtain ⟨r, hr, rfl⟩ := Option.map_eq_some_iff.mp hrest
      obtain ⟨hinv, hgrows⟩ := AccountLog.synced_inv h.accounts hr
      exact (h.grows hinv hgrows).setPhase (s := { s with accounts := r.1 }) nofun nofun
    · obtain ⟨r, hr, rfl⟩ := Option.map_eq_some_iff.mp hrest
      obtain ⟨hinv, hgrows⟩ := AccountLog.synced_inv h.accounts hr
      exact (h.grows hinv hgrows).setPhase (s := { s with accounts := r.1 }) nofun nofun
    · cases hrest
  | read k =>
    obtain ⟨c, hc, hrest⟩ := Option.bind_eq_some_iff.mp hstep
    split at hrest
    · cases hrest
      rcases s.afterRead_cases c with ⟨heq, htaken⟩ | heq | ⟨err, heq⟩ <;> rw [heq]
      · exact h.setPhase (fun _ => h.read htaken) nofun
      · exact h.setPhase nofun nofun
      · exact h.setPhase nofun nofun
    · cases hrest
      refine h.setPhase (fun hauthorized => h.read
        (?_ : (s.accounts.read c.host).namespaceOf _ ≠ .free)) fun n hn => ?_
      · split_ifs at hauthorized with hreserved
        simp [hreserved]
      · split_ifs at hn
    · cases hrest
  | publish k e =>
    obtain ⟨c, hc, hrest⟩ := Option.bind_eq_some_iff.mp hstep
    split_ifs at hrest with hphase
    split at hrest
    · cases hrest
      exact h.setPhase nofun nofun
    · obtain ⟨a, ha, rfl⟩ := Option.map_eq_some_iff.mp hrest
      obtain ⟨hinv, hgrows⟩ := AccountLog.step_inv h.accounts ha
      obtain ⟨u, hu, rfl⟩ := Option.map_eq_some_iff.mp ha
      simp only [ne_eq, Bool.or_eq_true, decide_eq_true_eq, not_or, not_not] at hphase
      exact (h.grows hinv hgrows).setPhase (s := { s with accounts := _ })
        (fun _ => reserved_taken (indexed_of_run h.accounts.run) hphase.2 hu) nofun
  | createManifest k =>
    obtain ⟨c, hc, hrest⟩ := Option.bind_eq_some_iff.mp hstep
    split_ifs at hrest with hphase
    cases hrest
    have htaken := h.authorized c (List.mem_of_getElem? hc) (not_not.mp hphase)
    refine h.setPhase nofun fun n hn => ?_
    cases hn
    exact ⟨le_rfl, s.accounts.state, by rw [List.take_length, h.accounts.run], htaken⟩

/-- When a manifest is created, the owner's name is taken, and no later entry gives it to a user
who did not hold it then. -/
theorem created_namespace_kept {events : List CreateEvent}
    (hrun : Runs.run step init events = some s) {c : CreateCall} (hc : c ∈ s.calls) {n : ℕ}
    (hcreated : c.phase = .created n) :
    ∃ t, Runs.run AccountsState.accept .empty (s.accounts.log.take n) = some t ∧
      t.namespaceOf c.id.owner ≠ .free ∧
      ∀ m t' u, n ≤ m → Runs.run AccountsState.accept .empty (s.accounts.log.take m) = some t' →
        t'.namespaceOf c.id.owner = .user u →
        ∃ v, t.namespaceOf c.id.owner = .user v ∧ v.userId = u.userId := by
  have hheld : Held s := Runs.invariant (I := Held) (fun _ _ _ h _ hstep => h.step hstep) hrun
    (Runs.allSteps_true _ _) ⟨AccountLog.inv_init, by simp [init], by simp [init]⟩
  obtain ⟨hn, t, ht, htaken⟩ := hheld.created c hc n hcreated
  refine ⟨t, ht, htaken, fun m t' u hm ht' hu => ?_⟩
  have hkeeps : AccountsState.Keeps t t' := by
    have hsplit : s.accounts.log.take m =
        s.accounts.log.take n ++ (s.accounts.log.take m).drop n := by
      conv_lhs => rw [← List.take_append_drop n (s.accounts.log.take m)]
      rw [List.take_take, Nat.min_eq_left hm]
    rw [hsplit, Runs.run_append, ht] at ht'
    exact .run (indexed_of_run ht) ht'
  exact hkeeps.user_before (indexed_of_run ht) htaken hu

end Calls

section Admin

attribute [local instance] Text.asciiTables

/-- A site admin's creation in nobody's namespace reserves it first. -/
def adminCreation : List CreateEvent :=
  let genesis : LogEntry := { seq := 1, account := [.genesis []] }
  let reservation : LogEntry := { seq := 2, account := [.namespaceReserved "Tools"] }
  [.authorizeCreate 0 ⟨"Tools", "x"⟩ ⟨"root", some "u0", "", true, true⟩, .synced 0 genesis,
    .synced 0 genesis, .synced 0 genesis, .synced 0 genesis, .synced 0 genesis, .read 0,
    .synced 0 genesis, .synced 0 genesis, .read 0, .publish 0 reservation, .createManifest 0]

theorem created_namespace_kept_admin :
    ∃ s c t, Runs.run step init adminCreation = some s ∧ s.calls = [c] ∧ c.phase = .created 2 ∧
      Runs.run AccountsState.accept .empty (s.accounts.log.take 2) = some t ∧
      t.namespaceOf "tools" = .reserved ∧ t.namespaceOf c.id.owner ≠ .free := by
  have hrun : (Runs.run step init adminCreation).map (fun s => s.calls.map CreateCall.phase) =
      some [.created 2] := by decide
  obtain ⟨s, hs, hcalls⟩ := Option.map_eq_some_iff.mp hrun
  obtain ⟨c, rest, hsplit, hcreated, hnil⟩ := List.map_eq_cons_iff.mp hcalls
  obtain rfl := List.map_eq_nil_iff.mp hnil
  obtain ⟨t, ht, htaken, -⟩ := created_namespace_kept hs (by simp [hsplit]) hcreated
  have hreserved : (Runs.run step init adminCreation).bind (fun s =>
      (Runs.run AccountsState.accept .empty (s.accounts.log.take 2)).map fun t =>
        t.namespaceOf "tools") = some .reserved := by decide
  rw [hs, Option.bind_some, ht, Option.map_some, Option.some.injEq] at hreserved
  exact ⟨s, c, t, hs, hsplit, hcreated, ht, hreserved, htaken⟩

end Admin

end CreateCalls

end Walgit
