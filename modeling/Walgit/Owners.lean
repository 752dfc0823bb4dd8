import Walgit.AccountHosts
import Walgit.Authorize

/-!
# Owners of an organisation

`owns` believes a positive answer of the fold as last synced, and revalidates any other. An owner
who was removed on another host passes until this host folds the removal.
-/
namespace Walgit

open Checks (guard_ok bind_eq_ok)

/-- The event makes a list of the organisation's owners without this user. -/
def AccountEvent.leavesOut (org me : String) : AccountEvent → Bool
  | .orgOwnersChanged id owners => id = org && !owners.contains me
  | _ => false

namespace AccountsState

/-- The user is an owner of the organisation. -/
def OwnsOrg (s : AccountsState) (org me : String) : Prop :=
  ∃ o, s.orgs.find? org = some o ∧ (o.owners.find? me).isSome

section Kept

variable [Text.CharTables] {s t u : AccountsState} {org me : String}

/-- One verified event takes an owner away only by a list without them. -/
theorem OwnsOrg.apply (h : u.OwnsOrg org me) (hs : (s.orgs.find? org).isSome) {n : ℕ}
    {c c' : Claimed} {ev : AccountEvent} (hok : s.verifyEvent n c ev = .ok c')
    (hkeep : ev.leavesOut org me = false) : (u.apply ev).OwnsOrg org me := by
  simp only [verifyEvent, guard_ok] at hok
  obtain ⟨-, -, hok⟩ := hok
  obtain ⟨o, ho, howner⟩ := h
  cases ev with
  | genesis reserved =>
    exact ⟨o, by rw [(tables_genesis u reserved).2, ho], howner⟩
  | namespaceReserved login =>
    exact ⟨o, by rw [AccountsState.apply, (tables_reserve u login).2, ho], howner⟩
  | orgCreated orgId login owners =>
    simp only [guard_ok] at hok
    have hne : org ≠ orgId := by
      rintro rfl
      simp [hs] at hok
    exact ⟨o, by simp [AccountsState.apply, hne, ho], howner⟩
  | orgOwnersChanged orgId owners =>
    by_cases heq : org = orgId
    · subst heq
      refine ⟨{ o with owners := .setOf owners }, by simp [AccountsState.apply,
        SortedMap.find?_modify, ho], (SortedMap.isSome_setOf owners me).mpr ?_⟩
      simpa [AccountEvent.leavesOut] using hkeep
    · exact ⟨o, by simp [AccountsState.apply, SortedMap.find?_modify, heq, ho], howner⟩
  | _ => exact ⟨o, ho, howner⟩

theorem OwnsOrg.events (hs : (s.orgs.find? org).isSome) {n : ℕ} {c c' : Claimed}
    {events : List AccountEvent} (h : u.OwnsOrg org me)
    (hok : events.foldlM (s.verifyEvent n) c = .ok c')
    (hkeep : ∀ ev ∈ events, ev.leavesOut org me = false) :
    (events.foldl AccountsState.apply u).OwnsOrg org me := by
  induction events generalizing c u with
  | nil => exact h
  | cons ev events ih =>
    rw [List.foldlM_cons, bind_eq_ok] at hok
    obtain ⟨c₁, hev, hrest⟩ := hok
    exact ih (h.apply hs hev (hkeep ev List.mem_cons_self)) hrest
      fun ev hmem => hkeep ev (List.mem_cons_of_mem _ hmem)

theorem OwnsOrg.run {entries : List LogEntry} (h : s.OwnsOrg org me)
    (hrun : Runs.run accept s entries = some t)
    (hkeep : ∀ e ∈ entries, ∀ ev ∈ e.account, ev.leavesOut org me = false) :
    t.OwnsOrg org me := by
  induction entries generalizing s with
  | nil =>
    cases hrun
    exact h
  | cons e entries ih =>
    obtain ⟨v, hv, hrest⟩ := Runs.run_cons hrun
    obtain ⟨-, ⟨c, hfold⟩, -, -, horgs, -⟩ := accept_ok hv
    have hsome : (s.orgs.find? org).isSome := by
      obtain ⟨o, ho, -⟩ := h
      simp [ho]
    obtain ⟨o, ho, howner⟩ := h.events hsome hfold (hkeep e List.mem_cons_self)
    exact ih ⟨o, horgs ▸ ho, howner⟩ hrest fun e he => hkeep e (List.mem_cons_of_mem _ he)

end Kept

/-- Who the namespace belongs to, as `owns` asks. -/
theorem mine_eq_true {s : AccountsState} {owner me : String} (h : s.mine owner me = some true) :
    (∃ u, s.namespaceOf owner = .user u) ∨
      ∃ o, s.namespaceOf owner = .org o ∧ (o.owners.find? me).isSome := by
  unfold mine at h
  split at h
  · rename_i u hu
    exact Or.inl ⟨u, hu⟩
  · rename_i o ho
    split_ifs at h with howner
    exact Or.inr ⟨o, ho, howner⟩
  · cases h
  · cases h

theorem Indexed.org_mem {s : AccountsState} (h : s.Indexed) {login : String} {o : Org}
    (ho : s.namespaceOf login = .org o) : s.orgs.find? o.orgId = some o := by
  unfold namespaceOf at ho
  split at ho
  · rename_i id _
    cases hu : s.users.find? id <;> simp [hu] at ho
  · rename_i id hfind
    obtain ⟨o', ho', hid⟩ := h.org _ id hfind
    simp only [ho', Option.elim_some, Namespace.org.injEq] at ho
    rw [← ho, hid, ho']
  · cases ho
  · cases ho

end AccountsState

inductive OwnsPhase where
  | asked
  /-- The log is not open yet, so `cached` syncs too. -/
  | opening (p : AccountLog.SyncPhase)
  | refreshing (p : AccountLog.SyncPhase)
  | done (owns : Bool)
  deriving DecidableEq

/-- A call of `owns` for a request of an account. -/
structure OwnsCall where
  host : ℕ
  owner : String
  me : String
  /-- How long the log was when the request began. -/
  began : ℕ
  phase : OwnsPhase

structure OwnsCalls where
  accounts : AccountLog
  calls : List OwnsCall

inductive OwnsEvent where
  | deed (d : AccountDeed)
  | ask (host : ℕ) (owner me : String)
  | cached (k : ℕ)
  | synced (k : ℕ) (e : LogEntry)
  | read (k : ℕ)

namespace OwnsCalls

def init : OwnsCalls := ⟨.init, []⟩

/-- What the fold of the call's host says. -/
def answer (s : OwnsCalls) (c : OwnsCall) : Option Bool :=
  (s.accounts.read c.host).mine c.owner c.me

def setPhase (s : OwnsCalls) (k : ℕ) (c : OwnsCall) (phase : OwnsPhase) : OwnsCalls :=
  { s with calls := s.calls.set k { c with phase := phase } }

/-- The first read: only a positive answer is final. -/
def believe (s : OwnsCalls) (k : ℕ) (c : OwnsCall) : OwnsCalls :=
  s.setPhase k c (if s.answer c = some true then .done true else .refreshing (.syncing false))

/-- No entry that was committed before the request began and is not folded yet takes away the
organisation that the fold gives to the user. -/
def unrevoked (s : OwnsCalls) (c : OwnsCall) : Bool :=
  let fold := s.accounts.read c.host
  match fold.namespaceOf c.owner with
  | .org o => (o.owners.find? c.me).isNone || (s.accounts.log.take c.began).all fun e =>
      e.seq ≤ fold.seq || e.account.all fun ev => !ev.leavesOut o.orgId c.me
  | _ => true

/-- An open fold is asked first only where it misses no removal. -/
def believable (s : OwnsCalls) : OwnsEvent → Bool
  | .cached k => (s.calls[k]?).all fun c => !(s.accounts.hosts c.host).opened || s.unrevoked c
  | _ => true

section Calls

variable [Text.CharTables]

/-- One step of the requests on all hosts; `none` when it is not enabled. -/
def step (s : OwnsCalls) : OwnsEvent → Option OwnsCalls
  | .deed d => (s.accounts.step d).map fun a => { s with accounts := a }
  | .ask host owner me =>
    some { s with calls := s.calls ++ [⟨host, owner, me, s.accounts.log.length, .asked⟩] }
  | .cached k => do
    let c ← s.calls[k]?
    if c.phase ≠ .asked then none
    else if (s.accounts.hosts c.host).opened then some (s.believe k c)
    else some (s.setPhase k c (.opening (.syncing false)))
  | .synced k e => do
    let c ← s.calls[k]?
    match c.phase with
    | .opening p => (s.accounts.synced c.host e p).map fun r =>
        { s.setPhase k c (.opening r.2) with accounts := r.1 }
    | .refreshing p => (s.accounts.synced c.host e p).map fun r =>
        { s.setPhase k c (.refreshing r.2) with accounts := r.1 }
    | _ => none
  | .read k => do
    let c ← s.calls[k]?
    match c.phase with
    | .opening .ready => some (s.believe k c)
    | .refreshing .ready => some (s.setPhase k c (.done (s.answer c = some true)))
    | _ => none

/-- The log had a state, at some moment since the request began, in which the namespace was the
user's or of an account. -/
def Owned (a : AccountLog) (c : OwnsCall) : Prop :=
  ∃ n t, c.began ≤ n ∧ n ≤ a.log.length ∧
    Runs.run AccountsState.accept .empty (a.log.take n) = some t ∧
    ((∃ u, t.namespaceOf c.owner = .user u) ∨
      ∃ o, t.namespaceOf c.owner = .org o ∧ (o.owners.find? c.me).isSome)

/-- What is known of a call, by its phase. -/
def Knows (a : AccountLog) (c : OwnsCall) : Prop :=
  match c.phase with
  | .asked | .done false => True
  | .opening p | .refreshing p =>
    p.Fresh a c.host (AccountsState.follow.head (a.log.take c.began))
  | .done true => Owned a c

def Known (a : AccountLog) (c : OwnsCall) : Prop := c.began ≤ a.log.length ∧ Knows a c

section Steps

variable {a a' : AccountLog} {c : OwnsCall}

theorem Owned.grows (h : Owned a c) (hgrows : AccountLog.Grows a a') : Owned a' c := by
  obtain ⟨n, t, hbegan, hn, hrun, howned⟩ := h
  exact ⟨n, t, hbegan, hn.trans hgrows.length, by rw [hgrows.take hn, hrun], howned⟩

theorem Known.grows (h : Known a c) (hgrows : AccountLog.Grows a a') : Known a' c := by
  obtain ⟨hbegan, hphase⟩ := h
  refine ⟨?_, ?_⟩
  · exact hbegan.trans hgrows.length
  · unfold Knows at hphase ⊢
    rw [hgrows.take hbegan]
    split at hphase
    · trivial
    · trivial
    · exact hphase.grows hgrows
    · exact hphase.grows hgrows
    · exact hphase.grows hgrows

/-- A fold that is fresh for the request answers from a state since it began. -/
theorem owned_of_fresh (ha : a.Inv) (hbegan : c.began ≤ a.log.length)
    (hfresh : AccountLog.SyncPhase.ready.Fresh a c.host
      (AccountsState.follow.head (a.log.take c.began)))
    (hmine : (a.read c.host).mine c.owner c.me = some true) : Owned a c := by
  obtain ⟨t, ht, hhead⟩ := hfresh
  have hread : a.read c.host = t := by simp [AccountLog.read, ht]
  obtain ⟨n, hlength, hn, hrun⟩ := AccountLog.read_prefix ha c.host ht (List.take_prefix _ _) hhead
  rw [List.length_take, Nat.min_eq_left hbegan] at hlength
  exact ⟨n, t, hlength, hn, hrun, AccountsState.mine_eq_true (hread ▸ hmine)⟩

/-- A fold that misses no removal answers from a state that owners still have when the request
begins. -/
theorem owned_of_believed {s : OwnsCalls} (ha : s.accounts.Inv)
    (hbegan : c.began ≤ s.accounts.log.length) (hun : s.unrevoked c)
    (hmine : s.answer c = some true) : Owned s.accounts c := by
  cases haccounts : (s.accounts.hosts c.host).accounts with
  | none => simp [answer, AccountLog.read, haccounts, AccountsState.mine, AccountsState.namespaceOf,
      AccountsState.empty] at hmine
  | some t =>
    have hread : s.accounts.read c.host = t := by simp [AccountLog.read, haccounts]
    rw [answer, hread] at hmine
    obtain ⟨n, -, hn, hrun⟩ := AccountLog.read_prefix ha c.host haccounts List.nil_prefix (Nat.zero_le _)
    rcases Nat.lt_or_ge n c.began with hlt | hge
    · have hindexed : t.Indexed := (AccountsState.Keeps.run AccountsState.indexed_empty hrun).indexed
      have hsplit : s.accounts.log.take c.began =
          s.accounts.log.take n ++ (s.accounts.log.take c.began).drop n := by
        conv_lhs => rw [← List.take_append_drop n (s.accounts.log.take c.began)]
        rw [List.take_take, Nat.min_eq_left hlt.le]
      have hwhole := ha.run
      rw [← List.take_append_drop c.began s.accounts.log, Runs.run_append] at hwhole
      obtain ⟨u, hu, -⟩ := Option.bind_eq_some_iff.mp hwhole
      have hrest := hu
      rw [hsplit, Runs.run_append, hrun] at hrest
      have hkeeps : AccountsState.Keeps t u := .run hindexed hrest
      refine ⟨c.began, u, le_rfl, hbegan, hu, ?_⟩
      rcases AccountsState.mine_eq_true hmine with ⟨v, hv⟩ | ⟨o, ho, howner⟩
      · obtain ⟨v', hv', -⟩ := AccountsState.resolve_user.mp
          (hkeeps.resolve hindexed (AccountsState.resolve_user.mpr ⟨v, hv, rfl⟩))
        exact Or.inl ⟨v', hv'⟩
      · have hunfolded : ∀ e ∈ (s.accounts.log.take c.began).drop n, ∀ ev ∈ e.account,
            ev.leavesOut o.orgId c.me = false := by
          intro e he ev hev
          have hlater : t.seq < e.seq := accepted_lt_of_mem_drop hu
            (by rwa [List.take_take, Nat.min_eq_left hlt.le]) he
          simp only [unrevoked, hread, ho, Bool.or_eq_true, Option.isNone_iff_eq_none] at hun
          rcases hun with hnone | hall
          · simp [hnone] at howner
          · have hentry := List.all_eq_true.mp hall e (List.mem_of_mem_drop he)
            simp only [not_le.mpr hlater, decide_false, Bool.false_or] at hentry
            simpa using List.all_eq_true.mp hentry ev hev
        obtain ⟨o', ho', hid⟩ := AccountsState.resolve_org.mp
          (hkeeps.resolve hindexed (AccountsState.resolve_org.mpr ⟨o, ho, rfl⟩))
        have howns : t.OwnsOrg o.orgId c.me := ⟨o, hindexed.org_mem ho, howner⟩
        obtain ⟨o'', ho'', howner'⟩ := howns.run hrest hunfolded
        have hsame : o' = o'' := by
          have hmem := hkeeps.indexed.org_mem ho'
          rw [hid, ho''] at hmem
          exact (Option.some.inj hmem).symm
        exact Or.inr ⟨o', ho', hsame ▸ howner'⟩
    · exact ⟨n, t, hge, hn, hrun, AccountsState.mine_eq_true hmine⟩

/-- Every call of `owns` that says yes is right about some moment since its request began. -/
structure Good (s : OwnsCalls) : Prop where
  accounts : s.accounts.Inv
  calls : ∀ c ∈ s.calls, Known s.accounts c

variable {s s' : OwnsCalls}

theorem Good.grows (h : Good s) {a' : AccountLog} (ha : a'.Inv)
    (hgrows : AccountLog.Grows s.accounts a') : Good { s with accounts := a' } :=
  ⟨ha, fun c hc => (h.calls c hc).grows hgrows⟩

theorem Good.setPhase (h : Good s) {k : ℕ} {c : OwnsCall} {phase : OwnsPhase}
    (hknown : Known s.accounts { c with phase := phase }) : Good (s.setPhase k c phase) := by
  refine ⟨h.accounts, fun b hb => ?_⟩
  rcases List.mem_or_eq_of_mem_set hb with hb | rfl
  · exact h.calls b hb
  · exact hknown

theorem Good.believe (h : Good s) {k : ℕ} {c : OwnsCall} (hbegan : c.began ≤ s.accounts.log.length)
    (howned : s.answer c = some true → Owned s.accounts c) : Good (s.believe k c) := by
  refine h.setPhase ⟨hbegan, ?_⟩
  split_ifs with hmine
  · exact howned hmine
  · trivial

/-- A step inside `synced`, in either place that calls it. -/
theorem Good.sync (h : Good s) {k : ℕ} {c : OwnsCall} {e : LogEntry}
    {p : AccountLog.SyncPhase} {r : AccountLog × AccountLog.SyncPhase} {phase : OwnsPhase}
    (hbegan : c.began ≤ s.accounts.log.length)
    (hfresh : p.Fresh s.accounts c.host (AccountsState.follow.head (s.accounts.log.take c.began)))
    (hr : s.accounts.synced c.host e p = some r)
    (hphase : ∀ a, r.2.Fresh a c.host (AccountsState.follow.head (a.log.take c.began)) →
      Knows a { c with phase := phase }) :
    Good { s.setPhase k c phase with accounts := r.1 } := by
  obtain ⟨hinv, hgrows⟩ := AccountLog.synced_inv h.accounts hr
  have hhead : AccountsState.follow.head (s.accounts.log.take c.began) ≤ s.accounts.head := by
    rcases position_head (s.accounts.log.take c.began) with hzero | ⟨e', he', hseq⟩
    · exact hzero ▸ Nat.zero_le _
    · exact hseq ▸ Catchup.Fold.pos_le_head (accepted_run h.accounts.run).1
        (List.mem_of_mem_take he')
  have hnext := AccountLog.synced_fresh h.accounts hhead hfresh hr
  rw [← hgrows.take hbegan] at hnext
  exact Good.setPhase (s := { s with accounts := r.1 }) (h.grows hinv hgrows)
    ⟨hbegan.trans hgrows.length, hphase r.1 hnext⟩

theorem Good.step {e : OwnsEvent} (h : Good s) (hok : s.believable e)
    (hstep : step s e = some s') : Good s' := by
  cases e with
  | deed d =>
    obtain ⟨a, ha, rfl⟩ := Option.map_eq_some_iff.mp hstep
    obtain ⟨hinv, hgrows⟩ := AccountLog.step_inv h.accounts ha
    exact h.grows hinv hgrows
  | ask host owner me =>
    cases hstep
    refine ⟨h.accounts, fun c hc => ?_⟩
    rcases List.mem_append.mp hc with hc | hc
    · exact h.calls c hc
    · rw [List.mem_singleton.mp hc]
      exact ⟨le_rfl, trivial⟩
  | cached k =>
    obtain ⟨c, hc, hrest⟩ := Option.bind_eq_some_iff.mp hstep
    have hbegan := (h.calls c (List.mem_of_getElem? hc)).1
    split_ifs at hrest with hphase hopened
    · cases hrest
      refine h.believe hbegan (owned_of_believed h.accounts hbegan ?_)
      simpa [believable, hc, hopened] using hok
    · cases hrest
      exact h.setPhase ⟨hbegan, trivial⟩
  | synced k e =>
    obtain ⟨c, hc, hrest⟩ := Option.bind_eq_some_iff.mp hstep
    obtain ⟨hbegan, hfresh⟩ := h.calls c (List.mem_of_getElem? hc)
    split at hrest
    · rename_i p hphase
      obtain ⟨r, hr, rfl⟩ := Option.map_eq_some_iff.mp hrest
      rw [Knows, hphase] at hfresh
      exact h.sync hbegan hfresh hr fun _ hknown => hknown
    · rename_i p hphase
      obtain ⟨r, hr, rfl⟩ := Option.map_eq_some_iff.mp hrest
      rw [Knows, hphase] at hfresh
      exact h.sync hbegan hfresh hr fun _ hknown => hknown
    · cases hrest
  | read k =>
    obtain ⟨c, hc, hrest⟩ := Option.bind_eq_some_iff.mp hstep
    obtain ⟨hbegan, hfresh⟩ := h.calls c (List.mem_of_getElem? hc)
    split at hrest
    · rename_i hphase
      cases hrest
      rw [Knows, hphase] at hfresh
      exact h.believe hbegan (owned_of_fresh h.accounts hbegan hfresh)
    · rename_i hphase
      cases hrest
      rw [Knows, hphase] at hfresh
      refine h.setPhase ⟨hbegan, ?_⟩
      by_cases hmine : s.answer c = some true
      · simp only [hmine, decide_true, Knows]
        exact owned_of_fresh h.accounts hbegan hfresh hmine
      · simp only [hmine, decide_false, Knows]
    · cases hrest

/-- The owner of an organisation's repository is let in as such only if they were an owner of it at
some moment since their request began. -/
theorem owner_grants_current {events : List OwnsEvent}
    (hok : Runs.AllSteps step (fun s e => s.believable e = true) init events)
    (hrun : Runs.run step init events = some s) {c : OwnsCall} (hc : c ∈ s.calls) {r : Bool}
    (hdone : c.phase = .done r) {id : RepoId} (hid : id.owner = c.owner)
    {access : Option RepoAccess} {anonymousRead : Bool} {subject : Subject} {need : Role}
    {g : Grant} (hgrant : authorize id access anonymousRead subject need (.ok r) = .ok g)
    (howner : g.ownerAdmin = true) (hsite : subject.siteAdmin = false) {o : Org}
    (ho : s.accounts.state.namespaceOf id.owner = .org o) :
    ∃ n t o', c.began ≤ n ∧ n ≤ s.accounts.log.length ∧
      Runs.run AccountsState.accept .empty (s.accounts.log.take n) = some t ∧
      t.namespaceOf id.owner = .org o' ∧ o'.orgId = o.orgId ∧ (o'.owners.find? c.me).isSome := by
  have hgood : Good s := Runs.invariant (I := Good) (fun _ _ _ h hb hstep => h.step hb hstep)
    hrun hok ⟨AccountLog.inv_init, by simp [init]⟩
  obtain ⟨-, -, hadmin⟩ := authorize_ok hgrant
  obtain rfl : r = true := by
    rcases hadmin howner with hno | hyes
    · rw [hsite] at hno
      cases hno
    · exact Except.ok.inj hyes
  obtain ⟨-, hknown⟩ := hgood.calls c hc
  rw [Knows, hdone] at hknown
  obtain ⟨n, t, hbegan, hn, hprefix, howned⟩ := hknown
  rw [← hid] at howned
  have hkeeps : AccountsState.Keeps t s.accounts.state := by
    have hwhole := hgood.accounts.run
    rw [← List.take_append_drop n s.accounts.log, Runs.run_append, hprefix] at hwhole
    exact .run (AccountsState.Keeps.run AccountsState.indexed_empty hprefix).indexed hwhole
  have hindexed := (AccountsState.Keeps.run AccountsState.indexed_empty hprefix).indexed
  rcases howned with ⟨u, hu⟩ | ⟨o', ho', hme⟩
  · obtain ⟨u', hu', -⟩ := AccountsState.resolve_user.mp
      (hkeeps.resolve hindexed (AccountsState.resolve_user.mpr ⟨u, hu, rfl⟩))
    rw [ho] at hu'
    cases hu'
  · obtain ⟨o'', ho'', hsame⟩ := AccountsState.resolve_org.mp
      (hkeeps.resolve hindexed (AccountsState.resolve_org.mpr ⟨o', ho', rfl⟩))
    rw [ho] at ho''
    cases ho''
    exact ⟨n, t, o', hbegan, hn, hprefix, ho', hsame.symm, hme⟩

end Steps

end Calls

section Removal

attribute [local instance] Text.asciiTables

/-- An organisation of two users. -/
def twoOwners : List OwnsEvent :=
  let users : List AccountEvent :=
    [.userCreated "u1" "alice" "" "" "", .userCreated "u2" "bob" "" "" ""]
  [.deed (.commit { seq := 1, account := [.genesis []] }),
    .deed (.commit { seq := 2, account := users }),
    .deed (.commit { seq := 3, account := [.orgCreated "o1" "acme" ["u1", "u2"]] }),
    .deed (.openLog 0), .deed (.sync 0), .deed (.ensure 0)]

def bob : Subject := ⟨"bob", some "u2", "", true, false⟩

/-- Whether bob is an owner of the organisation in the log. -/
def bobOwns (s : OwnsCalls) : Option Bool :=
  match s.accounts.state.namespaceOf "acme" with
  | .org o => some (o.owners.find? "u2").isSome
  | _ => none

def letIn (r : Bool) : Except ApiError Grant :=
  authorize ⟨"acme", "x"⟩ none false bob .admin (.ok r)

theorem owner_grants_current_twoOwners :
    ∃ s c g, Runs.run step init (twoOwners ++ [.ask 0 "acme" "u2", .cached 0]) = some s ∧
      s.calls = [c] ∧ c.phase = .done true ∧ letIn true = .ok g ∧ g.ownerAdmin = true ∧
      ∃ n t o, c.began ≤ n ∧ n ≤ s.accounts.log.length ∧
        Runs.run AccountsState.accept .empty (s.accounts.log.take n) = some t ∧
        t.namespaceOf "acme" = .org o ∧ (o.owners.find? "u2").isSome := by
  have hrun : (Runs.run step init (twoOwners ++ [.ask 0 "acme" "u2", .cached 0])).map (fun s =>
      (s.calls.map fun c => (c.phase, c.owner, c.me), s.bobOwns)) =
      some ([(.done true, "acme", "u2")], some true) := by decide
  obtain ⟨s, hs, heq⟩ := Option.map_eq_some_iff.mp hrun
  simp only [Prod.mk.injEq] at heq
  obtain ⟨hcalls, howns⟩ := heq
  obtain ⟨c, rest, hsplit, hc, hnil⟩ := List.map_eq_cons_iff.mp hcalls
  obtain rfl := List.map_eq_nil_iff.mp hnil
  simp only [Prod.mk.injEq] at hc
  obtain ⟨hdone, howner, hme⟩ := hc
  have hgrant : letIn true = .ok ⟨bob, .admin, true⟩ := by decide
  obtain ⟨o, ho⟩ : ∃ o, s.accounts.state.namespaceOf "acme" = .org o := by
    unfold bobOwns at howns
    split at howns
    · exact ⟨_, by assumption⟩
    · cases howns
  obtain ⟨n, t, o', hbegan, hn, hprefix, ho', -, hsome⟩ := owner_grants_current
    (by decide) hs (by simp [hsplit]) hdone howner.symm hgrant rfl rfl ho
  exact ⟨s, c, _, hs, hsplit, hdone, hgrant, rfl, n, t, o', hbegan, hn, hprefix, ho', hme ▸ hsome⟩

/-- Another host commits that bob is no owner any more, and then bob asks. -/
theorem removed_owner_passes :
    ∃ s c g, Runs.run step init (twoOwners ++
        [.deed (.commit { seq := 4, account := [.orgOwnersChanged "o1" ["u1"]] }),
          .ask 0 "acme" "u2", .cached 0]) = some s ∧
      s.calls = [c] ∧ c.phase = .done true ∧ letIn true = .ok g ∧ g.ownerAdmin = true ∧
      c.began = s.accounts.log.length ∧ s.bobOwns = some false := by
  have hrun : (Runs.run step init (twoOwners ++
      [.deed (.commit { seq := 4, account := [.orgOwnersChanged "o1" ["u1"]] }),
        .ask 0 "acme" "u2", .cached 0])).map (fun s =>
      (s.calls.map fun c => (c.phase, c.began), s.accounts.log.length, s.bobOwns)) =
      some ([(.done true, 4)], 4, some false) := by decide
  obtain ⟨s, hs, heq⟩ := Option.map_eq_some_iff.mp hrun
  simp only [Prod.mk.injEq] at heq
  obtain ⟨hcalls, hlength, howns⟩ := heq
  obtain ⟨c, rest, hsplit, hc, hnil⟩ := List.map_eq_cons_iff.mp hcalls
  obtain rfl := List.map_eq_nil_iff.mp hnil
  simp only [Prod.mk.injEq] at hc
  have hgrant : letIn true = .ok ⟨bob, .admin, true⟩ := by decide
  exact ⟨s, c, _, hs, hsplit, hc.1, hgrant, rfl, hc.2.trans hlength.symm, howns⟩

end Removal

end OwnsCalls

end Walgit
