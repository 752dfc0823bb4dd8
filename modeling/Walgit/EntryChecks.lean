import Walgit.Names
import Walgit.Replay

/-!
# An entry and its events

`verify` looks at the state before the entry and remembers some of what the entry has done.
Checking its events one after another, each in the state the earlier ones lead to, is the same
as long as no event depends on something an earlier one did and `verify` did not remember.
-/
namespace Walgit

open Text
open Checks (guard_ok check_ok bind_eq_ok)

namespace AccountEvent

def newUser : AccountEvent → Option String
  | .userCreated userId _ _ _ _ => some userId
  | _ => none

/-- The lowercased login that an event gives to an account. -/
def newLogin : AccountEvent → Option String
  | .userCreated _ login _ _ _ => some (toAsciiLowercase login)
  | .orgCreated _ login _ => some (toAsciiLowercase login)
  | _ => none

def newIdentity : AccountEvent → Option (String × String)
  | .identityLinked _ issuer subject => some (issuer, subject)
  | _ => none

def reserves : AccountEvent → Option String
  | .namespaceReserved login => some (toAsciiLowercase login)
  | _ => none

def isGenesis (ev : AccountEvent) : Bool := ev matches .genesis _

/-- The later event depends on what the earlier one did, and `verify` does not remember it. -/
def unseen (earlier : AccountEvent) : AccountEvent → Bool
  | .namespaceReserved login => earlier.newLogin = some (toAsciiLowercase login)
  | .userCreated _ login _ _ _ => earlier.reserves = some (toAsciiLowercase login)
  | .orgCreated orgId _ _ => earlier.newUser = some orgId || earlier.newOrg = some orgId
  | .orgOwnersChanged orgId _ => earlier.newOrg = some orgId
  | _ => false

end AccountEvent

namespace Claimed

/-- An accepted event is claimed. -/
def add (c : Claimed) (ev : AccountEvent) : Claimed where
  logins := ev.newLogin.toList ++ c.logins
  users := ev.newUser.toList ++ c.users
  identities := ev.newIdentity.toList ++ c.identities

/-- What an entry has claimed after some of its events were accepted. -/
def of (past : List AccountEvent) : Claimed where
  logins := (past.filterMap AccountEvent.newLogin).reverse
  users := (past.filterMap AccountEvent.newUser).reverse
  identities := (past.filterMap AccountEvent.newIdentity).reverse

theorem add_of (past : List AccountEvent) (ev : AccountEvent) :
    (of past).add ev = of (past ++ [ev]) := by
  simp only [add, of, List.filterMap_append, List.reverse_append]
  cases ev <;> rfl

end Claimed

namespace AccountsState

/-- The states the program builds: from nothing, from a history, and by folding entries. -/
inductive Built : AccountsState → Prop
  | empty : Built .empty
  | history (h : AccountHistory) : Built (.fromHistory h)
  | fold {s : AccountsState} (after : ℕ) (entries : List LogEntry) (hs : Built s) :
    Built (s.foldEntries after entries)

section Index

variable {s : AccountsState}

/-- Any event keeps the accounts of the index in their tables, verified or not. -/
theorem Indexed.apply (h : s.Indexed) (ev : AccountEvent) : (s.apply ev).Indexed := by
  have hkeeps : Keeps .empty s := ⟨h, by simp [empty], by simp [empty]⟩
  cases ev with
  | unset => exact h
  | genesis reserved => exact (hkeeps.genesis reserved).indexed
  | namespaceReserved login => exact (hkeeps.reserve login).indexed
  | userCreated userId login email name avatarUrl =>
    exact (hkeeps.createUser (v := ⟨userId, login, email, name, avatarUrl, ""⟩) rfl).indexed
  | identityLinked userId issuer subject => exact ⟨h.user, h.org⟩
  | profileChanged userId email name avatarUrl =>
    have hkept : Keeps .empty (s.apply (.profileChanged userId email name avatarUrl)) := by
      refine hkeeps.tables rfl (fun id v hv hid => ?_) fun id o ho hid => ⟨o, ho, hid⟩
      simp only [AccountsState.apply, SortedMap.find?_modify]
      split_ifs <;> simp [hv, hid]
    exact hkept.indexed
  | orgCreated orgId login owners =>
    refine (hkeeps.createOrg (o := ⟨orgId, login, .setOf owners⟩) fun hd hfind => ?_).indexed
    simp [empty] at hfind
  | orgOwnersChanged orgId owners =>
    have hkept : Keeps .empty (s.apply (.orgOwnersChanged orgId owners)) := by
      refine hkeeps.tables rfl (fun id v hv hid => ⟨v, hv, hid⟩) fun id o ho hid => ?_
      simp only [AccountsState.apply, SortedMap.find?_modify]
      split_ifs <;> simp [ho, hid]
    exact hkept.indexed
  | passwordSet userId phc =>
    have hkept : Keeps .empty (s.apply (.passwordSet userId phc)) := by
      refine hkeeps.tables rfl (fun id v hv hid => ?_) fun id o ho hid => ⟨o, ho, hid⟩
      simp only [AccountsState.apply, SortedMap.find?_modify]
      split_ifs <;> simp [hv, hid]
    exact hkept.indexed

theorem Indexed.applyRecord (h : s.Indexed) (r : AccountRecord) : (s.applyRecord r).Indexed := by
  have hall : (r.events.foldl AccountsState.apply s).Indexed :=
    List.foldlRecOn r.events _ h fun _ ht ev _ => ht.apply ev
  exact ⟨hall.user, hall.org⟩

theorem Indexed.foldEntry (h : s.Indexed) (e : LogEntry) : (s.foldEntry e).Indexed := by
  unfold AccountsState.foldEntry
  split_ifs
  · exact h
  · exact ⟨h.user, h.org⟩
  · exact ⟨(h.applyRecord _).user, (h.applyRecord _).org⟩

theorem Built.indexed (h : s.Built) : s.Indexed := by
  induction h with
  | empty => exact indexed_empty
  | history h =>
    have hall : (h.records.foldl AccountsState.applyRecord .empty).Indexed :=
      List.foldlRecOn h.records _ indexed_empty fun _ ht r _ => ht.applyRecord r
    exact ⟨hall.user, hall.org⟩
  | fold after entries hs ih =>
    unfold foldEntries
    split_ifs
    · exact ih
    · exact List.foldlRecOn entries _ ih fun _ ht e _ => ht.foldEntry e

end Index

section Sequence

open AccountEvent

/-- What the events of an entry have made of the state before it. -/
structure Led (s : AccountsState) (past : List AccountEvent) (t : AccountsState) : Prop where
  genesis : t.genesis = s.genesis
  indexed : t.Indexed
  users : ∀ id, (t.users.find? id).isSome ↔
    (s.users.find? id).isSome ∨ id ∈ past.filterMap newUser
  orgs : ∀ id, (t.orgs.find? id).isSome ↔ (s.orgs.find? id).isSome ∨ id ∈ past.filterMap newOrg
  identities : ∀ key, (t.byIdentity.find? (toLex key)).isSome ↔
    (s.byIdentity.find? (toLex key)).isSome ∨ key ∈ past.filterMap newIdentity
  vacant : ∀ key, t.Vacant key ↔ s.Vacant key ∧ key ∉ past.filterMap newLogin
  unlisted : ∀ key, t.byLogin.find? key = none ↔ s.byLogin.find? key = none ∧
    key ∉ past.filterMap newLogin ∧ key ∉ past.filterMap reserves

variable {s t : AccountsState} {past : List AccountEvent}

theorem Led.refl (h : s.Indexed) : Led s [] s where
  genesis := rfl
  indexed := h
  users := by simp
  orgs := by simp
  identities := by simp
  vacant := by simp
  unlisted := by simp

theorem mem_filterMap_snoc {κ : Type} {f : AccountEvent → Option κ} {ev : AccountEvent} {k : κ} :
    k ∈ (past ++ [ev]).filterMap f ↔ k ∈ past.filterMap f ∨ f ev = some k := by
  simp [List.filterMap_append]

theorem users_apply (t : AccountsState) (ev : AccountEvent) (id : String) :
    ((t.apply ev).users.find? id).isSome ↔ (t.users.find? id).isSome ∨ ev.newUser = some id := by
  cases ev with
  | genesis reserved => rw [(tables_genesis t reserved).1]; simp [newUser]
  | namespaceReserved login => simp [apply, (tables_reserve t login).1, newUser]
  | userCreated userId login email name avatarUrl =>
    by_cases hid : id = userId
    · simp [apply, newUser, hid]
    · simp [apply, newUser, hid, Ne.symm hid]
  | profileChanged userId email name avatarUrl => simp [apply, isSome_modify, newUser]
  | passwordSet userId phc => simp [apply, isSome_modify, newUser]
  | _ => simp [apply, newUser]

theorem orgs_apply (t : AccountsState) (ev : AccountEvent) (id : String) :
    ((t.apply ev).orgs.find? id).isSome ↔ (t.orgs.find? id).isSome ∨ ev.newOrg = some id := by
  cases ev with
  | genesis reserved => rw [(tables_genesis t reserved).2]; simp [newOrg]
  | namespaceReserved login => simp [apply, (tables_reserve t login).2, newOrg]
  | orgCreated orgId login owners =>
    by_cases hid : id = orgId
    · simp [apply, newOrg, hid]
    · simp [apply, newOrg, hid, Ne.symm hid]
  | orgOwnersChanged orgId owners => simp [apply, isSome_modify, newOrg]
  | _ => simp [apply, newOrg]

theorem identities_reserve (t : AccountsState) (login : String) :
    (t.reserve login).byIdentity = t.byIdentity := by
  unfold reserve
  split_ifs <;> rfl

theorem identities_apply (t : AccountsState) {ev : AccountEvent} (hgenesis : ev.isGenesis = false)
    (key : String × String) : ((t.apply ev).byIdentity.find? (toLex key)).isSome ↔
      (t.byIdentity.find? (toLex key)).isSome ∨ ev.newIdentity = some key := by
  cases ev with
  | genesis reserved => cases hgenesis
  | namespaceReserved login => simp [apply, identities_reserve, newIdentity]
  | identityLinked userId issuer subject =>
    by_cases hkey : key = (issuer, subject)
    · simp [apply, newIdentity, hkey]
    · simp [apply, newIdentity, hkey, Ne.symm hkey]
  | _ => simp [apply, newIdentity]

/-- A login given to an account is not vacant any more; the others stay as they are. -/
theorem vacant_insert {key k : String} {hd : Holder} (hne : hd ≠ .reserved) :
    (∀ h, (t.byLogin.insert key hd).find? k = some h → h = .reserved) ↔
      t.Vacant k ∧ some key ≠ some k := by
  by_cases hk : k = key
  · simp [hk, hne]
  · simp [hk, Vacant, Ne.symm hk]

theorem vacant_reserve_iff (t : AccountsState) (login k : String) :
    (t.reserve login).Vacant k ↔ t.Vacant k := by
  refine ⟨fun h hd hfind => ?_, vacant_reserve t login⟩
  refine h hd ?_
  unfold reserve
  split_ifs with hsome
  · exact hfind
  · rw [SortedMap.find?_insert, if_neg]
    · exact hfind
    · rintro rfl
      simp [hfind] at hsome

theorem vacant_apply (t : AccountsState) {ev : AccountEvent} (hgenesis : ev.isGenesis = false)
    (k : String) : (t.apply ev).Vacant k ↔ t.Vacant k ∧ ev.newLogin ≠ some k := by
  cases ev with
  | genesis reserved => cases hgenesis
  | namespaceReserved login =>
    have hreserve := vacant_reserve_iff t login k
    simpa [newLogin, apply] using hreserve
  | userCreated userId login email name avatarUrl => exact vacant_insert (by simp)
  | orgCreated orgId login owners => exact vacant_insert (by simp)
  | _ => simp [apply, Vacant, newLogin]

theorem unlisted_apply (t : AccountsState) {ev : AccountEvent} (hgenesis : ev.isGenesis = false)
    (k : String) : (t.apply ev).byLogin.find? k = none ↔
      t.byLogin.find? k = none ∧ ev.newLogin ≠ some k ∧ ev.reserves ≠ some k := by
  cases ev with
  | genesis reserved => cases hgenesis
  | namespaceReserved login =>
    simp only [apply, reserve, newLogin, reserves]
    split_ifs with hsome
    · simp only [ne_eq, reduceCtorEq, not_false_eq_true, true_and, Option.some.injEq]
      refine ⟨fun hnone => ⟨hnone, ?_⟩, And.left⟩
      rintro rfl
      simp [hnone] at hsome
    · by_cases hk : k = toAsciiLowercase login
      · simp [hk]
      · simp [hk, Ne.symm hk]
  | userCreated userId login email name avatarUrl =>
    by_cases hk : k = toAsciiLowercase login
    · simp [apply, newLogin, hk]
    · simp [apply, newLogin, reserves, hk, Ne.symm hk]
  | orgCreated orgId login owners =>
    by_cases hk : k = toAsciiLowercase login
    · simp [apply, newLogin, hk]
    · simp [apply, newLogin, reserves, hk, Ne.symm hk]
  | _ => simp [apply, newLogin, reserves]

theorem Led.step (h : Led s past t) {ev : AccountEvent} (hgenesis : ev.isGenesis = false) :
    Led s (past ++ [ev]) (t.apply ev) where
  genesis := by
    have hor : (t.apply ev).genesis = (t.genesis || ev.isGenesis) := genesis_apply t ev
    rw [hor, hgenesis, Bool.or_false, h.genesis]
  indexed := h.indexed.apply ev
  users id := by rw [users_apply, h.users, mem_filterMap_snoc, or_assoc]
  orgs id := by rw [orgs_apply, h.orgs, mem_filterMap_snoc, or_assoc]
  identities key := by rw [identities_apply t hgenesis, h.identities, mem_filterMap_snoc, or_assoc]
  vacant key := by rw [vacant_apply t hgenesis, h.vacant, mem_filterMap_snoc, not_or, and_assoc]
  unlisted key := by
    rw [unlisted_apply t hgenesis, h.unlisted, mem_filterMap_snoc, mem_filterMap_snoc, not_or,
      not_or]
    tauto

/-- A namespace that no account holds. -/
def Open (s : AccountsState) (login : String) : Prop :=
  s.namespaceOf login = .free ∨ s.namespaceOf login = .reserved

theorem Indexed.open_iff (h : s.Indexed) {login : String} :
    s.Open login ↔ s.Vacant (toAsciiLowercase login) := by
  rw [Open, h.free_iff, h.reserved_iff]
  cases hfind : s.byLogin.find? (toAsciiLowercase login) <;> simp [Vacant, hfind]

/-- Nothing before the event did what the event would have to see. -/
theorem not_mem_of_unseen {κ : Type} {f : AccountEvent → Option κ} {k : κ}
    (h : ∀ e ∈ past, f e ≠ some k) : k ∉ past.filterMap f := by
  simpa [List.mem_filterMap] using h

end Sequence

section Verified

variable [CharTables] {s t : AccountsState} {past : List AccountEvent}

open AccountEvent

theorem verify_ok_iff {events : List AccountEvent} :
    s.verify events = .ok () ↔
      events ≠ [] ∧ ∃ c, events.foldlM (s.verifyEvent events.length) {} = .ok c := by
  simp only [verify, guard_ok, bind_eq_ok]
  refine and_congr (by simp) ⟨?_, ?_⟩
  · rintro ⟨c, hc, -⟩
    exact ⟨c, hc⟩
  · rintro ⟨c, hc⟩
    exact ⟨c, hc, rfl⟩

/-- An event alone in its entry. -/
theorem verify_one {ev : AccountEvent} :
    t.verify [ev] = .ok () ↔ ∃ c, t.verifyEvent 1 {} ev = .ok c := by
  rw [verify_ok_iff, List.foldlM_cons]
  simp [bind_eq_ok, pure, Except.pure]

/-- What `verify` asks of one event that is not the genesis. -/
def Admits (s : AccountsState) (c : Claimed) : AccountEvent → Prop
  | .unset | .genesis _ => False
  | .namespaceReserved login => s.Open login
  | .userCreated userId login _ _ _ =>
    userId ≠ "" ∧ s.userExists c userId = false ∧ validUserLogin login = .ok () ∧
      s.namespaceOf (toAsciiLowercase login) = .free ∧ toAsciiLowercase login ∉ c.logins
  | .identityLinked userId issuer subject =>
    issuer ≠ "" ∧ subject ≠ "" ∧ s.userExists c userId = true ∧
      ¬((s.byIdentity.find? (toLex (issuer, subject))).isSome ∨
        (issuer, subject) ∈ c.identities)
  | .profileChanged userId _ _ _ => s.userExists c userId = true
  | .orgCreated orgId login owners =>
    orgId ≠ "" ∧ (s.orgs.find? orgId).isSome = false ∧ (s.users.find? orgId).isSome = false ∧
      repoIdNew login "x" = .ok () ∧ s.Open (toAsciiLowercase login) ∧
      toAsciiLowercase login ∉ c.logins ∧ verifyOwners owners (s.userExists c) = .ok ()
  | .orgOwnersChanged orgId owners =>
    (s.orgs.find? orgId).isSome = true ∧ verifyOwners owners (s.userExists c) = .ok ()
  | .passwordSet userId phc =>
    s.userExists c userId = true ∧ (phc ≠ "" → startsWith "$argon2id$" phc = true)

theorem verifyEvent_ok_iff {n : ℕ} {ev : AccountEvent} {c c' : Claimed}
    (hgenesis : ev.isGenesis = false) :
    s.verifyEvent n c ev = .ok c' ↔ s.genesis = true ∧ s.Admits c ev ∧ c.add ev = c' := by
  simp only [verifyEvent, guard_ok]
  cases ev with
  | unset => simp [Admits]
  | genesis reserved => cases hgenesis
  | namespaceReserved login =>
    have hadd : c.add (.namespaceReserved login) = c := rfl
    cases hns : s.namespaceOf login <;> simp [Admits, Open, hns, hadd, pure, Except.pure]
  | userCreated userId login email name avatarUrl =>
    have hadd : c.add (.userCreated userId login email name avatarUrl) = { c with
      users := userId :: c.users, logins := toAsciiLowercase login :: c.logins } := rfl
    simp only [guard_ok, check_ok]
    simp [Admits, hadd, userExists, pure, Except.pure, and_assoc]
  | identityLinked userId issuer subject =>
    have hadd : c.add (.identityLinked userId issuer subject) = { c with
      identities := (issuer, subject) :: c.identities } := rfl
    simp only [guard_ok]
    simp [Admits, hadd, pure, Except.pure, and_assoc]
  | profileChanged userId email name avatarUrl =>
    have hadd : c.add (.profileChanged userId email name avatarUrl) = c := rfl
    simp only [guard_ok]
    simp [Admits, hadd, pure, Except.pure]
  | orgCreated orgId login owners =>
    have hadd : c.add (.orgCreated orgId login owners) = { c with
      logins := toAsciiLowercase login :: c.logins } := rfl
    simp only [guard_ok, check_ok]
    cases hns : s.namespaceOf (toAsciiLowercase login) <;>
      simp [Admits, Open, hadd, hns, pure, Except.pure, and_assoc]
  | orgOwnersChanged orgId owners =>
    have hadd : c.add (.orgOwnersChanged orgId owners) = c := rfl
    simp only [guard_ok, check_ok]
    simp [Admits, hadd, Option.isSome_iff_ne_none, pure, Except.pure, and_assoc]
  | passwordSet userId phc =>
    have hadd : c.add (.passwordSet userId phc) = c := rfl
    simp only [guard_ok]
    simp [Admits, hadd, pure, Except.pure, and_assoc]

/-- The checks of an event in the state before the entry, with the entry's claims, and in the
state that the earlier events lead to. -/
theorem Led.admits_event_iff (h : Led s past t) (hs : s.Indexed) {ev : AccountEvent}
    (hseen : ∀ e ∈ past, e.unseen ev = false) : s.Admits (.of past) ev ↔ t.Admits {} ev := by
  have husers : s.userExists (.of past) = t.userExists {} := by
    funext id
    rw [Bool.eq_iff_iff]
    simpa [userExists, Claimed.of] using (h.users id).symm
  cases ev with
  | unset | genesis => exact Iff.rfl
  | namespaceReserved login =>
    have hnew : toAsciiLowercase login ∉ past.filterMap newLogin :=
      not_mem_of_unseen fun e he => by simpa [unseen] using hseen e he
    simp only [Admits]
    rw [hs.open_iff, h.indexed.open_iff, h.vacant, and_iff_left hnew]
  | userCreated userId login email name avatarUrl =>
    have hreserved : toAsciiLowercase login ∉ past.filterMap reserves :=
      not_mem_of_unseen fun e he => by simpa [unseen] using hseen e he
    have hfree : t.namespaceOf (toAsciiLowercase login) = .free ↔
        s.namespaceOf (toAsciiLowercase login) = .free ∧
          toAsciiLowercase login ∉ past.filterMap newLogin := by
      rw [h.indexed.free_iff, hs.free_iff, toAsciiLowercase_idem, h.unlisted,
        and_iff_left hreserved]
    simp only [Admits, husers, hfree]
    simp [Claimed.of]
  | identityLinked userId issuer subject =>
    simp only [Admits, husers, h.identities]
    simp [Claimed.of]
  | profileChanged userId email name avatarUrl => simp only [Admits, husers]
  | orgCreated orgId login owners =>
    have hnew : orgId ∉ past.filterMap newUser := not_mem_of_unseen fun e he heq => by
      have := hseen e he
      simp [unseen, heq] at this
    have horg : orgId ∉ past.filterMap newOrg := not_mem_of_unseen fun e he heq => by
      have := hseen e he
      simp [unseen, heq] at this
    have horgs := h.orgs orgId
    have hold := h.users orgId
    rw [or_iff_left horg, ← Bool.eq_iff_iff] at horgs
    rw [or_iff_left hnew, ← Bool.eq_iff_iff] at hold
    have hopen : t.Open (toAsciiLowercase login) ↔ s.Open (toAsciiLowercase login) ∧
        toAsciiLowercase login ∉ past.filterMap newLogin := by
      rw [h.indexed.open_iff, hs.open_iff, toAsciiLowercase_idem, h.vacant]
    simp only [Admits, husers, horgs, hold, hopen]
    simp [Claimed.of, and_assoc]
  | orgOwnersChanged orgId owners =>
    have horg : orgId ∉ past.filterMap newOrg :=
      not_mem_of_unseen fun e he => by simpa [unseen] using hseen e he
    have horgs := h.orgs orgId
    rw [or_iff_left horg, ← Bool.eq_iff_iff] at horgs
    simp only [Admits, husers, horgs]
  | passwordSet userId phc => simp only [Admits, husers]

/-- Every event is acceptable alone in the state that the events before it lead to. -/
def Sequential (s : AccountsState) (events : List AccountEvent) : Prop :=
  Replay.Along apply (fun t ev => t.verify [ev] = .ok ()) s events

instance (s : AccountsState) (events : List AccountEvent) : Decidable (s.Sequential events) :=
  inferInstanceAs (Decidable (Replay.Along ..))

/-- From a state that some events of the entry led to, the rest is accepted in one go exactly
when it is accepted event by event. -/
theorem Led.foldlM_iff (h : Led s past t) (hs : s.Indexed) {n : ℕ} {events : List AccountEvent}
    (hgenesis : ∀ ev ∈ events, ev.isGenesis = false)
    (hseen : (past ++ events).Pairwise fun a b => a.unseen b = false) :
    (∃ c, events.foldlM (s.verifyEvent n) (.of past) = .ok c) ↔ t.Sequential events := by
  induction events generalizing past t with
  | nil => simp [Sequential, Replay.Along, pure, Except.pure]
  | cons ev events ih =>
    obtain ⟨hev, hrest⟩ := List.forall_mem_cons.mp hgenesis
    have hbefore : ∀ e ∈ past, e.unseen ev = false := fun e he =>
      (List.pairwise_append.mp hseen).2.2 e he ev List.mem_cons_self
    have hone : (∃ c, s.verifyEvent n (.of past) ev = .ok c) ↔ t.verify [ev] = .ok () := by
      simp only [verify_one, verifyEvent_ok_iff hev, h.genesis, h.admits_event_iff hs hbefore,
        exists_and_left, exists_eq', and_true]
    have hnext := ih (h.step hev) hrest (by simpa using hseen)
    rw [Sequential, Replay.Along, ← hone, ← Sequential, ← hnext]
    simp only [List.foldlM_cons, bind_eq_ok]
    constructor
    · rintro ⟨c, c₁, hc₁, hc⟩
      obtain ⟨-, -, hadd⟩ := (verifyEvent_ok_iff hev).mp hc₁
      rw [← hadd, Claimed.add_of] at hc
      exact ⟨⟨c₁, hc₁⟩, c, hc⟩
    · rintro ⟨⟨c₁, hc₁⟩, c, hc⟩
      obtain ⟨-, -, hadd⟩ := (verifyEvent_ok_iff hev).mp hc₁
      rw [← Claimed.add_of, hadd] at hc
      exact ⟨c, c₁, hc₁, hc⟩

/-- An entry passes exactly when it is not empty, a genesis stands alone and every event is
acceptable in the state that the events before it lead to, as long as none depends on an earlier
one that `verify` does not remember. -/
theorem verify_iff_sequential (hbuilt : s.Built) {events : List AccountEvent}
    (hseen : events.Pairwise fun a b => a.unseen b = false) :
    s.verify events = .ok () ↔ events ≠ [] ∧
      ((∃ ev ∈ events, ev.isGenesis = true) → events.length = 1) ∧ s.Sequential events := by
  by_cases hgenesis : ∃ ev ∈ events, ev.isGenesis = true
  · by_cases hone : events.length = 1
    · obtain ⟨ev, rfl⟩ := List.length_eq_one_iff.mp hone
      simp [Sequential, Replay.Along]
    · refine iff_of_false (fun hok => ?_) fun h => hone (h.2.1 hgenesis)
      obtain ⟨-, c, hc⟩ := verify_ok_iff.mp hok
      obtain ⟨ev, hmem, hev⟩ := hgenesis
      obtain ⟨c₁, c₂, hstep⟩ := Checks.foldlM_mem hc ev hmem
      cases ev with
      | genesis reserved =>
        simp only [verifyEvent, guard_ok, Bool.or_eq_true, decide_eq_true_eq, not_or] at hstep
        exact hstep.2.2.1.2 hone
      | _ => cases hev
  · have hnone : ∀ ev ∈ events, ev.isGenesis = false := fun ev hmem => by
      simpa using fun hev => hgenesis ⟨ev, hmem, hev⟩
    have hiff := (Led.refl hbuilt.indexed).foldlM_iff hbuilt.indexed (n := events.length) hnone
      (by simpa using hseen)
    rw [verify_ok_iff, and_iff_right fun h => absurd h hgenesis, ← hiff]
    rfl

end Verified

section Entries

attribute [local instance] Text.asciiTables

/-- A directory that has had its genesis. -/
def begun : AccountsState := .fromHistory ⟨1, [⟨1, none, [.genesis ["kept"]]⟩]⟩

/-- A user, her sign-in, her organisation and a reserved name, made by one entry. -/
def signup : List AccountEvent :=
  [.userCreated "u1" "ann" "" "" "", .identityLinked "u1" "issuer" "ann",
    .orgCreated "o1" "acme" ["u1"], .namespaceReserved "later"]

theorem verify_iff_sequential_signup :
    begun.verify signup = .ok () ∧ begun.Sequential signup := by
  have hok : begun.verify signup = .ok () := by decide
  have hbuilt : begun.Built := .history _
  exact ⟨hok, ((verify_iff_sequential hbuilt (by decide)).mp hok).2.2⟩

def annCreated : AccountEvent := .userCreated "u1" "ann" "" "" ""

/-- An empty entry and a genesis with company are refused on purpose. A name that the entry
itself gave away or reserved and an id it used are not seen, and neither is an organisation
it made. -/
theorem verify_iff_sequential_unseen :
    begun.Built ∧
    (begun.verify [] ≠ .ok () ∧ begun.Sequential []) ∧
    (empty.verify [.genesis [], annCreated] ≠ .ok () ∧ empty.Sequential [.genesis [], annCreated]) ∧
    (begun.verify [annCreated, .namespaceReserved "ann"] = .ok () ∧
      ¬begun.Sequential [annCreated, .namespaceReserved "ann"]) ∧
    (begun.verify [.namespaceReserved "ann", annCreated] = .ok () ∧
      ¬begun.Sequential [.namespaceReserved "ann", annCreated]) ∧
    (begun.verify [annCreated, .orgCreated "u1" "acme" ["u1"]] = .ok () ∧
      ¬begun.Sequential [annCreated, .orgCreated "u1" "acme" ["u1"]]) ∧
    (begun.verify (signup ++ [.orgCreated "o1" "other" ["u1"]]) = .ok () ∧
      ¬begun.Sequential (signup ++ [.orgCreated "o1" "other" ["u1"]])) ∧
    (begun.verify (signup ++ [.orgOwnersChanged "o1" ["u1"]]) ≠ .ok () ∧
      begun.Sequential (signup ++ [.orgOwnersChanged "o1" ["u1"]])) := by
  refine ⟨.history _, ?_⟩
  decide

end Entries

end AccountsState

end Walgit
