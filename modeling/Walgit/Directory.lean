import Walgit.Accounts
import Walgit.Checks
import Walgit.Runs

/-!
# The directory invariant

The login index and the two tables stay in agreement as long as no entry creates one
organisation twice: `verify` remembers the users and logins an entry has used, not the
organisation ids.
-/
namespace Walgit

open Text
open Checks (guard_ok bind_eq_ok last_ok)

namespace AccountsState

/-- What holds a lowercased login according to the tables. -/
def Holds (s : AccountsState) (key : String) : Holder → Prop
  | .user id => ∃ u, s.users.find? id = some u ∧ toAsciiLowercase u.login = key
  | .org id => ∃ o, s.orgs.find? id = some o ∧ toAsciiLowercase o.login = key
  | .reserved => s.byLogin.find? key = some .reserved

structure Consistent (s : AccountsState) : Prop where
  /-- The index lists exactly the logins of the tables. -/
  index : ∀ key h, s.byLogin.find? key = some h ↔ s.Holds key h
  /-- No two holders share a login. -/
  unique : ∀ key h h', s.Holds key h → s.Holds key h' → h = h'
  identities : ∀ k id, s.byIdentity.find? k = some id → (s.users.find? id).isSome
  owners : ∀ id o, s.orgs.find? id = some o →
    ∃ owner, (o.owners.find? owner).isSome ∧ (s.users.find? owner).isSome

/-- Uniqueness follows from the index being a function. -/
theorem Consistent.ofIndex {s : AccountsState}
    (index : ∀ key h, s.byLogin.find? key = some h ↔ s.Holds key h)
    (identities : ∀ k id, s.byIdentity.find? k = some id → (s.users.find? id).isSome)
    (owners : ∀ id o, s.orgs.find? id = some o →
      ∃ owner, (o.owners.find? owner).isSome ∧ (s.users.find? owner).isSome) : s.Consistent where
  index := index
  unique key h h' hh hh' :=
    Option.some.inj (((index key h).mpr hh).symm.trans ((index key h').mpr hh'))
  identities := identities
  owners := owners

theorem consistent_empty : empty.Consistent := by
  refine .ofIndex (fun key h => ?_) (by simp [empty]) (by simp [empty])
  cases h <;> simp [Holds, empty]

/-- The login belongs to no account. -/
def Vacant (s : AccountsState) (key : String) : Prop :=
  ∀ h, s.byLogin.find? key = some h → h = .reserved

/-- At least one owner, and each is a user. -/
def OwnersExist (s : AccountsState) (owners : List String) : Prop :=
  owners ≠ [] ∧ ∀ id ∈ owners, (s.users.find? id).isSome

theorem OwnersExist.some_owner {s : AccountsState} {owners : List String}
    (h : s.OwnersExist owners) :
    ∃ owner, ((SortedMap.setOf owners).find? owner).isSome ∧ (s.users.find? owner).isSome := by
  obtain ⟨id, hid⟩ := List.exists_mem_of_ne_nil owners h.1
  exact ⟨id, (SortedMap.isSome_setOf owners id).mpr hid, h.2 id hid⟩

namespace Consistent

variable {s : AccountsState}

/-- A vacant login is nobody's in the tables. -/
theorem not_holds (h : s.Consistent) {key : String} (hv : s.Vacant key) (hd : Holder)
    (hne : hd ≠ .reserved) : ¬ s.Holds key hd := by
  intro hh
  exact hne (hv hd ((h.index key hd).mpr hh))

theorem reserve (h : s.Consistent) (login : String) : (s.reserve login).Consistent := by
  unfold AccountsState.reserve
  split_ifs with hsome
  · exact h
  · have hnone : s.byLogin.find? (toAsciiLowercase login) = none := by simpa using hsome
    have hvacant : s.Vacant (toAsciiLowercase login) := by simp [Vacant, hnone]
    refine .ofIndex (fun key hd => ?_) h.identities h.owners
    rw [SortedMap.find?_insert]
    split_ifs with hkey
    · subst hkey
      cases hd with
      | user id => simpa [Holds] using h.not_holds hvacant (.user id) (by simp)
      | org id => simpa [Holds] using h.not_holds hvacant (.org id) (by simp)
      | reserved => simp [Holds]
    · cases hd with
      | user id => exact h.index key (.user id)
      | org id => exact h.index key (.org id)
      | reserved => simp [Holds, hkey]

/-- Changing what is not a login or an id of a user. -/
theorem modifyUser (h : s.Consistent) (id : String) {f : User → User}
    (hlogin : ∀ u, (f u).login = u.login) :
    ({ s with users := s.users.modify id f } : AccountsState).Consistent := by
  have hsome : ∀ k, ((s.users.modify id f).find? k).isSome = (s.users.find? k).isSome := by
    intro k
    rw [SortedMap.find?_modify]
    split_ifs <;> simp
  refine .ofIndex (fun key hd => ?_) (fun k i hk => ?_) (fun i o ho => ?_)
  · rw [h.index key hd]
    cases hd with
    | user k =>
      simp only [Holds, SortedMap.find?_modify]
      split_ifs with hk
      · subst hk
        simp [hlogin]
      · rfl
    | org k => rfl
    | reserved => rfl
  · rw [hsome]
    exact h.identities k i hk
  · obtain ⟨owner, hmem, huser⟩ := h.owners i o ho
    exact ⟨owner, hmem, by rw [hsome]; exact huser⟩

theorem createUser (h : s.Consistent) {u : User} (hnew : s.users.find? u.userId = none)
    (hv : s.Vacant (toAsciiLowercase u.login)) :
    ({ s with
      byLogin := s.byLogin.insert (toAsciiLowercase u.login) (.user u.userId)
      users := s.users.insert u.userId u } : AccountsState).Consistent := by
  have hsome : ∀ {k}, (s.users.find? k).isSome → ((s.users.insert u.userId u).find? k).isSome := by
    intro k hk
    rw [SortedMap.find?_insert]
    split_ifs <;> simp [hk]
  refine .ofIndex (fun key hd => ?_) (fun k i hk => hsome (h.identities k i hk)) (fun i o ho => ?_)
  · rw [SortedMap.find?_insert]
    split_ifs with hkey
    · subst hkey
      cases hd with
      | user id =>
        have hnot := h.not_holds hv (.user id) (by simp)
        simp only [Holds, SortedMap.find?_insert, Option.some.injEq, Holder.user.injEq] at hnot ⊢
        split_ifs with hid
        · simp [hid]
        · simpa [Ne.symm hid] using hnot
      | org id => simpa [Holds] using h.not_holds hv (.org id) (by simp)
      | reserved => simp [Holds]
    · rw [h.index key hd]
      cases hd with
      | user id =>
        simp only [Holds, SortedMap.find?_insert]
        split_ifs with hid
        · subst hid
          simp [hnew, Ne.symm hkey]
        · rfl
      | org id => rfl
      | reserved => simp [Holds, hkey]
  · obtain ⟨owner, hmem, huser⟩ := h.owners i o ho
    exact ⟨owner, hmem, hsome huser⟩

theorem createOrg (h : s.Consistent) {id login : String} {owners : List String}
    (hnew : s.orgs.find? id = none) (hv : s.Vacant (toAsciiLowercase login))
    (howners : s.OwnersExist owners) :
    ({ s with
      byLogin := s.byLogin.insert (toAsciiLowercase login) (.org id)
      orgs := s.orgs.insert id ⟨id, login, .setOf owners⟩ } : AccountsState).Consistent := by
  refine .ofIndex (fun key hd => ?_) h.identities (fun i o ho => ?_)
  · rw [SortedMap.find?_insert]
    split_ifs with hkey
    · subst hkey
      cases hd with
      | user k => simpa [Holds] using h.not_holds hv (.user k) (by simp)
      | org k =>
        have hnot := h.not_holds hv (.org k) (by simp)
        simp only [Holds, SortedMap.find?_insert, Option.some.injEq, Holder.org.injEq] at hnot ⊢
        split_ifs with hk
        · simp [hk]
        · simpa [Ne.symm hk] using hnot
      | reserved => simp [Holds]
    · rw [h.index key hd]
      cases hd with
      | user k => rfl
      | org k =>
        simp only [Holds, SortedMap.find?_insert]
        split_ifs with hk
        · subst hk
          simp [hnew, Ne.symm hkey]
        · rfl
      | reserved => simp [Holds, hkey]
  · simp only [SortedMap.find?_insert] at ho
    split_ifs at ho with hi
    · cases ho
      exact howners.some_owner
    · exact h.owners i o ho

theorem changeOwners (h : s.Consistent) (id : String) {owners : List String}
    (howners : s.OwnersExist owners) :
    ({ s with orgs := s.orgs.modify id fun o => { o with owners := .setOf owners } } :
      AccountsState).Consistent := by
  refine .ofIndex (fun key hd => ?_) h.identities (fun i o ho => ?_)
  · rw [h.index key hd]
    cases hd with
    | user k => rfl
    | org k =>
      simp only [Holds, SortedMap.find?_modify]
      split_ifs with hk
      · subst hk
        simp
      · rfl
    | reserved => rfl
  · simp only [SortedMap.find?_modify] at ho
    split_ifs at ho
    · obtain ⟨o', -, rfl⟩ := Option.map_eq_some_iff.mp ho
      exact howners.some_owner
    · exact h.owners i o ho

theorem linkIdentity (h : s.Consistent) (k : String ×ₗ String) {id : String}
    (huser : (s.users.find? id).isSome) :
    ({ s with byIdentity := s.byIdentity.insert k id } : AccountsState).Consistent := by
  refine .ofIndex h.index (fun j i hj => ?_) h.owners
  rw [SortedMap.find?_insert] at hj
  split_ifs at hj
  · cases hj
    exact huser
  · exact h.identities j i hj

theorem genesis (h : s.Consistent) (reserved : List String) :
    (s.apply (.genesis reserved)).Consistent := by
  have hfold : ∀ (l : List String) (t : AccountsState), t.Consistent →
      (l.foldl AccountsState.reserve t).Consistent := by
    intro l
    induction l with
    | nil => exact fun t ht => ht
    | cons login l ih => exact fun t ht => ih _ (ht.reserve login)
  refine hfold reserved _ (.ofIndex (fun key hd => ?_) h.identities h.owners)
  rw [h.index key hd]
  cases hd <;> rfl

end Consistent

/-- A namespace without an account is vacant in the index. -/
theorem vacant_of_namespaceOf {s : AccountsState} (h : s.Consistent) {login : String}
    (hns : ∀ u, s.namespaceOf login ≠ .user u) (hno : ∀ o, s.namespaceOf login ≠ .org o) :
    s.Vacant (toAsciiLowercase login) := by
  intro hd hfind
  cases hd with
  | reserved => rfl
  | user id =>
    obtain ⟨u, hu, -⟩ := (h.index _ _).mp hfind
    exact absurd (by simp [namespaceOf, hfind, hu]) (hns u)
  | org id =>
    obtain ⟨o, ho, -⟩ := (h.index _ _).mp hfind
    exact absurd (by simp [namespaceOf, hfind, ho]) (hno o)

/-- What the check of an entry knows of the state reached inside it; `created` are the
organisations the entry has made so far. -/
structure Tracks (s : AccountsState) (c : Claimed) (created : List String) (t : AccountsState) :
    Prop where
  consistent : t.Consistent
  users : ∀ id, s.userExists c id = (t.users.find? id).isSome
  vacant : ∀ key, s.Vacant key → key ∉ c.logins → t.Vacant key
  orgs : ∀ id, (t.orgs.find? id).isSome → (s.orgs.find? id).isSome ∨ id ∈ created

theorem Tracks.refl {s : AccountsState} (h : s.Consistent) : Tracks s {} [] s where
  consistent := h
  users id := by simp [userExists]
  vacant _ hv _ := hv
  orgs _ ho := Or.inl ho

end AccountsState

/-- The organisation an event creates. -/
def AccountEvent.newOrg : AccountEvent → Option String
  | .orgCreated orgId _ _ => some orgId
  | _ => none

namespace AccountsState

theorem verifyOwners_ok [CharTables] {owners : List String} {p : String → Bool}
    (h : verifyOwners owners p = .ok ()) : owners ≠ [] ∧ ∀ id ∈ owners, p id := by
  simp only [verifyOwners, last_ok] at h
  obtain ⟨hne, h⟩ := h
  refine ⟨by simpa using hne, ?_⟩
  split at h
  · cases h
  · rename_i hnone
    simpa using hnone

variable {s t : AccountsState} {c c' : Claimed} {created : List String}

/-- An event that creates no account: claims, tables and vacant logins stay. -/
theorem Tracks.keep (h : Tracks s c created t) {t' : AccountsState} (ht' : t'.Consistent)
    (hlogins : c'.logins = c.logins) (hclaimed : c'.users = c.users)
    (hvacant : ∀ key, t.Vacant key → t'.Vacant key)
    (husers : ∀ id, (t'.users.find? id).isSome = (t.users.find? id).isSome)
    (horgs : ∀ id, (t'.orgs.find? id).isSome = (t.orgs.find? id).isSome) :
    Tracks s c' (created ++ []) t' where
  consistent := ht'
  users id := by
    rw [husers, ← h.users]
    simp [userExists, hclaimed]
  vacant key hv hkey := hvacant key (h.vacant key hv (hlogins ▸ hkey))
  orgs id ho := by
    rw [List.append_nil]
    exact h.orgs id (horgs id ▸ ho)

theorem vacant_reserve (t : AccountsState) (login : String) {key : String} (h : t.Vacant key) :
    (t.reserve login).Vacant key := by
  unfold reserve
  split_ifs
  · exact h
  · intro hd hfind
    rw [SortedMap.find?_insert] at hfind
    split_ifs at hfind
    · cases hfind
      rfl
    · exact h hd hfind

theorem vacant_genesis (t : AccountsState) (reserved : List String) {key : String}
    (h : t.Vacant key) : (t.apply (.genesis reserved)).Vacant key := by
  have hfold : ∀ (l : List String) (t : AccountsState), t.Vacant key →
      (l.foldl reserve t).Vacant key := by
    intro l
    induction l with
    | nil => exact fun t ht => ht
    | cons login l ih => exact fun t ht => ih _ (vacant_reserve t login ht)
  exact hfold reserved _ h

/-- Reservations touch the index only. -/
theorem tables_reserve (t : AccountsState) (login : String) :
    (t.reserve login).users = t.users ∧ (t.reserve login).orgs = t.orgs := by
  unfold reserve
  split_ifs <;> exact ⟨rfl, rfl⟩

theorem tables_genesis (t : AccountsState) (reserved : List String) :
    (t.apply (.genesis reserved)).users = t.users ∧ (t.apply (.genesis reserved)).orgs = t.orgs := by
  have hfold : ∀ (l : List String) (t : AccountsState),
      (l.foldl reserve t).users = t.users ∧ (l.foldl reserve t).orgs = t.orgs := by
    intro l
    induction l with
    | nil => exact fun t => ⟨rfl, rfl⟩
    | cons login l ih =>
      intro t
      rw [List.foldl_cons, (ih _).1, (ih _).2]
      exact tables_reserve t login
  exact hfold reserved _

theorem isSome_modify {α : Type} (m : SortedMap String α) (k j : String) (f : α → α) :
    ((m.modify k f).find? j).isSome = (m.find? j).isSome := by
  rw [SortedMap.find?_modify]
  split_ifs <;> simp

/-- The login an entry may take is vacant where the entry takes it. -/
theorem Tracks.vacantLogin (h : Tracks s c created t) (hs : s.Consistent) {login : String}
    (hns : ∀ u, s.namespaceOf (toAsciiLowercase login) ≠ .user u)
    (hno : ∀ o, s.namespaceOf (toAsciiLowercase login) ≠ .org o)
    (hclaim : toAsciiLowercase login ∉ c.logins) : t.Vacant (toAsciiLowercase login) := by
  have hv := vacant_of_namespaceOf hs hns hno
  rw [toAsciiLowercase_idem] at hv
  exact h.vacant _ hv hclaim

theorem Consistent.ofTables (h : s.Consistent) (husers : t.users = s.users)
    (horgs : t.orgs = s.orgs) (hlogin : t.byLogin = s.byLogin)
    (hidentity : t.byIdentity = s.byIdentity) : t.Consistent := by
  refine .ofIndex (fun key hd => ?_) (by rw [hidentity, husers]; exact h.identities)
    (by rw [horgs, husers]; exact h.owners)
  rw [hlogin, h.index key hd]
  cases hd <;> simp only [Holds, husers, horgs, hlogin]

section Verified

variable [CharTables]

theorem Tracks.ownersExist (h : Tracks s c created t) {owners : List String}
    (hok : verifyOwners owners (s.userExists c) = .ok ()) : t.OwnersExist owners := by
  obtain ⟨hne, hall⟩ := verifyOwners_ok hok
  exact ⟨hne, fun id hid => h.users id ▸ hall id hid⟩

/-- One verified event keeps the directory consistent, unless it makes an organisation the
entry has made before. -/
theorem Tracks.step (h : Tracks s c created t) (hs : s.Consistent) {n : ℕ} {ev : AccountEvent}
    (hok : s.verifyEvent n c ev = .ok c') (hfresh : ∀ id ∈ ev.newOrg, id ∉ created) :
    Tracks s c' (created ++ ev.newOrg.toList) (t.apply ev) := by
  simp only [verifyEvent, guard_ok] at hok
  obtain ⟨hset, -, hok⟩ := hok
  cases ev with
  | unset => exact absurd rfl hset
  | genesis reserved =>
    simp only [guard_ok] at hok
    cases hok.2
    have htables := tables_genesis t reserved
    exact h.keep (h.consistent.genesis reserved) rfl rfl
      (fun key hv => vacant_genesis t reserved hv)
      (fun id => congrArg (fun m => (m.find? id).isSome) htables.1)
      (fun id => congrArg (fun m => (m.find? id).isSome) htables.2)
  | namespaceReserved login =>
    have hc : c' = c := by
      simp only at hok
      split at hok <;> cases hok <;> rfl
    subst hc
    have htables := tables_reserve t login
    exact h.keep (h.consistent.reserve login) rfl rfl
      (fun key hv => vacant_reserve t login hv)
      (fun id => congrArg (fun m => (m.find? id).isSome) htables.1)
      (fun id => congrArg (fun m => (m.find? id).isSome) htables.2)
  | userCreated userId login email name avatarUrl =>
    simp only [guard_ok, bind_eq_ok] at hok
    obtain ⟨hid, -, -, hlogin, hc⟩ := hok
    cases hc
    simp only [Bool.or_eq_true, decide_eq_true_eq, not_or, ne_eq, Decidable.not_not] at hid hlogin
    have hnew : t.users.find? userId = none := by
      have hknown := h.users userId
      simp only [userExists, hid.1.2, hid.2, Bool.or_self] at hknown
      simpa using hknown.symm
    have hvacant : t.Vacant (toAsciiLowercase login) :=
      h.vacantLogin hs (by simp [hlogin.1]) (by simp [hlogin.1]) (by simpa using hlogin.2)
    refine ⟨h.consistent.createUser (u := ⟨userId, login, email, name, avatarUrl, ""⟩) hnew hvacant,
      fun id => ?_, fun key hv hkey => ?_, ?_⟩
    · have hknown := h.users id
      simp only [userExists] at hknown ⊢
      simp only [apply, SortedMap.find?_insert]
      split_ifs with heq
      · simp [heq]
      · rw [← hknown]
        simp [heq]
    · simp only [List.mem_cons, not_or] at hkey
      have hold := h.vacant key hv hkey.2
      intro hd hfind
      simp only [apply, SortedMap.find?_insert, hkey.1, if_false] at hfind
      exact hold hd hfind
    · simpa [AccountEvent.newOrg, apply] using h.orgs
  | identityLinked userId issuer subject =>
    simp only [guard_ok] at hok
    obtain ⟨-, huser, -, hc⟩ := hok
    cases hc
    have hexists : (t.users.find? userId).isSome := by
      rw [← h.users]
      simpa using huser
    exact h.keep (h.consistent.linkIdentity _ hexists) rfl rfl
      (fun _ hv => hv) (fun _ => rfl) (fun _ => rfl)
  | profileChanged userId email name avatarUrl =>
    simp only [guard_ok] at hok
    cases hok.2
    exact h.keep (h.consistent.modifyUser userId (fun _ => rfl)) rfl rfl
      (fun _ hv => hv) (fun id => isSome_modify _ _ id _) (fun _ => rfl)
  | orgCreated orgId login owners =>
    simp only [guard_ok, bind_eq_ok] at hok
    obtain ⟨hid, -, -, hlogin, ⟨⟩, howners, hc⟩ := hok
    cases hc
    simp only [Bool.or_eq_true, decide_eq_true_eq, not_or, Bool.not_eq_true,
      Option.isSome_eq_false_iff, Option.isNone_iff_eq_none] at hid
    simp only [Bool.or_eq_true, not_or, Bool.not_eq_true', Bool.not_eq_false,
      List.contains_iff_mem] at hlogin
    have hnew : t.orgs.find? orgId = none := by
      by_contra hsome
      rcases h.orgs orgId (Option.ne_none_iff_isSome.mp hsome) with hold | hmade
      · simp [hid.1.2] at hold
      · exact hfresh orgId rfl hmade
    have hvacant : t.Vacant (toAsciiLowercase login) := by
      refine h.vacantLogin hs (fun u hu => ?_) (fun o ho => ?_) hlogin.2
      · simp [hu] at hlogin
      · simp [ho] at hlogin
    refine ⟨h.consistent.createOrg hnew hvacant (h.ownersExist howners), h.users,
      fun key hv hkey => ?_, fun id ho => ?_⟩
    · simp only [List.mem_cons, not_or] at hkey
      have hold := h.vacant key hv hkey.2
      intro hd hfind
      simp only [apply, SortedMap.find?_insert, hkey.1, if_false] at hfind
      exact hold hd hfind
    · simp only [apply, SortedMap.find?_insert] at ho
      split_ifs at ho with heq
      · exact Or.inr (by simp [heq, AccountEvent.newOrg])
      · exact (h.orgs id ho).imp_right fun hm => List.mem_append_left _ hm
  | orgOwnersChanged orgId owners =>
    simp only [guard_ok, bind_eq_ok] at hok
    obtain ⟨-, ⟨⟩, howners, hc⟩ := hok
    cases hc
    exact h.keep (h.consistent.changeOwners orgId (h.ownersExist howners))
      rfl rfl (fun _ hv => hv) (fun _ => rfl) (fun id => isSome_modify _ _ id _)
  | passwordSet userId phc =>
    simp only [guard_ok] at hok
    cases hok.2.2
    exact h.keep (h.consistent.modifyUser userId (fun _ => rfl)) rfl rfl
      (fun _ hv => hv) (fun id => isSome_modify _ _ id _) (fun _ => rfl)

/-- A verified entry keeps the directory consistent if it makes no organisation twice. -/
theorem Tracks.events {n : ℕ} {events : List AccountEvent} (hs : s.Consistent)
    (h : Tracks s c created t) (hok : events.foldlM (s.verifyEvent n) c = .ok c')
    (hnodup : (created ++ events.filterMap AccountEvent.newOrg).Nodup) :
    (events.foldl apply t).Consistent := by
  induction events generalizing c created t with
  | nil => exact h.consistent
  | cons ev events ih =>
    rw [List.foldlM_cons, bind_eq_ok] at hok
    obtain ⟨c₁, hev, hrest⟩ := hok
    have hsplit : created ++ (ev :: events).filterMap AccountEvent.newOrg =
        created ++ ev.newOrg.toList ++ events.filterMap AccountEvent.newOrg := by
      cases hnew : ev.newOrg <;> simp [hnew]
    rw [hsplit] at hnodup
    refine ih (h.step hs hev fun id hid hmem => ?_) hrest hnodup
    have hdisjoint := (List.nodup_append.mp (List.nodup_append.mp hnodup).1).2.2
    exact hdisjoint id hmem id (Option.mem_toList.mpr hid) rfl

/-- The account log grows by an entry verified against its fold. -/
def accept (s : AccountsState) (e : LogEntry) : Option AccountsState :=
  if s.seq < e.seq ∧ (s.verify e.account).isOk then some (s.foldEntry e) else none

theorem accept_consistent {e : LogEntry} (h : s.Consistent)
    (hdistinct : (e.account.filterMap AccountEvent.newOrg).Nodup) (hok : s.accept e = some t) :
    t.Consistent := by
  simp only [accept] at hok
  split_ifs at hok with hverified
  cases hok
  obtain ⟨hseq, hok⟩ := hverified
  cases hv : s.verify e.account with
  | error m =>
    rw [hv] at hok
    cases hok
  | ok u =>
    simp only [verify, guard_ok, bind_eq_ok] at hv
    obtain ⟨hne, c', hfold, -⟩ := hv
    have hevents := Tracks.events h (.refl h) hfold (by simpa using hdistinct)
    have hne : e.account.isEmpty = false := by simpa using hne
    simp only [foldEntry, not_le.mpr hseq, if_false, hne, Bool.false_eq_true]
    exact hevents.ofTables rfl rfl rfl rfl

/-- Every directory reached by verified entries is consistent, as long as no entry creates an
organisation twice. -/
theorem directory_consistent {entries : List LogEntry} (hrun : Runs.run accept empty entries = some s)
    (hdistinct : ∀ e ∈ entries, (e.account.filterMap AccountEvent.newOrg).Nodup) :
    s.Consistent :=
  Runs.invariant (fun _ _ _ h hd hstep => accept_consistent h hd hstep) hrun
    (Runs.allSteps_of_forall empty fun e he _ => hdistinct e he) consistent_empty

end Verified

section Example

attribute [local instance] asciiTables

/-- A log with its genesis entry and one user. -/
def oneUser : List LogEntry :=
  [{ seq := 1, kind := .account, account := [.genesis ["old"]] },
    { seq := 3, kind := .account, account := [.userCreated "u1" "alice" "" "" "",
        .identityLinked "u1" "https://id" "1"] }]

def twoOrgs (first second : String) : LogEntry :=
  { seq := 4, kind := .account,
    account := [.orgCreated first "Acme" ["u1"], .orgCreated second "Old" ["u1"]] }

theorem directory_consistent_twoOrgs :
    ∃ s, Runs.run accept empty (oneUser ++ [twoOrgs "o1" "o2"]) = some s ∧ s.Consistent := by
  have hsome : (Runs.run accept empty (oneUser ++ [twoOrgs "o1" "o2"])).isSome := by
    decide
  obtain ⟨s, hrun⟩ := Option.isSome_iff_exists.mp hsome
  exact ⟨s, hrun, directory_consistent hrun (by decide)⟩

/-- One entry makes two organisations of one id: the first login is left without its own. -/
theorem directory_inconsistent_sameOrg :
    ∃ s, Runs.run accept empty (oneUser ++ [twoOrgs "o1" "o1"]) = some s ∧ ¬ s.Consistent := by
  have hsome : (Runs.run accept empty (oneUser ++ [twoOrgs "o1" "o1"])).map
      (fun s => (s.byLogin.find? "acme", (s.orgs.find? "o1").map Org.login)) =
      some (some (.org "o1"), some "Old") := by
    decide
  obtain ⟨s, hrun, heq⟩ := Option.map_eq_some_iff.mp hsome
  simp only [Prod.mk.injEq] at heq
  refine ⟨s, hrun, fun h => ?_⟩
  obtain ⟨o, ho, hlogin⟩ := (h.index "acme" (.org "o1")).mp heq.1
  rw [ho, Option.map_some, Option.some.injEq] at heq
  rw [heq.2] at hlogin
  exact absurd hlogin (by decide)

end Example

end AccountsState

end Walgit
