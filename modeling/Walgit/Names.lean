import Walgit.Directory

/-!
# Names

A login that the directory has given to an account resolves to that account from then on,
and a login that an entry leaves reserved is never a user's. Both are read off one fact about
an entry: what it finds in the login index stays there, except that an organisation may take
a reserved login.
-/
namespace Walgit

open Text
open Checks (guard_ok bind_eq_ok)

namespace AccountsState

/-- The account a login resolves to. -/
def resolve (s : AccountsState) (login : String) : Option Holder :=
  match s.namespaceOf login with
  | .user u => some (.user u.userId)
  | .org o => some (.org o.orgId)
  | .reserved | .free => none

theorem resolve_user {s : AccountsState} {login id : String} :
    s.resolve login = some (.user id) ↔ ∃ u, s.namespaceOf login = .user u ∧ u.userId = id := by
  unfold resolve
  split <;> rename_i hns <;> simp [hns]

theorem resolve_org {s : AccountsState} {login id : String} :
    s.resolve login = some (.org id) ↔ ∃ o, s.namespaceOf login = .org o ∧ o.orgId = id := by
  unfold resolve
  split <;> rename_i hns <;> simp [hns]

/-- The accounts of the index are in their tables, each under its own id. -/
structure Indexed (s : AccountsState) : Prop where
  user : ∀ key id, s.byLogin.find? key = some (.user id) →
    ∃ u, s.users.find? id = some u ∧ u.userId = id
  org : ∀ key id, s.byLogin.find? key = some (.org id) →
    ∃ o, s.orgs.find? id = some o ∧ o.orgId = id

theorem indexed_empty : empty.Indexed := ⟨by simp [empty], by simp [empty]⟩

namespace Indexed

variable {s : AccountsState}

theorem resolve_eq (h : s.Indexed) {login : String} {hd : Holder} :
    s.resolve login = some hd ↔
      s.byLogin.find? (toAsciiLowercase login) = some hd ∧ hd ≠ .reserved := by
  cases hfind : s.byLogin.find? (toAsciiLowercase login) with
  | none => simp [resolve, namespaceOf, hfind]
  | some held =>
    cases held with
    | user id =>
      obtain ⟨u, hu, rfl⟩ := h.user _ _ hfind
      simp only [resolve, namespaceOf, hfind, hu, Option.elim_some, Option.some.injEq]
      exact ⟨fun heq => ⟨heq, heq ▸ by simp⟩, And.left⟩
    | org id =>
      obtain ⟨o, ho, rfl⟩ := h.org _ _ hfind
      simp only [resolve, namespaceOf, hfind, ho, Option.elim_some, Option.some.injEq]
      exact ⟨fun heq => ⟨heq, heq ▸ by simp⟩, And.left⟩
    | reserved =>
      simp only [resolve, namespaceOf, hfind, Option.some.injEq]
      exact iff_of_false (by simp) fun heq => heq.2 heq.1.symm

theorem unheld_iff (h : s.Indexed) {login : String} :
    (s.namespaceOf login = .reserved ↔
      s.byLogin.find? (toAsciiLowercase login) = some .reserved) ∧
    (s.namespaceOf login = .free ↔ s.byLogin.find? (toAsciiLowercase login) = none) := by
  cases hfind : s.byLogin.find? (toAsciiLowercase login) with
  | none => simp [namespaceOf, hfind]
  | some held =>
    cases held with
    | user id =>
      obtain ⟨u, hu, -⟩ := h.user _ _ hfind
      simp [namespaceOf, hfind, hu]
    | org id =>
      obtain ⟨o, ho, -⟩ := h.org _ _ hfind
      simp [namespaceOf, hfind, ho]
    | reserved => simp [namespaceOf, hfind]

theorem reserved_iff (h : s.Indexed) {login : String} :
    s.namespaceOf login = .reserved ↔
      s.byLogin.find? (toAsciiLowercase login) = some .reserved := h.unheld_iff.1

/-- A free login is not in the index. -/
theorem free_iff (h : s.Indexed) {login : String} :
    s.namespaceOf login = .free ↔ s.byLogin.find? (toAsciiLowercase login) = none :=
  h.unheld_iff.2

end Indexed

/-- What a later state keeps of the logins of an earlier one. -/
structure Keeps (s t : AccountsState) : Prop where
  indexed : t.Indexed
  held : ∀ key hd, hd ≠ .reserved → s.byLogin.find? key = some hd → t.byLogin.find? key = some hd
  reserved : ∀ key, s.byLogin.find? key = some .reserved →
    t.byLogin.find? key = some .reserved ∨ ∃ id, t.byLogin.find? key = some (.org id)

namespace Keeps

variable {s t u : AccountsState}

theorem refl (h : s.Indexed) : Keeps s s := ⟨h, fun _ _ _ hfind => hfind, fun _ => Or.inl⟩

theorem trans (h : Keeps s t) (h' : Keeps t u) : Keeps s u where
  indexed := h'.indexed
  held key hd hne hfind := h'.held key hd hne (h.held key hd hne hfind)
  reserved key hfind := by
    rcases h.reserved key hfind with hres | ⟨id, hid⟩
    · exact h'.reserved key hres
    · exact Or.inr ⟨id, h'.held key _ (by simp) hid⟩

/-- A login that resolves to an account resolves to it from then on. -/
theorem resolve (h : Keeps s t) (hs : s.Indexed) {login : String} {hd : Holder}
    (hfind : s.resolve login = some hd) : t.resolve login = some hd := by
  obtain ⟨hheld, hne⟩ := hs.resolve_eq.mp hfind
  exact h.indexed.resolve_eq.mpr ⟨h.held _ hd hne hheld, hne⟩

/-- A login that is taken is never free again. -/
theorem not_free (h : Keeps s t) (hs : s.Indexed) {login : String}
    (htaken : s.namespaceOf login ≠ .free) : t.namespaceOf login ≠ .free := by
  rw [ne_eq, hs.free_iff] at htaken
  rw [ne_eq, h.indexed.free_iff]
  obtain ⟨hd, hfind⟩ := Option.ne_none_iff_exists'.mp htaken
  cases hd with
  | reserved => rcases h.reserved _ hfind with hkept | ⟨id, hkept⟩ <;> simp [hkept]
  | user id => simp [h.held _ _ (by simp) hfind]
  | org id => simp [h.held _ _ (by simp) hfind]

/-- A taken login is a user's later only if it was that user's before. -/
theorem user_before (h : Keeps s t) (hs : s.Indexed) {login : String}
    (htaken : s.namespaceOf login ≠ .free) {u : User} (hu : t.namespaceOf login = .user u) :
    ∃ v, s.namespaceOf login = .user v ∧ v.userId = u.userId := by
  have huser : t.resolve login = some (.user u.userId) := resolve_user.mpr ⟨u, hu, rfl⟩
  obtain ⟨hheld, -⟩ := h.indexed.resolve_eq.mp huser
  rw [ne_eq, hs.free_iff] at htaken
  obtain ⟨hd, hfind⟩ := Option.ne_none_iff_exists'.mp htaken
  by_cases hreserved : hd = .reserved
  · subst hreserved
    rcases h.reserved _ hfind with hkept | ⟨id, hkept⟩ <;> simp [hkept] at hheld
  · have hkept := h.held _ hd hreserved hfind
    rw [hheld] at hkept
    exact resolve_user.mp (hs.resolve_eq.mpr ⟨hkept ▸ hfind, by simp⟩)

/-- The index is as it was, and so are the ids in the tables. -/
theorem tables (h : Keeps s t) (hindex : u.byLogin = t.byLogin)
    (husers : ∀ id v, t.users.find? id = some v → v.userId = id →
      ∃ v', u.users.find? id = some v' ∧ v'.userId = id)
    (horgs : ∀ id o, t.orgs.find? id = some o → o.orgId = id →
      ∃ o', u.orgs.find? id = some o' ∧ o'.orgId = id) : Keeps s u where
  indexed := by
    refine ⟨fun key id hfind => ?_, fun key id hfind => ?_⟩
    · obtain ⟨v, hv, hid⟩ := h.indexed.user key id (hindex ▸ hfind)
      exact husers id v hv hid
    · obtain ⟨o, ho, hid⟩ := h.indexed.org key id (hindex ▸ hfind)
      exact horgs id o ho hid
  held := hindex ▸ h.held
  reserved := hindex ▸ h.reserved

theorem reserve (h : Keeps s t) (login : String) : Keeps s (t.reserve login) := by
  unfold AccountsState.reserve
  split_ifs with hsome
  · exact h
  · have hnone : t.byLogin.find? (toAsciiLowercase login) = none := by simpa using hsome
    have hkeep : ∀ {key hd}, t.byLogin.find? key = some hd →
        (t.byLogin.insert (toAsciiLowercase login) .reserved).find? key = some hd := by
      intro key hd hfind
      rw [SortedMap.find?_insert, if_neg fun heq => by simp [heq, hnone] at hfind]
      exact hfind
    refine ⟨⟨fun key id hfind => ?_, fun key id hfind => ?_⟩,
      fun key hd hne hfind => hkeep (h.held key hd hne hfind), fun key hfind => ?_⟩
    · rw [SortedMap.find?_insert] at hfind
      split_ifs at hfind
      · simp at hfind
      · exact h.indexed.user key id hfind
    · rw [SortedMap.find?_insert] at hfind
      split_ifs at hfind
      · simp at hfind
      · exact h.indexed.org key id hfind
    · rcases h.reserved key hfind with hres | ⟨id, hid⟩
      · exact Or.inl (hkeep hres)
      · exact Or.inr ⟨id, hkeep hid⟩

theorem genesis (h : Keeps s t) (reserved : List String) :
    Keeps s (t.apply (.genesis reserved)) := by
  have hfold : ∀ (l : List String) (t : AccountsState), Keeps s t →
      Keeps s (l.foldl AccountsState.reserve t) := by
    intro l
    induction l with
    | nil => exact fun t ht => ht
    | cons login l ih => exact fun t ht => ih _ (ht.reserve login)
  exact hfold reserved _ (h.tables rfl (fun id v hv hid => ⟨v, hv, hid⟩)
    fun id o ho hid => ⟨o, ho, hid⟩)

/-- A new user takes a login that the entry found free. -/
theorem createUser (h : Keeps s t) {key : String} {v : User} (hfree : s.byLogin.find? key = none) :
    Keeps s { t with
      byLogin := t.byLogin.insert key (.user v.userId)
      users := t.users.insert v.userId v } := by
  refine ⟨⟨fun k id hfind => ?_, fun k id hfind => ?_⟩, fun k hd hne hfind => ?_, fun k hfind => ?_⟩
  · by_cases hid : id = v.userId
    · exact ⟨v, by simp [SortedMap.find?_insert, hid], hid.symm⟩
    · simp only [SortedMap.find?_insert, hid, if_false] at hfind ⊢
      split_ifs at hfind
      · simp only [Option.some.injEq, Holder.user.injEq] at hfind
        exact absurd hfind.symm hid
      · exact h.indexed.user k id hfind
  · simp only [SortedMap.find?_insert] at hfind
    split_ifs at hfind
    · simp at hfind
    · exact h.indexed.org k id hfind
  · rw [SortedMap.find?_insert, if_neg fun heq => by simp [heq, hfree] at hfind]
    exact h.held k hd hne hfind
  · simp only [SortedMap.find?_insert]
    rw [if_neg fun heq => by simp [heq, hfree] at hfind]
    exact h.reserved k hfind

/-- A new organisation takes a login that no account had before the entry. -/
theorem createOrg (h : Keeps s t) {key : String} {o : Org}
    (hopen : ∀ hd, s.byLogin.find? key = some hd → hd = .reserved) :
    Keeps s { t with
      byLogin := t.byLogin.insert key (.org o.orgId)
      orgs := t.orgs.insert o.orgId o } := by
  refine ⟨⟨fun k id hfind => ?_, fun k id hfind => ?_⟩, fun k hd hne hfind => ?_, fun k hfind => ?_⟩
  · simp only [SortedMap.find?_insert] at hfind
    split_ifs at hfind
    · simp at hfind
    · exact h.indexed.user k id hfind
  · by_cases hid : id = o.orgId
    · exact ⟨o, by simp [SortedMap.find?_insert, hid], hid.symm⟩
    · simp only [SortedMap.find?_insert, hid, if_false] at hfind ⊢
      split_ifs at hfind
      · simp only [Option.some.injEq, Holder.org.injEq] at hfind
        exact absurd hfind.symm hid
      · exact h.indexed.org k id hfind
  · have hk : k ≠ key := by
      rintro rfl
      exact hne (hopen hd hfind)
    simp only [SortedMap.find?_insert, hk, if_false]
    exact h.held k hd hne hfind
  · simp only [SortedMap.find?_insert]
    split_ifs
    · exact Or.inr ⟨_, rfl⟩
    · exact h.reserved k hfind

end Keeps

section Verified

variable [CharTables] {s t : AccountsState} {c c' : Claimed}

/-- One verified event of an entry. -/
theorem Keeps.step (h : Keeps s t) (hs : s.Indexed) {n : ℕ} {ev : AccountEvent}
    (hok : s.verifyEvent n c ev = .ok c') : Keeps s (t.apply ev) := by
  simp only [verifyEvent, guard_ok] at hok
  obtain ⟨hset, -, hok⟩ := hok
  cases ev with
  | unset => exact absurd rfl hset
  | genesis reserved => exact h.genesis reserved
  | namespaceReserved login => exact h.reserve login
  | userCreated userId login email name avatarUrl =>
    simp only [guard_ok, bind_eq_ok] at hok
    obtain ⟨-, -, -, hlogin, -⟩ := hok
    simp only [Bool.or_eq_true, decide_eq_true_eq, not_or, ne_eq, Decidable.not_not] at hlogin
    have hfree := hs.free_iff.mp hlogin.1
    rw [toAsciiLowercase_idem] at hfree
    exact h.createUser (v := ⟨userId, login, email, name, avatarUrl, ""⟩) hfree
  | identityLinked userId issuer subject =>
    exact h.tables rfl (fun id v hv hid => ⟨v, hv, hid⟩) fun id o ho hid => ⟨o, ho, hid⟩
  | profileChanged userId email name avatarUrl =>
    refine h.tables rfl (fun id v hv hid => ?_) fun id o ho hid => ⟨o, ho, hid⟩
    simp only [apply, SortedMap.find?_modify]
    split_ifs <;> simp [hv, hid]
  | orgCreated orgId login owners =>
    simp only [guard_ok, bind_eq_ok] at hok
    obtain ⟨-, -, -, hlogin, -⟩ := hok
    simp only [Bool.or_eq_true, not_or, Bool.not_eq_true', Bool.not_eq_false] at hlogin
    refine h.createOrg (o := ⟨orgId, login, .setOf owners⟩) fun hd hfind => ?_
    by_contra hne
    have hresolve : s.resolve (toAsciiLowercase login) = some hd := by
      rw [hs.resolve_eq, toAsciiLowercase_idem]
      exact ⟨hfind, hne⟩
    unfold AccountsState.resolve at hresolve
    split at hresolve <;> simp_all
  | orgOwnersChanged orgId owners =>
    refine h.tables rfl (fun id v hv hid => ⟨v, hv, hid⟩) fun id o ho hid => ?_
    simp only [apply, SortedMap.find?_modify]
    split_ifs <;> simp [ho, hid]
  | passwordSet userId phc =>
    refine h.tables rfl (fun id v hv hid => ?_) fun id o ho hid => ⟨o, ho, hid⟩
    simp only [apply, SortedMap.find?_modify]
    split_ifs <;> simp [hv, hid]

theorem Keeps.events {n : ℕ} {events : List AccountEvent} (hs : s.Indexed) (h : Keeps s t)
    (hok : events.foldlM (s.verifyEvent n) c = .ok c') : Keeps s (events.foldl apply t) := by
  induction events generalizing c t with
  | nil => exact h
  | cons ev events ih =>
    rw [List.foldlM_cons, bind_eq_ok] at hok
    obtain ⟨c₁, hev, hrest⟩ := hok
    exact ih (h.step hs hev) hrest

/-- An accepted entry is a list of events that passed the check one after another. -/
theorem accept_ok {e : LogEntry} (h : s.accept e = some t) :
    e.account ≠ [] ∧ (∃ c, e.account.foldlM (s.verifyEvent e.account.length) {} = .ok c) ∧
      t.byLogin = (e.account.foldl apply s).byLogin ∧ t.users = (e.account.foldl apply s).users ∧
      t.orgs = (e.account.foldl apply s).orgs ∧ t.genesis = (e.account.foldl apply s).genesis := by
  simp only [accept] at h
  split_ifs at h with hverified
  cases h
  obtain ⟨hseq, hok⟩ := hverified
  cases hv : s.verify e.account with
  | error m =>
    rw [hv] at hok
    cases hok
  | ok u =>
    simp only [verify, guard_ok, bind_eq_ok] at hv
    obtain ⟨hne, c, hfold, -⟩ := hv
    have hne : e.account.isEmpty = false := by simpa using hne
    simp only [foldEntry, not_le.mpr hseq, if_false, hne, Bool.false_eq_true]
    exact ⟨by simpa using hne, ⟨c, hfold⟩, rfl, rfl, rfl, rfl⟩

theorem Keeps.entry {e : LogEntry} (hs : s.Indexed) (h : s.accept e = some t) : Keeps s t := by
  obtain ⟨-, ⟨c, hfold⟩, hindex, husers, horgs, -⟩ := accept_ok h
  refine (Keeps.events hs (.refl hs) hfold).tables hindex ?_ ?_
  · rw [husers]
    exact fun id v hv hid => ⟨v, hv, hid⟩
  · rw [horgs]
    exact fun id o ho hid => ⟨o, ho, hid⟩

theorem Keeps.run {entries : List LogEntry} (hs : s.Indexed)
    (hrun : Runs.run accept s entries = some t) : Keeps s t :=
  Runs.invariant (fun _ _ _ h _ hstep => h.trans (.entry h.indexed hstep)) hrun
    (Runs.allSteps_true s entries) (.refl hs)

end Verified

section Genesis

variable {s t : AccountsState}

theorem genesis_reserve (t : AccountsState) (login : String) :
    (t.reserve login).genesis = t.genesis := by
  unfold reserve
  split_ifs <;> rfl

theorem genesis_apply (t : AccountsState) (ev : AccountEvent) :
    (t.apply ev).genesis = (t.genesis || ev matches .genesis _) := by
  cases ev with
  | genesis reserved =>
    have hfold : ∀ (l : List String) (t : AccountsState),
        (l.foldl reserve t).genesis = t.genesis := by
      intro l
      induction l with
      | nil => exact fun t => rfl
      | cons login l ih => exact fun t => (ih _).trans (genesis_reserve t login)
    simp [apply, hfold]
  | namespaceReserved login => simp [apply, genesis_reserve]
  | _ => simp [apply]

variable [CharTables]

/-- A genesis event is alone in its entry, in a log that has none, and nothing precedes it. -/
theorem verifyEvent_genesis {n : ℕ} {c c' : Claimed} {ev : AccountEvent}
    (hok : s.verifyEvent n c ev = .ok c') :
    (s.genesis = false ∧ n = 1 ∧ ∃ reserved, ev = .genesis reserved) ∨
      (s.genesis = true ∧ ∀ reserved, ev ≠ .genesis reserved) := by
  simp only [verifyEvent, guard_ok] at hok
  obtain ⟨-, hstarted, hok⟩ := hok
  cases ev with
  | genesis reserved =>
    simp only [guard_ok] at hok
    obtain ⟨halone, -⟩ := hok
    exact Or.inl (by simpa using halone)
  | _ => exact Or.inr (by simpa using hstarted)

/-- One entry is the genesis of an empty log and of no other, and leaves the log started. -/
theorem accept_genesis {e : LogEntry} (h : s.accept e = some t) :
    (s.genesis = false → ∃ reserved, e.account = [.genesis reserved]) ∧
      (s.genesis = true → ∀ reserved, .genesis reserved ∉ e.account) ∧ t.genesis = true := by
  obtain ⟨hne, ⟨c, hfold⟩, -, -, -, hgenesis⟩ := accept_ok h
  have hevents : ∀ ev ∈ e.account,
      (s.genesis = false ∧ e.account.length = 1 ∧ ∃ reserved, ev = .genesis reserved) ∨
        (s.genesis = true ∧ ∀ reserved, ev ≠ .genesis reserved) := by
    intro ev hev
    obtain ⟨c, c', hok⟩ := Checks.foldlM_mem hfold ev hev
    exact verifyEvent_genesis hok
  have happly : ∀ (l : List AccountEvent) (u : AccountsState), u.genesis = true →
      (l.foldl apply u).genesis = true := by
    intro l
    induction l with
    | nil => exact fun u hu => hu
    | cons ev l ih => exact fun u hu => ih _ (by rw [genesis_apply, hu, Bool.true_or])
  cases hstarted : s.genesis with
  | false =>
    have hone : ∃ reserved, e.account = [.genesis reserved] := by
      obtain ⟨ev, rest, hcons⟩ := List.exists_cons_of_ne_nil hne
      rcases hevents ev (hcons ▸ List.mem_cons_self) with ⟨-, hlength, reserved, rfl⟩ | ⟨hs, -⟩
      · rw [hcons, List.length_cons, Nat.add_eq_right, List.length_eq_zero_iff] at hlength
        exact ⟨reserved, by rw [hcons, hlength]⟩
      · rw [hstarted] at hs
        cases hs
    refine ⟨fun _ => hone, fun hs => absurd hs (by simp), ?_⟩
    obtain ⟨reserved, hone⟩ := hone
    rw [hgenesis, hone, List.foldl_cons, List.foldl_nil, genesis_apply, Bool.or_true]
  | true =>
    refine ⟨fun hs => absurd hs (by simp), fun _ reserved hmem => ?_, ?_⟩
    · rcases hevents _ hmem with ⟨hs, -⟩ | ⟨-, hno⟩
      · rw [hstarted] at hs
        cases hs
      · exact hno reserved rfl
    · rw [hgenesis]
      exact happly _ _ hstarted

theorem run_genesis {entries : List LogEntry} (hs : s.genesis = true)
    (hrun : Runs.run accept s entries = some t) :
    ∀ e ∈ entries, ∀ reserved, .genesis reserved ∉ e.account := by
  induction entries generalizing s with
  | nil => simp
  | cons e entries ih =>
    obtain ⟨u, hu, hrest⟩ := Runs.run_cons hrun
    obtain ⟨-, hno, hstarted⟩ := accept_genesis hu
    rw [List.forall_mem_cons]
    exact ⟨hno hs, ih hstarted hrest⟩

/-- The first verified entry is the genesis, alone, and no later one is. A login that an entry
leaves reserved is not a user's at the end of any later entry, and a login that resolves to an
account resolves to that account at the end of every later entry. -/
theorem names_kept {before after : List LogEntry} (hs : Runs.run accept empty before = some s)
    (ht : Runs.run accept s after = some t) :
    ((∀ e ∈ (before ++ after).head?, ∃ reserved, e.account = [.genesis reserved]) ∧
        ∀ e ∈ (before ++ after).tail, ∀ reserved, .genesis reserved ∉ e.account) ∧
      (∀ login, s.namespaceOf login = .reserved → ∀ u, t.namespaceOf login ≠ .user u) ∧
      ∀ login hd, s.resolve login = some hd → t.resolve login = some hd := by
  have hindexed : s.Indexed := (Keeps.run indexed_empty hs).indexed
  have hkeeps : Keeps s t := .run hindexed ht
  refine ⟨?_, fun login hres u hu => ?_, fun login hd hfind => ?_⟩
  · have hrun : Runs.run accept empty (before ++ after) = some t := by
      rw [Runs.run_append, hs]
      exact ht
    generalize before ++ after = entries at hrun
    cases entries with
    | nil => simp
    | cons e entries =>
      obtain ⟨u, hu, hrest⟩ := Runs.run_cons hrun
      obtain ⟨hfirst, -, hstarted⟩ := accept_genesis hu
      simp only [List.head?_cons, Option.mem_some_iff, forall_eq', List.tail_cons]
      exact ⟨hfirst rfl, run_genesis hstarted hrest⟩
  · have hresolve : t.resolve login = some (.user u.userId) := by simp [resolve, hu]
    obtain ⟨huser, -⟩ := hkeeps.indexed.resolve_eq.mp hresolve
    rcases hkeeps.reserved _ (hindexed.reserved_iff.mp hres) with hfind | ⟨id, hfind⟩
    · simp [hfind] at huser
    · simp [hfind] at huser
  · exact hkeeps.resolve hindexed hfind

end Genesis

section Example

attribute [local instance] asciiTables

/-- The reserved login `old` goes to an organisation, and alice stays herself. -/
theorem names_kept_oneUser :
    ∃ s t : AccountsState, s.namespaceOf "OLD" = .reserved ∧ s.resolve "Alice" = some (.user "u1") ∧
      (∀ u, t.namespaceOf "OLD" ≠ .user u) ∧ t.resolve "Alice" = some (.user "u1") ∧
      t.resolve "OLD" = some (.org "o2") := by
  have hsome : ((Runs.run accept empty oneUser).bind fun s =>
      (Runs.run accept s [twoOrgs "o1" "o2"]).map fun t =>
        (s.namespaceOf "OLD", s.resolve "Alice", t.resolve "OLD")) =
          some (.reserved, some (.user "u1"), some (.org "o2")) := by
    decide
  obtain ⟨s, hs, hmap⟩ := Option.bind_eq_some_iff.mp hsome
  obtain ⟨t, ht, heq⟩ := Option.map_eq_some_iff.mp hmap
  simp only [Prod.mk.injEq] at heq
  obtain ⟨-, hreserved, hresolve⟩ := names_kept hs ht
  exact ⟨s, t, heq.1, heq.2.1, hreserved _ heq.1, hresolve _ _ heq.2.1, heq.2.2⟩

end Example

end AccountsState

end Walgit
