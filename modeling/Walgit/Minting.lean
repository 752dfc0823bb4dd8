import Walgit.Credentials
import Walgit.Directory

/-!
# Minting and the flags of a subject

A static token acts with its own flags. An access token minted with it acts as the account,
with the flags of every static token of the login, the password setting and the policy of
the account's email.
-/
namespace Walgit

namespace AccountsState

/-- Every user is in the table under its own id. -/
def Keyed (s : AccountsState) : Prop := ∀ id u, s.users.find? id = some u → u.userId = id

variable {s : AccountsState}

theorem Keyed.modify (h : s.Keyed) {t : AccountsState} {id : String} {f : User → User}
    (ht : t.users = s.users.modify id f) (hid : ∀ u, (f u).userId = u.userId) : t.Keyed := by
  intro j v hv
  rw [ht, SortedMap.find?_modify] at hv
  split_ifs at hv with hj
  · obtain ⟨u, hu, rfl⟩ := Option.map_eq_some_iff.mp hv
    rw [hid]
    exact h j u hu
  · exact h j v hv

theorem Keyed.apply (h : s.Keyed) (ev : AccountEvent) : (s.apply ev).Keyed := by
  cases ev with
  | unset | identityLinked _ _ _ | orgCreated _ _ _ | orgOwnersChanged _ _ => exact h
  | genesis reserved =>
    intro id u hu
    rw [(tables_genesis s reserved).1] at hu
    exact h id u hu
  | namespaceReserved login =>
    intro id u hu
    rw [AccountsState.apply, (tables_reserve s login).1] at hu
    exact h id u hu
  | userCreated userId login email name avatarUrl =>
    intro id u hu
    simp only [AccountsState.apply, SortedMap.find?_insert] at hu
    split_ifs at hu with hid
    · cases hu
      exact hid.symm
    · exact h id u hu
  | profileChanged userId email name avatarUrl => exact h.modify rfl fun _ => rfl
  | passwordSet userId phc => exact h.modify rfl fun _ => rfl

theorem Keyed.foldEntry (h : s.Keyed) (e : LogEntry) : (s.foldEntry e).Keyed := by
  unfold AccountsState.foldEntry
  split_ifs
  · exact h
  · exact h
  · have hevents : (e.account.foldl AccountsState.apply s).Keyed :=
      List.foldlRecOn e.account _ h fun t ht ev _ => ht.apply ev
    exact hevents

/-- Whatever the log says, the fold of it keeps each user under its id. -/
theorem keyed_fold (log : List LogEntry) : (empty.foldEntries 0 log).Keyed := by
  have hempty : empty.Keyed := by simp [Keyed, empty]
  exact List.foldlRecOn log _ hempty fun t ht e _ => ht.foldEntry e

theorem Keyed.userByLogin (h : s.Keyed) {login : String} {u : User}
    (hu : s.userByLogin login = some u) : s.users.find? u.userId = some u := by
  unfold AccountsState.userByLogin at hu
  split at hu
  · rename_i v hns
    cases hu
    unfold namespaceOf at hns
    split at hns
    · rename_i id _
      cases hfind : s.users.find? id with
      | none => simp [hfind] at hns
      | some w =>
        simp only [hfind, Option.elim_some, Namespace.user.injEq] at hns
        subst hns
        rw [h id w hfind, hfind]
    · rename_i id _
      cases hfind : s.orgs.find? id <;> simp [hfind] at hns
    · cases hns
    · cases hns
  · cases hu

theorem Keyed.userByIdentity (h : s.Keyed) {issuer subject : String} {u : User}
    (hu : s.userByIdentity issuer subject = some u) : s.users.find? u.userId = some u := by
  obtain ⟨id, -, hfind⟩ := Option.bind_eq_some_iff.mp hu
  rw [h id u hfind, hfind]

end AccountsState

namespace Auth

open Text

/-- The token a request presents, as a bearer or as the password of Basic. -/
def Request.presented (r : Request) : Option String :=
  match r.authorization with
  | some (.bearer tok) | some (.basic _ tok) => some tok
  | none => none

/-- `Sec-Fetch-Site` does not name another site. -/
def Request.sameOrigin (r : Request) : Prop := ∀ v ∈ r.fetchSite, v = "same-origin" ∨ v = "none"

/-- The account a credential acts as. -/
def Credential.holder (s : AccountsState) : Credential → Option User
  | .anonymous | .localUser => none
  | .token user _ _ => s.userByLogin user
  | .account userId => s.users.find? userId
  | .identity id => s.userByIdentity id.issuer id.subject

namespace Authenticator

variable (a : Authenticator)

/-- The token is a value this host signed. -/
def signed (tok : String) : Bool := ((stripPrefix accessTokenPrefix tok).bind a.verifySigned).isSome

def writesByToken (login : String) : Prop :=
  ∃ t ∈ a.tokens, eqIgnoreAsciiCase t.user login ∧ t.write

def administersByToken (login : String) : Prop :=
  ∃ t ∈ a.tokens, eqIgnoreAsciiCase t.user login ∧ t.admin

def emailAllowed (email : String) : Prop :=
  ∃ d, domainOf email = some d ∧
    (toAsciiLowercase d ∈ a.allowedDomains ∨ toAsciiLowercase email ∈ a.allowedEmails)

def writesByEmail (email : String) : Prop :=
  ∃ d, domainOf email = some d ∧ ∀ domains ∈ a.writeDomains, toAsciiLowercase d ∈ domains

def administersByEmail (email : String) : Prop :=
  ∃ d, domainOf email = some d ∧
    (toAsciiLowercase email ∈ a.adminEmails ∨ toAsciiLowercase d ∈ a.adminDomains)

/-- The email of the account counts. -/
def judgesEmail (u : User) : Prop := a.mode = .oidc ∧ u.email ≠ ""

/-- Something in the configuration lets the account create repositories. -/
def accountCreates (u : User) : Prop :=
  a.writesByToken u.login ∨ a.passwords ≠ .off ∨ a.judgesEmail u ∧ a.writesByEmail u.email

/-- Something in the configuration makes the account a site admin. -/
def accountAdministers (u : User) : Prop :=
  a.administersByToken u.login ∨ a.judgesEmail u ∧ a.administersByEmail u.email

/-- The account may sign in at all. -/
def accountAllowed (u : User) : Prop := a.judgesEmail u → a.emailAllowed u.email

/-- The credential itself carries what the configuration gives its account. -/
def covers (u : User) : Credential → Prop
  | .token _ write admin => (a.accountCreates u → write) ∧ (a.accountAdministers u → admin)
  | .identity id =>
    (a.accountCreates u → a.writesByEmail id.email ∨ a.writesByToken u.login) ∧
      (a.accountAdministers u → a.administersByEmail id.email ∨ a.administersByToken u.login)
  | .anonymous | .localUser | .account _ => True

/-- Where an access token can be minted and used, the credential covers its account. -/
def Covered (s : AccountsState) (now : UInt64) (r : Request) : Prop :=
  a.issuedTokensEnabled → r.sameOrigin → a.expiry now ≠ 0 → ∀ c, a.credential now r = .ok c →
    ∀ u ∈ c.holder s, a.accountAllowed u → a.covers u c

end Authenticator

section Chains

variable [CharTables]

/-- The tokens a request leads to: minted with it, or with a token it led to. -/
inductive Chain (a : Authenticator) (s : AccountsState) (now : UInt64) (r : Request) :
    String → Prop where
  | first {m : Minted} (h : mintToken a s now r = .ok m) : Chain a s now r m.token
  | next {tok : String} {t : UInt64} {r' : Request} {m : Minted} (hchain : Chain a s now r tok)
    (hpresented : r'.presented = some tok) (h : mintToken a s t r' = .ok m) :
    Chain a s now r m.token

/-- A subject has the user of another and no flag that one lacks. -/
def Subject.Within (s t : Subject) : Prop :=
  s.userId = t.userId ∧ (s.canCreate → t.canCreate) ∧ (s.siteAdmin → t.siteAdmin)

/-- Whatever a token of the chain authenticates as has no more than the subject. -/
def Bounded (a : Authenticator) (s : AccountsState) (now : UInt64) (r : Request)
    (subject : Subject) : Prop :=
  ∀ tok, Chain a s now r tok → ∀ (t : UInt64) (r' : Request) (subject' : Subject),
    r'.presented = some tok → authenticate a s t r' = .ok subject' → Subject.Within subject' subject

end Chains

section Flags

variable {a : Authenticator} {s : AccountsState} {u : User}

theorem tokenFlags_eq (a : Authenticator) (login : String) :
    ((a.tokenFlags login).canCreate ↔ a.writesByToken login) ∧
      ((a.tokenFlags login).siteAdmin ↔ a.administersByToken login) := by
  have hfold : ∀ (l : List StaticToken) (f : EmailFlags),
      ((l.foldl (fun f t => f.or ⟨t.write, t.admin⟩) f).canCreate ↔
        f.canCreate ∨ ∃ t ∈ l, t.write) ∧
      ((l.foldl (fun f t => f.or ⟨t.write, t.admin⟩) f).siteAdmin ↔
        f.siteAdmin ∨ ∃ t ∈ l, t.admin) := by
    intro l
    induction l with
    | nil => simp
    | cons t l ih =>
      intro f
      obtain ⟨hcreate, hadmin⟩ := ih (f.or ⟨t.write, t.admin⟩)
      rw [List.foldl_cons, hcreate, hadmin]
      simp [EmailFlags.or, or_assoc]
  obtain ⟨hcreate, hadmin⟩ := hfold
    (a.tokens.filter fun t => eqIgnoreAsciiCase t.user login) ⟨false, false⟩
  rw [Authenticator.tokenFlags, hcreate, hadmin]
  simp [Authenticator.writesByToken, Authenticator.administersByToken, and_assoc]

theorem emailFlags_ok {email : String} {f : EmailFlags} (h : a.emailFlags email = .ok f) :
    a.emailAllowed email ∧ (f.canCreate ↔ a.writesByEmail email) ∧
      (f.siteAdmin ↔ a.administersByEmail email) := by
  unfold Authenticator.emailFlags at h
  split at h
  · cases h
  · rename_i d hd
    dsimp only at h
    split_ifs at h with hallowed
    cases h
    refine ⟨⟨d, hd, hallowed⟩, ?_, ?_⟩
    · simp [Authenticator.writesByEmail, hd, Option.all_eq_true]
    · simp [Authenticator.administersByEmail, hd]

theorem emailFlags_exists {email : String} (h : a.emailAllowed email) :
    ∃ f, a.emailFlags email = .ok f := by
  obtain ⟨d, hd, hallowed⟩ := h
  simp only [Authenticator.emailFlags, hd, if_pos hallowed]
  exact ⟨_, rfl⟩

theorem accountFlags_ok {f : EmailFlags} (h : a.accountFlags u = .ok f) :
    a.accountAllowed u ∧ (f.canCreate ↔ a.accountCreates u) ∧
      (f.siteAdmin ↔ a.accountAdministers u) := by
  obtain ⟨hcreate, hadmin⟩ := tokenFlags_eq a u.login
  unfold Authenticator.accountFlags at h
  split_ifs at h with hjudged
  · cases he : a.emailFlags u.email with
    | error e => simp [he, Except.map] at h
    | ok e =>
      simp only [he, Except.map, Except.ok.injEq] at h
      subst h
      obtain ⟨hallowed, hwrites, hadministers⟩ := emailFlags_ok he
      have hj : a.judgesEmail u := hjudged
      refine ⟨fun _ => hallowed, ?_, ?_⟩
      · simp [EmailFlags.or, Authenticator.accountCreates, hj, hcreate, hwrites, or_assoc]
      · simp [EmailFlags.or, Authenticator.accountAdministers, hj, hadmin, hadministers]
  · cases h
    have hj : ¬ a.judgesEmail u := hjudged
    refine ⟨fun h => absurd h hj, ?_, ?_⟩
    · simp [Authenticator.accountCreates, hj, hcreate]
    · simp [Authenticator.accountAdministers, hj, hadmin]

theorem accountFlags_exists (h : a.accountAllowed u) : ∃ f, a.accountFlags u = .ok f := by
  unfold Authenticator.accountFlags
  split_ifs with hjudged
  · obtain ⟨e, he⟩ := emailFlags_exists (h hjudged)
    rw [he]
    exact ⟨_, rfl⟩
  · exact ⟨_, rfl⟩

end Flags

section Issued

variable {a : Authenticator} {s : AccountsState} {now t : UInt64} {r : Request} {u : User}
  {userId tok : String}

/-- An issued token opens to its account until it expires. -/
theorem accessTokenClaims_issued (h : a.accessToken userId now = some tok) :
    a.accessTokenClaims t tok =
      if a.expiry now ≤ t then none else some ((a.expiry now).toNat, userId) := by
  obtain ⟨-, v, hv, rfl⟩ := accessToken_eq h
  have hclaims := Authenticator.claimsOf_mint (t := t) (by decide) hv
  simp only [Authenticator.accessTokenClaims, stripPrefix_append, Option.bind_eq_bind,
    Option.bind_some, hclaims]
  split_ifs <;> rfl

theorem signed_issued (h : a.accessToken userId now = some tok) : a.signed tok := by
  obtain ⟨-, v, hv, rfl⟩ := accessToken_eq h
  simp [Authenticator.signed, stripPrefix_append, Authenticator.verifySigned_sign hv]

/-- No static token shadows an issued one, so it stands for its account. -/
theorem credential_issued (hkeys : ∀ st ∈ a.tokens, ¬ a.signed st.token)
    (h : a.accessToken userId now = some tok) (hr : r.presented = some tok) :
    a.credential t r = if a.expiry now ≤ t then .error .invalid else .ok (.account userId) := by
  have hstatic : a.tokens.find? (fun st => st.token = tok) = none := by
    rw [List.find?_eq_none]
    intro st hst heq
    simp only [decide_eq_true_eq] at heq
    exact hkeys st hst (heq ▸ signed_issued h)
  have hopaque : a.opaqueToken t tok =
      some (if a.expiry now ≤ t then .error .invalid else .ok (.account userId)) := by
    have hstarts : startsWith accessTokenPrefix tok := by
      obtain ⟨-, v, -, rfl⟩ := accessToken_eq h
      simp [startsWith]
    simp only [Authenticator.opaqueToken, hstatic, hstarts, if_true, accessTokenClaims_issued h]
    split_ifs <;> rfl
  have hinner : a.authenticateInner t r =
      if a.expiry now ≤ t then .error .invalid else .ok (.account userId) := by
    obtain ⟨henabled, -⟩ := accessToken_eq h
    cases hauth : r.authorization with
    | none => simp [Request.presented, hauth] at hr
    | some auth =>
      cases hmode : a.mode with
      | none => simp [Authenticator.issuedTokensEnabled, hmode] at henabled
      | token | oidc =>
        cases auth with
        | bearer tok' | basic _ tok' =>
          simp only [Request.presented, hauth, Option.some.injEq] at hr
          subst hr
          simp only [Authenticator.authenticateInner, hmode, hauth, hopaque, Option.getD_some]
  simp only [Authenticator.credential, hinner]
  split_ifs
  · rfl
  · cases r.principal <;> rfl

variable [CharTables]

/-- An account credential acts as its account, with the account's flags. -/
theorem resolve_account {baseUrl : String} {subject : Subject} :
    resolve a s baseUrl (.account userId) = .ok subject ↔ ∃ u f, s.users.find? userId = some u ∧
      a.accountFlags u = .ok f ∧ Subject.ofUser u f = subject := by
  cases hfind : s.users.find? userId with
  | none => simp [resolve, hfind]
  | some u => simp [resolve, hfind, Checks.map_eq_ok]

/-- A token of an account that is still alive is that account. -/
theorem authenticate_issued {subject : Subject} (hkeys : ∀ st ∈ a.tokens, ¬ a.signed st.token)
    (h : a.accessToken userId now = some tok) (hr : r.presented = some tok) :
    authenticate a s t r = .ok subject ↔ t < a.expiry now ∧ ∃ u f,
      s.users.find? userId = some u ∧ a.accountFlags u = .ok f ∧ Subject.ofUser u f = subject := by
  simp only [authenticate, credential_issued hkeys h hr, Checks.bind_eq_ok]
  split_ifs with hexp
  · simp [UInt64.not_lt.mpr hexp]
  · simp [resolve_account, UInt64.not_le.mp hexp]

omit [CharTables] in
theorem sameOrigin_iff :
    r.sameOrigin ↔ ¬ r.fetchSite.any fun v => v ≠ "same-origin" && v ≠ "none" := by
  cases hfetch : r.fetchSite with
  | none => simp [Request.sameOrigin, hfetch]
  | some v =>
    simp only [Request.sameOrigin, hfetch, Option.mem_def, Option.some.injEq, forall_eq',
      Option.any_some, ne_eq, Bool.and_eq_true, decide_eq_true_eq]
    tauto

/-- What an answer of the mint says about its request. -/
theorem mintToken_ok {m : Minted} (h : mintToken a s t r = .ok m) :
    r.sameOrigin ∧ ∃ subject id, authenticate a s t r = .ok subject ∧ subject.userId = some id ∧
      a.accessToken id t = some m.token := by
  simp only [mintToken, Checks.guard_ok] at h
  obtain ⟨-, horigin, h⟩ := h
  cases hs : authenticate a s t r with
  | error e => simp [hs] at h
  | ok subject =>
    simp only [hs, Checks.guard_ok] at h
    obtain ⟨hsome, h⟩ := h
    split at h
    · cases h
    · rename_i tok htok
      cases h
      obtain ⟨id, hid, htoken⟩ := Option.bind_eq_some_iff.mp htok
      exact ⟨sameOrigin_iff.mpr horigin, subject, id, rfl, hid, htoken⟩

/-- A signed-in request of this site gets a token where tokens are issued. -/
theorem mintToken_issued {subject : Subject} {id : String} (henabled : a.issuedTokensEnabled)
    (horigin : r.sameOrigin) (hs : authenticate a s t r = .ok subject)
    (hid : subject.userId = some id) :
    ∃ m, mintToken a s t r = .ok m ∧ a.accessToken id t = some m.token := by
  obtain ⟨secret, hsecret⟩ : ∃ secret, a.sessionSecret = some secret := by
    simp only [Authenticator.issuedTokensEnabled, Bool.and_eq_true] at henabled
    exact Option.isSome_iff_exists.mp henabled.2
  have htoken : ∃ tok, a.accessToken id t = some tok := by
    simp [Authenticator.accessToken, henabled, Authenticator.mint, Authenticator.sign, hsecret]
  obtain ⟨tok, htok⟩ := htoken
  have hfetch := sameOrigin_iff.mp horigin
  refine ⟨⟨tok, subject.name, subject.canCreate, (a.accessTokenClaims t tok).elim 0 Prod.fst⟩,
    ?_, htok⟩
  simp only [mintToken, Checks.guard_ok]
  refine ⟨by simp [henabled], hfetch, ?_⟩
  simp only [hs, Checks.guard_ok, Subject.isAnonymous, hid, Option.bind_some, htok]
  exact ⟨by simp, rfl⟩

end Issued

section Bounded

variable [CharTables] {a : Authenticator} {s : AccountsState} {now : UInt64} {r : Request}
  {subject : Subject} {tok : String}

/-- A credential with an account acts as it, and covers it when its flags are the account's. -/
theorem resolve_flags {baseUrl : String} {c : Credential} (hkeyed : s.Keyed)
    (h : resolve a s baseUrl c = .ok subject) :
    (c = .anonymous ∧ subject = Subject.nobody) ∨ c = .localUser ∧ subject.canCreate ∧
      subject.siteAdmin ∨ ∃ u g, c.holder s = some u ∧ s.users.find? u.userId = some u ∧
      subject = Subject.ofUser u g ∧ (a.covers u c ↔
        (a.accountCreates u → g.canCreate) ∧ (a.accountAdministers u → g.siteAdmin)) := by
  cases c with
  | anonymous => exact Or.inl ⟨rfl, (Except.ok.inj h).symm⟩
  | localUser =>
    cases h
    exact Or.inr (Or.inl ⟨rfl, rfl, rfl⟩)
  | token user write admin =>
    right; right
    cases hu : s.userByLogin user with
    | none => simp [resolve, hu] at h
    | some u =>
      simp only [resolve, hu, Except.ok.injEq] at h
      exact ⟨u, ⟨write, admin⟩, hu, hkeyed.userByLogin hu, h.symm, Iff.rfl⟩
  | account userId =>
    right; right
    obtain ⟨u, f, hu, hf, rfl⟩ := resolve_account.mp h
    obtain ⟨-, hcreate, hadmin⟩ := accountFlags_ok hf
    refine ⟨u, f, hu, ?_, rfl, ?_⟩
    · rw [hkeyed userId u hu, hu]
    · simp [Authenticator.covers, hcreate, hadmin]
  | identity identity =>
    right; right
    cases hu : s.userByIdentity identity.issuer identity.subject with
    | none => simp [resolve, hu] at h
    | some u =>
      simp only [resolve, hu, Checks.map_eq_ok] at h
      obtain ⟨f, hf, rfl⟩ := h
      obtain ⟨-, hcreate, hadmin⟩ := emailFlags_ok hf
      obtain ⟨htcreate, htadmin⟩ := tokenFlags_eq a u.login
      refine ⟨u, _, hu, hkeyed.userByIdentity hu, rfl, ?_⟩
      simp [Authenticator.covers, EmailFlags.or, hcreate, hadmin, htcreate, htadmin]

omit [CharTables] in
theorem ne_zero_of_lt {t e : UInt64} (h : t < e) : e ≠ 0 := by
  rintro rfl
  exact absurd (UInt64.lt_iff_toNat_lt.mp h) (by simp)

/-- Every token of a chain is an issued token of the account the chain began with; one that is
not the first was reached through a first token that was alive. -/
theorem Chain.issued (hkeys : ∀ st ∈ a.tokens, ¬ a.signed st.token)
    (hkeyed : s.Keyed) (hs : authenticate a s now r = .ok subject) (h : Chain a s now r tok) :
    r.sameOrigin ∧ ∃ id t, subject.userId = some id ∧ a.accessToken id t = some tok ∧
      (t = now ∨ a.expiry now ≠ 0) := by
  induction h with
  | first h =>
    obtain ⟨horigin, subject', id, hs', hid, htoken⟩ := mintToken_ok h
    have hsame : subject' = subject := Except.ok.inj (hs'.symm.trans hs)
    exact ⟨horigin, id, now, hsame ▸ hid, htoken, Or.inl rfl⟩
  | next hchain hpresented h ih =>
    obtain ⟨horigin, id, t, hid, htoken, halive⟩ := ih
    obtain ⟨-, subject', id', hs', hid', htoken'⟩ := mintToken_ok h
    obtain ⟨hexp, u, f, hu, -, rfl⟩ := (authenticate_issued hkeys htoken hpresented).mp hs'
    have hsame : id' = id := by
      have huser : some u.userId = some id' := hid'
      rw [← Option.some.inj huser, hkeyed id u hu]
    subst hsame
    refine ⟨horigin, _, _, hid, htoken', Or.inr ?_⟩
    rcases halive with rfl | hne
    · exact ne_zero_of_lt hexp
    · exact hne

/-- The tokens minted with a credential have no more than it exactly when it covers its
account. -/
theorem mint_bounded_iff (a : Authenticator) (log : List LogEntry) (now : UInt64) (r : Request)
    (hkeys : ∀ st ∈ a.tokens, ¬ a.signed st.token) {subject : Subject}
    (hs : authenticate a (AccountsState.empty.foldEntries 0 log) now r = .ok subject) :
    Bounded a (AccountsState.empty.foldEntries 0 log) now r subject ↔
      a.Covered (AccountsState.empty.foldEntries 0 log) now r := by
  have hkeyed := AccountsState.keyed_fold log
  generalize AccountsState.empty.foldEntries 0 log = s at hs hkeyed ⊢
  obtain ⟨c, hc, hresolve⟩ := Checks.bind_eq_ok.mp hs
  constructor
  · intro hbounded henabled horigin hexp c' hc' u hu hallowed
    cases hc.symm.trans hc'
    rcases resolve_flags hkeyed hresolve with ⟨rfl, -⟩ | ⟨rfl, -⟩ |
      ⟨u', g, hholder, hu', rfl, hcovers⟩
    · trivial
    · trivial
    · obtain rfl : u' = u := Option.some.inj (hholder.symm.trans hu)
      obtain ⟨f, hf⟩ := accountFlags_exists hallowed
      obtain ⟨-, hcreate, hadmin⟩ := accountFlags_ok hf
      obtain ⟨m, hm, htoken⟩ := mintToken_issued henabled horigin hs rfl
      have hzero : (0 : UInt64) < a.expiry now := UInt64.pos_iff_ne_zero.mpr hexp
      have hwithin := hbounded m.token (.first hm) 0 ⟨some (.bearer m.token), none, none, none, ""⟩
        _ rfl ((authenticate_issued hkeys htoken rfl).mpr ⟨hzero, u', f, hu', hf, rfl⟩)
      exact hcovers.mpr ⟨fun h => hwithin.2.1 (hcreate.mpr h), fun h => hwithin.2.2 (hadmin.mpr h)⟩
  · intro hcovered tok hchain t r' subject' hpresented hs'
    obtain ⟨horigin, id, t₀, hid, htoken, halive⟩ := hchain.issued hkeys hkeyed hs
    obtain ⟨hlt, u, f, hu, hf, rfl⟩ := (authenticate_issued hkeys htoken hpresented).mp hs'
    obtain ⟨hallowed, hcreate, hadmin⟩ := accountFlags_ok hf
    have huser : u.userId = id := hkeyed id u hu
    have hexp : a.expiry now ≠ 0 := by
      rcases halive with rfl | hne
      · exact ne_zero_of_lt hlt
      · exact hne
    have hsubject : (Subject.ofUser u f).userId = subject.userId := by
      rw [hid, ← huser]
      rfl
    refine ⟨hsubject, ?_⟩
    rcases resolve_flags hkeyed hresolve with ⟨rfl, rfl⟩ | ⟨rfl, hall⟩ |
      ⟨u', g, hholder, hu', rfl, hcovers⟩
    · cases hid
    · exact ⟨fun _ => hall.1, fun _ => hall.2⟩
    · have hsame : u' = u := by
        have hid' : u'.userId = id := Option.some.inj hid
        exact Option.some.inj (hu'.symm.trans (hid' ▸ hu))
      subst hsame
      obtain ⟨henabled, -⟩ := accessToken_eq htoken
      have hcover := hcovers.mp (hcovered henabled horigin hexp c hc u' hholder hallowed)
      exact ⟨fun h => hcover.1 (hcreate.mp h), fun h => hcover.2 (hadmin.mp h)⟩

end Bounded

section Example

attribute [local instance] asciiTables

/-- The HMAC of the token that `u1` is issued at `mintTime`. -/
def issuedTag : List UInt8 :=
  [14, 226, 113, 201, 166, 53, 32, 81, 255, 233, 174, 2, 63, 1, 118, 233, 198, 177, 105, 112, 193,
    63, 33, 4, 162, 66, 174, 216, 128, 164, 153, 25]

def mintTime : UInt64 := 1700000000

/-- Alice has a read-only token and a token that writes and administers. -/
def twoTokens : Authenticator where
  mode := .token
  tokens := [⟨"alice", "read-only", false, false⟩, ⟨"alice", "read-write", true, true⟩]
  issuer := ""
  allowedDomains := []
  allowedEmails := []
  trustedForwarders := []
  adminEmails := []
  adminDomains := []
  writeDomains := none
  sessionSecret := some (bytes "0123456789abcdef0123456789abcdef")
  accessTokenTtl := 7776000
  passwords := .off
  hmac := fun _ _ => issuedTag
  idToken := fun _ _ => .error .invalid

/-- The directory of a host that knows only alice. -/
def aliceOnly : AccountsState := AccountsState.empty.foldEntries 0 AccountsState.oneUser

def bearer (tok : String) : Request := ⟨some (.bearer tok), none, none, none, "http://localhost"⟩

/-- The account as a subject. -/
def alice (canCreate siteAdmin : Bool) : Subject := ⟨"alice", some "u1", "", canCreate, siteAdmin⟩

theorem mint_bounded_readWrite :
    Bounded twoTokens aliceOnly mintTime (bearer "read-write") (alice true true) := by
  refine (mint_bounded_iff twoTokens AccountsState.oneUser mintTime (bearer "read-write")
    (by decide) (by decide)).mpr fun _ _ _ c hc u _ _ => ?_
  have hcredential : twoTokens.credential mintTime (bearer "read-write") =
      .ok (.token "alice" true true) := by decide
  cases hcredential.symm.trans hc
  exact ⟨fun _ => rfl, fun _ => rfl⟩

/-- The read-only token mints one that writes and administers. -/
theorem mint_amplifies :
    authenticate twoTokens aliceOnly mintTime (bearer "read-only") = .ok (alice false false) ∧
      ¬ Bounded twoTokens aliceOnly mintTime (bearer "read-only") (alice false false) := by
  have hmint : (mintToken twoTokens aliceOnly mintTime (bearer "read-only")).toOption.map
      (fun m => authenticate twoTokens aliceOnly mintTime (bearer m.token)) =
        some (.ok (alice true true)) := by
    decide +kernel
  obtain ⟨m, hm, hauth⟩ := Option.map_eq_some_iff.mp hmint
  refine ⟨by decide, fun hbounded => ?_⟩
  have hwithin := hbounded m.token (.first (Checks.toOption_eq_some.mp hm)) mintTime (bearer m.token)
    (alice true true) rfl hauth
  exact absurd (hwithin.2.1 rfl) (by decide)

end Example

end Auth

end Walgit
