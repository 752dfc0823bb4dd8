import Walgit.Base64
import Walgit.Handlers

/-!
# Credentials and the tokens a host signs

What a request proves about who sent it, how that becomes a subject with its host flags, and
how `POST /_auth/tokens` turns a subject into an access token. HMAC-SHA256 and the check of an
ID token's signature are parameters.
-/
namespace Walgit

open Text

namespace AccountsState

def userByLogin (s : AccountsState) (login : String) : Option User :=
  match s.namespaceOf login with
  | .user u => some u
  | _ => none

def userByIdentity (s : AccountsState) (issuer subject : String) : Option User :=
  (s.byIdentity.find? (toLex (issuer, subject))).bind s.users.find?

end AccountsState

namespace Auth

inductive AuthMode where
  | none
  | token
  | oidc
  deriving DecidableEq, Repr

/-- Who creates password accounts; `anyone` is `open` in the configuration. -/
inductive PasswordAccounts where
  | off
  | admin
  | anyone
  deriving DecidableEq, Repr

structure StaticToken where
  user : String
  token : String
  write : Bool
  admin : Bool
  deriving DecidableEq, Repr

inductive AuthError where
  | invalid
  | forbidden
  | noAccount (message : String)
  deriving DecidableEq, Repr

structure Identity where
  issuer : String
  subject : String
  email : String
  deriving DecidableEq, Repr

/-- The claims of an ID token that passed the checks of its issuer's keys. -/
structure IdClaims where
  sub : String
  email : String
  deriving DecidableEq, Repr

inductive Credential where
  | anonymous
  /-- `mode = none`: the one implicit local user. -/
  | localUser
  /-- A static token; its flags are its own. -/
  | token (user : String) (write admin : Bool)
  | account (userId : String)
  | identity (id : Identity)
  deriving DecidableEq, Repr

/-- Host flags an email or a token table earns. -/
structure EmailFlags where
  canCreate : Bool
  siteAdmin : Bool
  deriving DecidableEq, Repr

def EmailFlags.or (f g : EmailFlags) : EmailFlags :=
  ⟨f.canCreate || g.canCreate, f.siteAdmin || g.siteAdmin⟩

/-- The configured authenticator. `hmac` is HMAC-SHA256 of a key and a message; `idToken` is
what an ID token says at a time, if its signature, issuer, audience, expiry and verified email
are in order. -/
structure Authenticator where
  mode : AuthMode
  tokens : List StaticToken
  issuer : String
  allowedDomains : List String
  allowedEmails : List String
  trustedForwarders : List String
  adminEmails : List String
  adminDomains : List String
  writeDomains : Option (List String)
  sessionSecret : Option (List UInt8)
  accessTokenTtl : UInt64
  passwords : PasswordAccounts
  hmac : List UInt8 → List UInt8 → List UInt8
  idToken : UInt64 → String → Except AuthError IdClaims

/-- The client's `Authorization` header, if it parses. -/
inductive Authorization where
  | bearer (token : String)
  | basic (user password : String)
  deriving DecidableEq, Repr

/-- What a request carries: its `Authorization`, session cookie, `X-Walgit-Principal`,
`Sec-Fetch-Site` and the base URL it was sent to. -/
structure Request where
  authorization : Option Authorization
  session : Option String
  principal : Option String
  fetchSite : Option String
  baseUrl : String
  deriving DecidableEq, Repr

def accessTokenPrefix : String := "wgt_"

def localUserId : String := "local"

def eqIgnoreAsciiCase (a b : String) : Bool := toAsciiLowercase a = toAsciiLowercase b

/-- `split_once` at the first separator. -/
def splitOnce (sep : Char) (text : List Char) : Option (List Char × List Char) :=
  if sep ∈ text then some (text.takeWhile (· ≠ sep), (text.dropWhile (· ≠ sep)).tail) else none

def stripPrefix (p s : String) : Option String :=
  if startsWith p s then some (String.ofList (s.toList.drop p.toList.length)) else none

def bytes (s : String) : List UInt8 := s.toUTF8.data.toList

def fromBytes (bs : List UInt8) : Option String := String.fromUTF8? ⟨bs.toArray⟩

namespace Authenticator

variable (a : Authenticator)

def issuedTokensEnabled : Bool := a.mode ≠ .none && a.sessionSecret.isSome

/-- `base64url(payload).base64url(mac)`. -/
def sign (payload : String) : Option String :=
  a.sessionSecret.map fun secret => String.ofList (Base64.encode (bytes payload) ++
    '.' :: Base64.encode (a.hmac secret (bytes payload)))

def verifySigned (value : String) : Option (List UInt8) := do
  let secret ← a.sessionSecret
  let (p, t) ← splitOnce '.' value.toList
  let payload ← Base64.decode p
  let tag ← Base64.decode t
  if a.hmac secret payload = tag then some payload else none

/-- Seconds, as all times here; the sum wraps. -/
def expiry (now : UInt64) : UInt64 := now + a.accessTokenTtl

/-- `kind\nexp\niat\nvalue`, signed. -/
def mint (value : String) (now : UInt64) (kind : String) : Option String :=
  a.sign (kind ++ "\n" ++ toString (a.expiry now).toNat ++ "\n" ++ toString now.toNat ++ "\n" ++
    value)

/-- Expiry, time of issue and value of a signed value of its kind that has not expired. -/
def claimsOf (now : UInt64) (value kind : String) : Option (ℕ × ℕ × String) := do
  let payload ← fromBytes (← a.verifySigned value)
  let (k, rest) ← splitOnce '\n' payload.toList
  if String.ofList k ≠ kind then none
  let (exp, rest) ← splitOnce '\n' rest
  let exp ← parseU64 exp
  let (iat, value) ← splitOnce '\n' rest
  let iat ← parseU64 iat
  if exp ≤ now.toNat then none else some (exp, iat, String.ofList value)

def accessToken (userId : String) (now : UInt64) : Option String :=
  if a.issuedTokensEnabled then (a.mint userId now "token").map (accessTokenPrefix ++ ·) else none

def accessTokenClaims (now : UInt64) (token : String) : Option (ℕ × String) := do
  let raw ← stripPrefix accessTokenPrefix token
  let (exp, _, userId) ← a.claimsOf now raw "token"
  some (exp, userId)

/-- A static token, or an access token the host issued. -/
def opaqueToken (now : UInt64) (tok : String) : Option (Except AuthError Credential) :=
  match a.tokens.find? fun t => t.token = tok with
  | some t => some (.ok (.token t.user t.write t.admin))
  | none =>
    if startsWith accessTokenPrefix tok then
      some (match a.accessTokenClaims now tok with
        | some (_, userId) => .ok (.account userId)
        | none => .error .invalid)
    else none

/-- The part of an email after its last `@`. -/
def domainOf (email : String) : Option String :=
  if '@' ∈ email.toList then
    some (String.ofList (email.toList.reverse.takeWhile (· ≠ '@')).reverse)
  else none

/-- The policy for a verified email. -/
def emailFlags (email : String) : Except AuthError EmailFlags :=
  match domainOf email with
  | none => .error .invalid
  | some domain =>
    let email := toAsciiLowercase email
    let domain := toAsciiLowercase domain
    if domain ∈ a.allowedDomains ∨ email ∈ a.allowedEmails then
      .ok ⟨a.writeDomains.all (domain ∈ ·), email ∈ a.adminEmails || domain ∈ a.adminDomains⟩
    else .error .forbidden

/-- The flags of every static token of a login. -/
def tokenFlags (login : String) : EmailFlags :=
  (a.tokens.filter fun t => eqIgnoreAsciiCase t.user login).foldl
    (fun f t => f.or ⟨t.write, t.admin⟩) ⟨false, false⟩

def verifyIdToken (now : UInt64) (tok : String) : Except AuthError Identity := do
  let claims ← a.idToken now tok
  let _ ← a.emailFlags claims.email
  if claims.sub = "" then throw .invalid
  pure ⟨a.issuer, claims.sub, claims.email⟩

/-- `ttl` and kind of the session cookie differ from those of a token; it signs the account. -/
def sessionCredential (now : UInt64) (r : Request) : Credential :=
  match r.session.bind (a.claimsOf now · "session") with
  | some (_, _, userId) => .account userId
  | none => .anonymous

def authenticateInner (now : UInt64) (r : Request) : Except AuthError Credential :=
  match a.mode with
  | .none => .ok .localUser
  | .token =>
    match r.authorization with
    | some (.bearer tok) | some (.basic _ tok) => (a.opaqueToken now tok).getD (.error .invalid)
    | none => .ok (a.sessionCredential now r)
  | .oidc =>
    match r.authorization with
    | some (.bearer tok) =>
      (a.opaqueToken now tok).getD ((a.verifyIdToken now tok).map .identity)
    | some (.basic _ tok) => (a.opaqueToken now tok).getD (.error .invalid)
    | none => .ok (a.sessionCredential now r)

/-- A writing static token of a trusted forwarder speaks for the account it names. -/
def credential (now : UInt64) (r : Request) : Except AuthError Credential := do
  let caller ← a.authenticateInner now r
  match r.principal, caller with
  | some forwarded, .token user true _ =>
    if a.trustedForwarders.any (eqIgnoreAsciiCase · user) then pure (.account forwarded)
    else pure caller
  | _, _ => pure caller

/-- An account's host flags: its static tokens, the password setting and its email's policy. -/
def accountFlags (u : User) : Except AuthError EmailFlags :=
  let tokens := a.tokenFlags u.login
  let flags : EmailFlags := ⟨tokens.canCreate || decide (a.passwords ≠ .off), tokens.siteAdmin⟩
  if a.mode = .oidc ∧ u.email ≠ "" then (a.emailFlags u.email).map flags.or else .ok flags

end Authenticator

def Subject.ofUser (u : User) (f : EmailFlags) : Subject :=
  ⟨u.login, some u.userId, u.email, f.canCreate, f.siteAdmin⟩

def Subject.nobody : Subject := ⟨"anonymous", none, "", false, false⟩

section Authenticate

variable [CharTables]

/-- A credential resolved to its account. -/
def resolve (a : Authenticator) (s : AccountsState) (baseUrl : String) :
    Credential → Except AuthError Subject
  | .anonymous => .ok Subject.nobody
  | .localUser => .ok ⟨"anon", some localUserId, "", true, true⟩
  | .token user write admin =>
    match s.userByLogin user with
    | none => .error (.noAccount ("this token acts as " ++ debug user ++
        ", which has no account: create it with `walgit user create " ++ user ++ "`"))
    | some u => .ok (Subject.ofUser u ⟨write, admin⟩)
  | .account userId =>
    match s.users.find? userId with
    | none => .error .invalid
    | some u => (a.accountFlags u).map (Subject.ofUser u)
  | .identity id =>
    match s.userByIdentity id.issuer id.subject with
    | none => .error (.noAccount (id.email ++ " has no walgit account yet: sign in once in a " ++
        "browser at " ++ baseUrl ++ "/_auth/login to choose a username"))
    | some u => (a.emailFlags id.email).map fun f => Subject.ofUser u (f.or (a.tokenFlags u.login))

/-- The subject of a request. -/
def authenticate (a : Authenticator) (s : AccountsState) (now : UInt64) (r : Request) :
    Except AuthError Subject := do
  resolve a s r.baseUrl (← a.credential now r)

/-- The body of the answer. -/
structure Minted where
  token : String
  login : String
  canCreate : Bool
  expiresAt : ℕ
  deriving DecidableEq, Repr

inductive MintError where
  | notImplemented (message : String)
  | forbidden
  | unauthorized
  | auth (error : AuthError)
  deriving DecidableEq, Repr

/-- `POST /_auth/tokens`. -/
def mintToken (a : Authenticator) (s : AccountsState) (now : UInt64) (r : Request) :
    Except MintError Minted := do
  if !a.issuedTokensEnabled then
    throw (.notImplemented "issued tokens are off (server.auth.session_secret unset)")
  if r.fetchSite.any fun v => v ≠ "same-origin" && v ≠ "none" then throw .forbidden
  match authenticate a s now r with
  | .error e => throw (.auth e)
  | .ok subject =>
    if subject.isAnonymous then throw .unauthorized
    match subject.userId.bind (a.accessToken · now) with
    | none => throw (.notImplemented "session secret missing")
    | some token =>
      let exp := (a.accessTokenClaims now token).elim 0 Prod.fst
      pure ⟨token, subject.name, subject.canCreate, exp⟩

end Authenticate

section Texts

theorem fromBytes_bytes (s : String) : fromBytes (bytes s) = some s := by
  have hvalid : s.toByteArray.IsValidUTF8 := s.isValidUTF8
  simp only [fromBytes, bytes, String.toUTF8_eq_toByteArray, Array.toArray_toList]
  exact dif_pos hvalid

theorem stripPrefix_append (p v : String) : stripPrefix p (p ++ v) = some v := by
  have hstarts : startsWith p (p ++ v) := by simp [startsWith]
  rw [stripPrefix, if_pos hstarts]
  simp

theorem splitOnce_append {sep : Char} {p rest : List Char} (h : sep ∉ p) :
    splitOnce sep (p ++ sep :: rest) = some (p, rest) := by
  have hne : ∀ c ∈ p, decide (c ≠ sep) = true := by
    intro c hc
    simp only [ne_eq, decide_not, Bool.not_eq_true', decide_eq_false_iff_not]
    rintro rfl
    exact h hc
  rw [splitOnce, if_pos (by simp), List.takeWhile_append_of_pos hne,
    List.dropWhile_append_of_pos hne]
  simp

theorem parseU64_digits {n : ℕ} (h : n < 2 ^ 64) : parseU64 (Nat.toDigits 10 n) = some n := by
  have hdigit : ∀ c ∈ Nat.toDigits 10 n, c.isDigit := fun c hc =>
    Nat.isDigit_of_mem_toDigits (by decide) (by decide) hc
  have hplain : ∀ ds, Nat.toDigits 10 n ≠ '+' :: ds := by
    intro ds heq
    have := hdigit '+' (by simp [heq])
    revert this
    decide
  have hvalue := Nat.ofDigitChars_ten_toDigits (n := n)
  rw [Nat.ofDigitChars_eq_foldl] at hvalue
  unfold parseU64
  split
  · rename_i ds heq
    exact absurd heq (hplain ds)
  · have hsome : (Nat.toDigits 10 n).isEmpty = false := by simp [Nat.toDigits_ne_nil]
    have hall : (Nat.toDigits 10 n).all Char.isDigit = true := List.all_eq_true.mpr hdigit
    simp only [hvalue, hsome, hall, h, decide_true, Bool.not_false, Bool.and_self, if_true]

theorem newline_digits (n : ℕ) : '\n' ∉ Nat.toDigits 10 n := by
  intro h
  have := Nat.isDigit_of_mem_toDigits (by decide) (by decide) h
  revert this
  decide

theorem dot_encode (bs : List UInt8) : '.' ∉ Base64.encode bs := fun h => by
  have := Base64.encode_mem '.' h
  revert this
  decide

end Texts

section Signed

variable {a : Authenticator} {value kind payload tok userId : String} {now t : UInt64}

/-- A signed value opens to what was signed. -/
theorem Authenticator.verifySigned_sign {v : String} (h : a.sign payload = some v) :
    a.verifySigned v = some (bytes payload) := by
  obtain ⟨secret, hsecret, rfl⟩ := Option.map_eq_some_iff.mp h
  simp only [Authenticator.verifySigned, hsecret, Option.bind_eq_bind, Option.bind_some,
    String.toList_ofList, splitOnce_append (dot_encode _), Base64.decode_encode, if_true]

/-- The claims of a signed value are those it was made of, until it expires. -/
theorem Authenticator.claimsOf_mint {v : String} (hkind : '\n' ∉ kind.toList)
    (h : a.mint value now kind = some v) :
    a.claimsOf t v kind =
      if a.expiry now ≤ t then none else some ((a.expiry now).toNat, now.toNat, value) := by
  have hpayload : (kind ++ "\n" ++ toString (a.expiry now).toNat ++ "\n" ++ toString now.toNat ++
      "\n" ++ value).toList = kind.toList ++ '\n' :: (Nat.toDigits 10 (a.expiry now).toNat ++
        '\n' :: (Nat.toDigits 10 now.toNat ++ '\n' :: value.toList)) := by
    simp
  have hverify := Authenticator.verifySigned_sign h
  simp only [Authenticator.claimsOf, hverify, Option.bind_eq_bind, Option.bind_some,
    fromBytes_bytes, hpayload, splitOnce_append hkind, splitOnce_append (newline_digits _),
    String.ofList_toList, parseU64_digits (UInt64.toNat_lt _), ne_eq, not_true, if_false,
    UInt64.le_iff_toNat_le]

theorem accessToken_eq (h : a.accessToken userId now = some tok) :
    a.issuedTokensEnabled ∧
      ∃ v, a.mint userId now "token" = some v ∧ tok = accessTokenPrefix ++ v := by
  unfold Authenticator.accessToken at h
  split_ifs at h with henabled
  obtain ⟨v, hv, rfl⟩ := Option.map_eq_some_iff.mp h
  exact ⟨henabled, v, hv, rfl⟩

end Signed

end Auth

end Walgit
