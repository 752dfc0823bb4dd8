import Walgit.Credentials
import Walgit.Utf8

/-!
# Signed values and the purposes they serve

Session cookies, access tokens and pending sign-ups carry their kind in the signed text; the
OAuth state and the hop ticket of a sign-in carry only an expiry. Each value is shown to the
consumer of every other purpose.
-/
namespace Walgit

open Text

namespace Auth

/-- `splitn`: at most `n` parts, the last with whatever is left. -/
def splitn (sep : Char) : ℕ → List Char → List (List Char)
  | 0, _ => []
  | 1, text => [text]
  | n + 2, text =>
    match splitOnce sep text with
    | none => [text]
    | some (part, rest) => part :: splitn sep (n + 1) rest

/-- Where a sign-in goes on to: a path on this server, or `/`. -/
def safeNext : Option String → String
  | some n => if startsWith "/" n && !startsWith "//" n then n else "/"
  | none => "/"

def stateTtlSecs : UInt64 := 600

def hopTtlSecs : UInt64 := 60

def pendingTtl : UInt64 := 900

/-- What a browser gets back: where to go, and the session value of the cookie set. -/
structure SignedIn where
  location : String
  cookie : Option String
  deriving DecidableEq, Repr

namespace Authenticator

variable (a : Authenticator) {ι : Type}

/-- `mint` for a value that is valid for `ttl`. -/
def mintFor (ttl : UInt64) (value : String) (now : UInt64) (kind : String) : Option String :=
  a.sign (kind ++ "\n" ++ toString (now + ttl).toNat ++ "\n" ++ toString now.toNat ++ "\n" ++ value)

def sessionCookieValue (sessionTtl : UInt64) (userId : String) (now : UInt64) : Option String :=
  a.mintFor sessionTtl userId now "session"

def pendingValue (toJson : ι → Option String) (identity : ι) (now : UInt64) : Option String := do
  a.mintFor pendingTtl (← toJson identity) now "pending"

def pendingIdentity (fromJson : String → Option ι) (now : UInt64) (value : String) : Option ι := do
  let (_, _, json) ← a.claimsOf now value "pending"
  fromJson json

/-- The state `oidc_redirect` sends to the identity provider. -/
def oidcState (nonce : UInt64) (next : String) (now : UInt64) : Option String :=
  a.sign (toString (now + stateTtlSecs).toNat ++ "\n" ++
    String.ofList (Nat.toDigits 16 nonce.toNat) ++ "\n" ++ next)

/-- The ticket that carries a session value to the other host name. -/
def hopTicket (value next : String) (now : UInt64) : Option String :=
  a.sign (toString (now + hopTtlSecs).toNat ++ "\n" ++ value ++ "\n" ++ next)

/-- The expiry in a first part; one that is no number has passed. -/
def expiryOf (parts : List (List Char)) : ℕ := (parts[0]?.bind parseU64).getD 0

/-- `callback` up to its use of the code: where to go once signed in. -/
def callback (now : UInt64) (state : String) : Except String String := do
  match a.verifySigned state with
  | none => throw "invalid state"
  | some payload =>
    let parts := splitn '\n' 3 (Utf8.decode payload)
    let next := safeNext (parts[2]?.map String.ofList)
    if expiryOf parts < now.toNat then throw "sign-in expired; try again"
    pure next

/-- The second stop of a hop: without a ticket that holds, no cookie is set. -/
def claimed (now : UInt64) (ticket next : Option String) : SignedIn :=
  let next := safeNext next
  match ticket.bind a.verifySigned with
  | none => ⟨next, none⟩
  | some payload =>
    let parts := splitn '\n' 3 (Utf8.decode payload)
    let value := parts[1]?.getD []
    if expiryOf parts < now.toNat || value.isEmpty then ⟨next, none⟩
    else ⟨next, some (String.ofList value)⟩

end Authenticator

inductive Purpose where
  | session
  | token
  | pending
  | state
  | hop
  deriving DecidableEq, Repr

/-- The purposes whose kind is part of the signed text. -/
def Purpose.tagged : Purpose → Bool
  | .session | .token | .pending => true
  | .state | .hop => false

/-- What the server hands out for a purpose at a time, for any user, identity and `next`. -/
inductive Produced {ι : Type} (a : Authenticator) (sessionTtl : UInt64)
    (toJson : ι → Option String) : Purpose → UInt64 → String → Prop
  | session {userId made v} (h : a.sessionCookieValue sessionTtl userId made = some v) :
    Produced a sessionTtl toJson .session made v
  | token {userId made v} (h : a.accessToken userId made = some v) :
    Produced a sessionTtl toJson .token made v
  | pending {identity made v} (h : a.pendingValue toJson identity made = some v) :
    Produced a sessionTtl toJson .pending made v
  | state {nonce next made v} (h : a.oidcState nonce next made = some v) :
    Produced a sessionTtl toJson .state made v
  | hop {userId next read cookie made v}
    (hcookie : a.sessionCookieValue sessionTtl userId read = some cookie)
    (h : a.hopTicket cookie next made = some v) : Produced a sessionTtl toJson .hop made v

namespace Authenticator

variable (a : Authenticator) {ι : Type}

/-- Whether the consumer of a purpose takes a value. -/
def accepts (fromJson : String → Option ι) (now : UInt64) (v : String) : Purpose → Bool
  | .session => (a.claimsOf now v "session").isSome
  | .token => (a.accessTokenClaims now v).isSome
  | .pending => (a.pendingIdentity fromJson now v).isSome
  | .state => (a.callback now v).toBool
  | .hop => (a.claimed now (some v) none).cookie.isSome

/-- The values without a kind that stand in for each other until they expire; and with a clock
at the epoch, where no expiry has passed, any value that verifies. -/
def Confused (p q : Purpose) (made now : UInt64) (v : String) : Prop :=
  (p = .state ∧ q = .hop ∧ now ≤ made + stateTtlSecs) ∨
  (p = .hop ∧ q = .state ∧ now ≤ made + hopTtlSecs) ∨
  (p.tagged = true ∧ q.tagged = false ∧ now = 0 ∧ (a.verifySigned v).isSome)

end Authenticator

section Reading

theorem bytes_eq_encode (s : String) : bytes s = Utf8.encode s.toList := by
  rw [bytes, String.toUTF8_eq_toByteArray, ← String.utf8Encode_toList]
  simp [List.utf8Encode, Utf8.encode]

theorem newline_hex (n : ℕ) : '\n' ∉ Nat.toDigits 16 n := by
  have hdigit : ∀ k : Fin 16, Nat.digitChar k ≠ '\n' := by decide
  induction n using Nat.strong_induction_on with
  | _ n ih =>
    rw [Nat.toDigits_eq_if (by decide)]
    split
    · rename_i hlt
      rw [List.mem_singleton]
      exact (hdigit ⟨n, hlt⟩).symm
    · rename_i hle
      rw [List.mem_append, List.mem_singleton, not_or]
      exact ⟨ih _ (by omega), (hdigit ⟨n % 16, Nat.mod_lt _ (by decide)⟩).symm⟩

theorem splitn_three {first second rest : List Char} (hfirst : '\n' ∉ first)
    (hsecond : '\n' ∉ second) :
    splitn '\n' 3 (first ++ '\n' :: (second ++ '\n' :: rest)) = [first, second, rest] := by
  simp only [splitn, splitOnce_append hfirst, splitOnce_append hsecond]

theorem parseU64_cons_eq_none {c : Char} {text : List Char} (hplus : c ≠ '+')
    (hdigit : c.isDigit = false) : parseU64 (c :: text) = none := by
  unfold parseU64
  split
  · rename_i digits heq
    exact absurd (List.cons.inj heq).1 hplus
  · simp [hdigit]

theorem encode_head (b : UInt8) (rest : List UInt8) :
    ∃ digits, Base64.encode (b :: rest) = Base64.symbol (b.toNat / 4) :: digits := by
  match rest with
  | [] => exact ⟨_, rfl⟩
  | [c] => exact ⟨_, rfl⟩
  | c :: d :: rest => exact ⟨_, rfl⟩

theorem decode_wgt (payload : List UInt8) :
    Base64.decode ('w' :: 'g' :: 't' :: '_' :: Base64.encode payload) =
      some (0xC2 :: 0x0B :: 0x7F :: payload) := by
  have hvalues : ['w', 'g', 't', '_'].map Base64.value = [some 48, some 32, some 45, some 63] := by
    decide
  simp only [List.map_cons, List.map_nil, List.cons.injEq, and_true] at hvalues
  simp only [Base64.decode, hvalues, Base64.decode_encode, Option.bind_eq_bind, Option.bind_some]
  rfl

/-- The bytes that the characters of `wgt_` stand for begin no character. -/
theorem not_starts_overlong (rest : List UInt8) : ¬ Utf8.Starts (0xC2 :: 0x0B :: rest) := by
  rintro ⟨c, tail, h⟩
  by_cases hsmall : c.toNat < 128
  · rw [Utf8.encodeChar_ascii hsmall, List.singleton_append, List.cons.injEq] at h
    have hnat := congrArg UInt8.toNat h.1
    rw [UInt8.toNat_ofNat', Nat.mod_eq_of_lt (by omega)] at hnat
    change 194 = c.toNat at hnat
    omega
  · have hbytes := Utf8.le_of_mem_encodeChar (Nat.not_lt.mp hsmall)
    have hlarge : 1 < c.utf8Size := by
      rw [Nat.lt_iff_le_and_ne, ne_eq, eq_comm, Char.utf8Size_eq_one_iff]
      exact ⟨c.utf8Size_pos, fun hle => hsmall (Nat.lt_succ_of_le hle)⟩
    rw [← String.length_utf8EncodeChar] at hlarge
    match hchar : String.utf8EncodeChar c, hlarge with
    | x :: y :: more, _ =>
      rw [hchar] at h hbytes
      simp only [List.cons_append, List.cons.injEq] at h
      have := hbytes y (by simp)
      rw [← h.2.1] at this
      exact absurd this (by decide)

theorem fromBytes_prefix (rest : List UInt8) : fromBytes (0xC2 :: 0x0B :: rest) = none := by
  refine dif_neg fun ⟨text, htext⟩ => ?_
  have hbytes : 0xC2 :: 0x0B :: rest = Utf8.encode text := by
    have := congrArg (fun b : ByteArray => b.data.toList) htext
    simpa [List.utf8Encode, Utf8.encode] using this
  cases text with
  | nil => cases hbytes
  | cons c text =>
    rw [Utf8.encode_cons] at hbytes
    exact not_starts_overlong rest ⟨c, _, hbytes⟩

theorem decode_prefix (text : List Char) :
    Utf8.decode (0xC2 :: 0x0B :: 0x7F :: Utf8.encode text) =
      '\uFFFD' :: '\x0b' :: '\x7f' :: text := by
  rw [Utf8.decode_invalid (by simp) (not_starts_overlong _)]
  have hlength : Utf8.invalidLength (0xC2 :: 0x0B :: 0x7F :: Utf8.encode text) = 1 := by
    simp [Utf8.invalidLength, Utf8.secondFits]
  have hrest : (0x0B :: 0x7F :: Utf8.encode text : List UInt8) =
      Utf8.encode ('\x0b' :: '\x7f' :: text) := by
    rw [Utf8.encode_cons, Utf8.encode_cons]
    rfl
  rw [hlength, List.drop_one, List.tail_cons, hrest, Utf8.decode_encode]

end Reading

section Signing

variable {a : Authenticator} {ι : Type} {v : String} {first second rest : List Char}
  {made now : UInt64}

/-- A value signed over two whole lines and what follows them. -/
structure Opens (a : Authenticator) (v : String) (first second rest : List Char) : Prop where
  signed : a.sign (String.ofList (first ++ '\n' :: (second ++ '\n' :: rest))) = some v
  first_line : '\n' ∉ first
  second_line : '\n' ∉ second

/-- A value that verifies, as a text of two whole lines and what follows them. -/
structure Reads (a : Authenticator) (v : String) (first second rest : List Char) : Prop where
  verified : ∃ payload, a.verifySigned v = some payload ∧
    Utf8.decode payload = first ++ '\n' :: (second ++ '\n' :: rest)
  first_line : '\n' ∉ first
  second_line : '\n' ∉ second

theorem Opens.verified (h : Opens a v first second rest) :
    a.verifySigned v = some (Utf8.encode (first ++ '\n' :: (second ++ '\n' :: rest))) := by
  rw [Authenticator.verifySigned_sign h.signed, bytes_eq_encode, String.toList_ofList]

theorem Opens.reads (h : Opens a v first second rest) : Reads a v first second rest :=
  ⟨⟨_, h.verified, Utf8.decode_encode _⟩, h.first_line, h.second_line⟩

theorem Authenticator.mintFor_opens {kind value : String} {ttl : UInt64}
    (hkind : '\n' ∉ kind.toList) (h : a.mintFor ttl value made kind = some v) :
    Opens a v kind.toList (Nat.toDigits 10 (made + ttl).toNat)
      (Nat.toDigits 10 made.toNat ++ '\n' :: value.toList) := by
  refine ⟨?_, hkind, newline_digits _⟩
  rw [← h, Authenticator.mintFor]
  congr 1
  apply String.toList_inj.mp
  simp

theorem Authenticator.oidcState_opens {nonce : UInt64} {next : String}
    (h : a.oidcState nonce next made = some v) :
    Opens a v (Nat.toDigits 10 (made + stateTtlSecs).toNat) (Nat.toDigits 16 nonce.toNat)
      next.toList := by
  refine ⟨?_, newline_digits _, ?_⟩
  · rw [← h, Authenticator.oidcState]
    congr 1
    apply String.toList_inj.mp
    simp
  · exact newline_hex _

theorem Authenticator.hopTicket_opens {value next : String} (hvalue : '\n' ∉ value.toList)
    (h : a.hopTicket value next made = some v) :
    Opens a v (Nat.toDigits 10 (made + hopTtlSecs).toNat) value.toList next.toList := by
  refine ⟨?_, newline_digits _, hvalue⟩
  rw [← h, Authenticator.hopTicket]
  congr 1
  apply String.toList_inj.mp
  simp

/-- What a host signs is text of the alphabet of Base64 around a dot. -/
theorem Authenticator.newline_sign {payload : String} (h : a.sign payload = some v) :
    '\n' ∉ v.toList := by
  obtain ⟨secret, -, rfl⟩ := Option.map_eq_some_iff.mp h
  rw [String.toList_ofList, List.mem_append, List.mem_cons]
  rintro (hmem | heq | hmem)
  · exact absurd (Base64.encode_mem _ hmem) (by decide)
  · exact absurd heq (by decide)
  · exact absurd (Base64.encode_mem _ hmem) (by decide)

theorem Authenticator.sign_ne_nil {payload : String} (h : a.sign payload = some v) :
    v.toList ≠ [] := by
  obtain ⟨secret, -, rfl⟩ := Option.map_eq_some_iff.mp h
  simp

/-- No value signed over a text of ASCII begins as an access token does. -/
theorem Opens.stripPrefix {c : Char} (h : Opens a v (c :: first) second rest)
    (hc : c.toNat < 128) : stripPrefix accessTokenPrefix v = none := by
  obtain ⟨secret, -, rfl⟩ := Option.map_eq_some_iff.mp h.signed
  rw [bytes_eq_encode, String.toList_ofList, List.cons_append, Utf8.encode_cons,
    Utf8.encodeChar_ascii hc, List.singleton_append]
  obtain ⟨digits, hdigits⟩ := encode_head (UInt8.ofNat c.toNat)
    (Utf8.encode (first ++ '\n' :: (second ++ '\n' :: rest)))
  have hsymbol : ∀ k : Fin 32, Base64.symbol k.val ≠ 'w' := by decide
  have hbyte : c.toNat % 256 / 4 < 32 := by omega
  have hne : 'w' ≠ Base64.symbol (c.toNat % 256 / 4) := (hsymbol ⟨_, hbyte⟩).symm
  simp [Auth.stripPrefix, startsWith, accessTokenPrefix, hdigits, hne]

/-- The callback looks at the first line only. -/
theorem Reads.callback (h : Reads a v first second rest) :
    (a.callback now v).toBool = decide (now.toNat ≤ (parseU64 first).getD 0) := by
  obtain ⟨⟨payload, hverified, htext⟩, hfirst, hsecond⟩ := h
  have hexpiry : Authenticator.expiryOf [first, second, rest] = (parseU64 first).getD 0 := rfl
  simp only [Authenticator.callback, hverified, htext, splitn_three hfirst hsecond, hexpiry]
  by_cases hpast : (parseU64 first).getD 0 < now.toNat
  · rw [if_pos hpast, decide_eq_false (Nat.not_le.mpr hpast)]
    rfl
  · rw [if_neg hpast, decide_eq_true (Nat.not_lt.mp hpast)]
    rfl

/-- The second stop takes the second line, whatever it is. -/
theorem Reads.claimed (h : Reads a v first second rest) (hne : second ≠ []) :
    (a.claimed now (some v) none).cookie.isSome =
      decide (now.toNat ≤ (parseU64 first).getD 0) := by
  obtain ⟨⟨payload, hverified, htext⟩, hfirst, hsecond⟩ := h
  have hexpiry : Authenticator.expiryOf [first, second, rest] = (parseU64 first).getD 0 := rfl
  have hvalue : ([first, second, rest][1]?.getD []).isEmpty = false := by
    simpa using hne
  simp only [Authenticator.claimed, Option.bind_some, hverified, htext,
    splitn_three hfirst hsecond, hexpiry, hvalue, Bool.or_false]
  by_cases hpast : (parseU64 first).getD 0 < now.toNat
  · simp [hpast, Nat.not_le.mpr hpast]
  · simp [hpast, Nat.not_lt.mp hpast]

/-- A value of another kind has no claims. -/
theorem Opens.claimsOf (h : Opens a v first second rest) {kind : String}
    (hkind : String.ofList first ≠ kind) : a.claimsOf now v kind = none := by
  have hverified := Authenticator.verifySigned_sign h.signed
  simp only [Authenticator.claimsOf, hverified, Option.bind_eq_bind, Option.bind_some,
    fromBytes_bytes, String.toList_ofList, splitOnce_append h.first_line, ne_eq, hkind,
    not_false_iff, if_true]
  rfl

/-- Behind its prefix, a value verifies only if the host signs three more bytes alike. -/
theorem Opens.verified_prefix (h : Opens a v first second rest) {payload : List UInt8}
    (hverified : a.verifySigned (accessTokenPrefix ++ v) = some payload) :
    payload = 0xC2 :: 0x0B :: 0x7F ::
      Utf8.encode (first ++ '\n' :: (second ++ '\n' :: rest)) := by
  obtain ⟨secret, hsecret, rfl⟩ := Option.map_eq_some_iff.mp h.signed
  generalize htext : first ++ '\n' :: (second ++ '\n' :: rest) = text at *
  rw [bytes_eq_encode, String.toList_ofList] at hverified
  have hdots : '.' ∉ 'w' :: 'g' :: 't' :: '_' :: Base64.encode (Utf8.encode text) := by
    simp [dot_encode]
  have hparts : (accessTokenPrefix ++ String.ofList (Base64.encode (Utf8.encode text) ++
      '.' :: Base64.encode (a.hmac secret (Utf8.encode text)))).toList =
      ('w' :: 'g' :: 't' :: '_' :: Base64.encode (Utf8.encode text)) ++
        '.' :: Base64.encode (a.hmac secret (Utf8.encode text)) := by
    simp [accessTokenPrefix]
  simp only [Authenticator.verifySigned, hsecret, Option.bind_eq_bind, Option.bind_some, hparts,
    splitOnce_append hdots, decode_wgt, Base64.decode_encode] at hverified
  split at hverified
  · exact (Option.some.inj hverified).symm
  · cases hverified

theorem Opens.reads_prefix (h : Opens a v first second rest)
    (hverified : (a.verifySigned (accessTokenPrefix ++ v)).isSome) :
    Reads a (accessTokenPrefix ++ v) ('\uFFFD' :: '\x0b' :: '\x7f' :: first) second rest := by
  obtain ⟨payload, hpayload⟩ := Option.isSome_iff_exists.mp hverified
  refine ⟨⟨payload, hpayload, ?_⟩, ?_, h.second_line⟩
  · rw [h.verified_prefix hpayload, decode_prefix]
    rfl
  · simpa using h.first_line

theorem Opens.claimsOf_prefix (h : Opens a v first second rest) (kind : String) :
    a.claimsOf now (accessTokenPrefix ++ v) kind = none := by
  cases hverified : a.verifySigned (accessTokenPrefix ++ v) with
  | none => simp only [Authenticator.claimsOf, hverified]; rfl
  | some payload =>
    rw [h.verified_prefix hverified] at hverified
    simp only [Authenticator.claimsOf, hverified, Option.bind_eq_bind, Option.bind_some,
      fromBytes_prefix, Option.bind_none]

end Signing

/-- The kind in the signed text of a purpose. -/
def Purpose.kind : Purpose → String
  | .session => "session"
  | .token => "token"
  | .pending => "pending"
  | .state | .hop => ""

section Consumers

variable {a : Authenticator} {ι : Type} {v : String} {first second rest : List Char}
  {made now : UInt64} {p q : Purpose} {fromJson : String → Option ι}

theorem Opens.accepts_tagged {c : Char} (h : Opens a v (c :: first) second rest)
    (hc : c.toNat < 128) (hq : q.tagged = true) (hkind : String.ofList (c :: first) ≠ q.kind) :
    a.accepts fromJson now v q = false := by
  have hclaims : a.claimsOf now v q.kind = none := h.claimsOf hkind
  cases q with
  | session =>
    change a.claimsOf now v "session" = none at hclaims
    rw [Authenticator.accepts, hclaims, Option.isSome_none]
  | token =>
    rw [Authenticator.accepts, Authenticator.accessTokenClaims, h.stripPrefix hc]
    rfl
  | pending =>
    change a.claimsOf now v "pending" = none at hclaims
    rw [Authenticator.accepts, Authenticator.pendingIdentity, hclaims]
    rfl
  | state => cases hq
  | hop => cases hq

theorem Opens.accepts_tagged_prefix (h : Opens a v first second rest) (hq : q.tagged = true)
    (hne : q ≠ .token) : a.accepts fromJson now (accessTokenPrefix ++ v) q = false := by
  cases q with
  | session => rw [Authenticator.accepts, h.claimsOf_prefix, Option.isSome_none]
  | token => exact absurd rfl hne
  | pending =>
    rw [Authenticator.accepts, Authenticator.pendingIdentity, h.claimsOf_prefix]
    rfl
  | state => cases hq
  | hop => cases hq

/-- A consumer that looks for no kind goes by the first line and the clock. -/
theorem Reads.accepts_untagged (h : Reads a v first second rest) (hne : second ≠ [])
    (hq : q.tagged = false) :
    a.accepts fromJson now v q = decide (now.toNat ≤ (parseU64 first).getD 0) := by
  cases q with
  | session => cases hq
  | token => cases hq
  | pending => cases hq
  | state => exact h.callback
  | hop => exact h.claimed hne

theorem accepts_unverified (hv : a.verifySigned v = none) (hq : q.tagged = false) :
    a.accepts fromJson now v q = false := by
  cases q with
  | session => cases hq
  | token => cases hq
  | pending => cases hq
  | state => simp [Authenticator.accepts, Authenticator.callback, hv, Except.toBool, throw,
      throwThe, MonadExceptOf.throw]
  | hop => simp [Authenticator.accepts, Authenticator.claimed, hv]

theorem confused_tagged (hp : p.tagged = true) : a.Confused p q made now v ↔
    q.tagged = false ∧ now = 0 ∧ (a.verifySigned v).isSome := by
  cases p with
  | session => simp [Authenticator.Confused, Purpose.tagged]
  | token => simp [Authenticator.Confused, Purpose.tagged]
  | pending => simp [Authenticator.Confused, Purpose.tagged]
  | state => cases hp
  | hop => cases hp

theorem digits_cons (n : ℕ) : ∃ c ds, Nat.toDigits 10 n = c :: ds ∧ c.isDigit = true := by
  cases hdigits : Nat.toDigits 10 n with
  | nil => exact absurd hdigits Nat.toDigits_ne_nil
  | cons c ds =>
    have hmem : c ∈ Nat.toDigits 10 n := hdigits ▸ List.mem_cons_self
    exact ⟨c, ds, rfl, Nat.isDigit_of_mem_toDigits (by decide) (by decide) hmem⟩

theorem kind_cons (hp : p.tagged = true) : ∃ c cs, p.kind.toList = c :: cs ∧ c.toNat < 128 ∧
    c ≠ '+' ∧ c.isDigit = false := by
  cases p with
  | session => exact ⟨'s', "ession".toList, by decide, by decide, by decide, by decide⟩
  | token => exact ⟨'t', "oken".toList, by decide, by decide, by decide, by decide⟩
  | pending => exact ⟨'p', "ending".toList, by decide, by decide, by decide, by decide⟩
  | state => cases hp
  | hop => cases hp

theorem kind_ne (hp : p.tagged = true) (hq : q.tagged = true) (hne : p ≠ q) :
    p.kind ≠ q.kind := by
  cases p <;> cases q <;> simp_all [Purpose.tagged, Purpose.kind]

/-- A kind is no number, so a value that names one has expired where no kind is looked for. -/
theorem Opens.apart_tagged (h : Opens a v p.kind.toList second rest) (hp : p.tagged = true)
    (hsecond : second ≠ []) (hne : p ≠ q) :
    a.accepts fromJson now v q = false ↔ ¬ a.Confused p q made now v := by
  obtain ⟨c, cs, hkind, hascii, hplus, hdigit⟩ := kind_cons hp
  rw [confused_tagged hp]
  cases hq : q.tagged with
  | true =>
    have hother : String.ofList p.kind.toList ≠ q.kind := by
      rw [String.ofList_toList]
      exact kind_ne hp hq hne
    rw [hkind] at h hother
    simp [h.accepts_tagged hascii hq hother]
  | false =>
    rw [h.reads.accepts_untagged hsecond hq, hkind, parseU64_cons_eq_none hplus hdigit, h.verified]
    simp [← UInt64.toNat_inj]

theorem Opens.apart_token (h : Opens a v first second rest) (hp : p = .token)
    (hsecond : second ≠ []) (hne : p ≠ q) :
    a.accepts fromJson now (accessTokenPrefix ++ v) q = false ↔
      ¬ a.Confused p q made now (accessTokenPrefix ++ v) := by
  rw [confused_tagged (hp ▸ rfl)]
  cases hq : q.tagged with
  | true => simp [h.accepts_tagged_prefix hq (hp ▸ hne.symm)]
  | false =>
    cases hverified : a.verifySigned (accessTokenPrefix ++ v) with
    | none => simp [accepts_unverified hverified hq]
    | some payload =>
      have hreads := h.reads_prefix (by rw [hverified]; rfl)
      rw [hreads.accepts_untagged hsecond hq, parseU64_cons_eq_none (by decide) (by decide)]
      simp [← UInt64.toNat_inj]

/-- An expiry instead of a kind: only the other consumer that goes by the expiry takes it. -/
theorem Opens.accepts_expiry {exp : UInt64}
    (h : Opens a v (Nat.toDigits 10 exp.toNat) second rest) (hsecond : second ≠ []) :
    a.accepts fromJson now v q = (!q.tagged && decide (now ≤ exp)) := by
  cases hq : q.tagged with
  | true =>
    obtain ⟨c, ds, hdigits, hdigit⟩ := digits_cons exp.toNat
    obtain ⟨d, ds', hkind, -, -, hletter⟩ := kind_cons hq
    have hascii : c.toNat < 128 :=
      Nat.lt_of_le_of_lt (Char.isDigit_iff_toNat.mp hdigit).2 (by decide)
    have hother : String.ofList (c :: ds) ≠ q.kind := by
      intro heq
      have hlist := congrArg String.toList heq
      rw [String.toList_ofList, hkind, List.cons.injEq] at hlist
      rw [hlist.1, hletter] at hdigit
      cases hdigit
    rw [hdigits] at h
    rw [h.accepts_tagged hascii hq hother]
    rfl
  | false =>
    rw [h.reads.accepts_untagged hsecond hq, parseU64_digits exp.toNat_lt]
    simp [UInt64.le_iff_toNat_le]

theorem Produced.apart {sessionTtl : UInt64} {toJson : ι → Option String}
    (h : Produced a sessionTtl toJson p made v) (hne : p ≠ q) :
    a.accepts fromJson now v q = false ↔ ¬ a.Confused p q made now v := by
  cases h with
  | session h =>
    exact (Authenticator.mintFor_opens (by decide) h).apart_tagged rfl Nat.toDigits_ne_nil hne
  | token h =>
    obtain ⟨-, raw, hraw, rfl⟩ := accessToken_eq h
    have hmint : a.mintFor a.accessTokenTtl _ made "token" = some raw := hraw
    exact (Authenticator.mintFor_opens (by decide) hmint).apart_token rfl Nat.toDigits_ne_nil hne
  | pending h =>
    obtain ⟨json, -, hmint⟩ := Option.bind_eq_some_iff.mp h
    exact (Authenticator.mintFor_opens (by decide) hmint).apart_tagged rfl Nat.toDigits_ne_nil hne
  | state h =>
    rw [(Authenticator.oidcState_opens h).accepts_expiry Nat.toDigits_ne_nil]
    cases q <;> simp_all [Authenticator.Confused, Purpose.tagged]
  | hop hcookie h =>
    have hnewline := Authenticator.newline_sign hcookie
    have hne_nil := Authenticator.sign_ne_nil hcookie
    rw [(Authenticator.hopTicket_opens hnewline h).accepts_expiry hne_nil]
    cases q <;> simp_all [Authenticator.Confused, Purpose.tagged]

end Consumers

section Claims

variable {a : Authenticator} {ι : Type} {v value kind : String} {made now ttl : UInt64}

/-- The claims of a value that has not expired are what it was minted of. -/
theorem claimsOf_mintFor (hkind : '\n' ∉ kind.toList) (h : a.mintFor ttl value made kind = some v)
    (hnow : now < made + ttl) :
    a.claimsOf now v kind = some ((made + ttl).toNat, made.toNat, value) := by
  -- only the lifetime tells `mintFor` from `mint`, and claims do not depend on it
  have hmint : { a with accessTokenTtl := ttl }.mint value made kind = some v := h
  have hclaims := Authenticator.claimsOf_mint (t := now) hkind hmint
  have hexpiry : ¬ { a with accessTokenTtl := ttl }.expiry made ≤ now := by
    change ¬ made + ttl ≤ now
    rw [UInt64.lt_iff_toNat_lt] at hnow
    rw [UInt64.le_iff_toNat_le]
    omega
  rw [if_neg hexpiry] at hclaims
  exact hclaims

/-- A value is turned down by the consumer of another purpose except where two expiries are
taken for each other or the clock reads the epoch, and until it expires the claims of a cookie,
a token and a pending sign-up are those it was made of. -/
theorem signedValues_bound (a : Authenticator) (sessionTtl : UInt64)
    (toJson : ι → Option String) (fromJson : String → Option ι) :
    (∀ p q made now v, p ≠ q → Produced a sessionTtl toJson p made v →
      (a.accepts fromJson now v q = false ↔ ¬ a.Confused p q made now v)) ∧
    (∀ userId made now v, a.sessionCookieValue sessionTtl userId made = some v →
      now < made + sessionTtl →
      a.claimsOf now v "session" = some ((made + sessionTtl).toNat, made.toNat, userId)) ∧
    (∀ userId made now v, a.accessToken userId made = some v → now < made + a.accessTokenTtl →
      ∃ raw, stripPrefix accessTokenPrefix v = some raw ∧
        a.claimsOf now raw "token" =
          some ((made + a.accessTokenTtl).toNat, made.toNat, userId)) ∧
    (∀ identity json made now v, toJson identity = some json →
      a.pendingValue toJson identity made = some v → now < made + pendingTtl →
      a.claimsOf now v "pending" = some ((made + pendingTtl).toNat, made.toNat, json)) := by
  refine ⟨fun p q made now v hne h => h.apart hne, ?_, ?_, ?_⟩
  · intro userId made now v h hnow
    exact claimsOf_mintFor (by decide) h hnow
  · intro userId made now v h hnow
    obtain ⟨-, raw, hraw, rfl⟩ := accessToken_eq h
    have hmint : a.mintFor a.accessTokenTtl userId made "token" = some raw := hraw
    exact ⟨raw, stripPrefix_append _ _, claimsOf_mintFor (by decide) hmint hnow⟩
  · intro identity json made now v hjson h hnow
    rw [Authenticator.pendingValue, hjson] at h
    exact claimsOf_mintFor (by decide) h hnow

/-- A host with a session secret; its tag repeats the secret and the text. -/
def keyed : Authenticator where
  mode := .oidc
  tokens := []
  issuer := "https://accounts.example.com"
  allowedDomains := []
  allowedEmails := []
  trustedForwarders := []
  adminEmails := []
  adminDomains := []
  writeDomains := none
  sessionSecret := some (bytes "0123456789abcdef0123456789abcdef")
  accessTokenTtl := 7776000
  passwords := .off
  hmac := fun secret payload => secret ++ payload
  idToken := fun _ _ => .error .invalid

/-- A hop ticket gets past the callback as its OAuth state, and a state sets a cookie as a
ticket. -/
theorem signedValues_confused :
    (∃ v, Produced keyed 604800 (some : String → Option String) .hop 1700000000 v ∧
      keyed.accepts (some : String → Option String) 1700000059 v .state = true) ∧
    (∃ v, Produced keyed 604800 (some : String → Option String) .state 1700000000 v ∧
      keyed.accepts (some : String → Option String) 1700000599 v .hop = true) := by
  constructor
  · obtain ⟨cookie, hcookie⟩ :
        ∃ cookie, keyed.sessionCookieValue 604800 "alice" 1700000000 = some cookie := ⟨_, rfl⟩
    obtain ⟨v, hv⟩ : ∃ v, keyed.hopTicket cookie "/" 1700000000 = some v := ⟨_, rfl⟩
    have hsigned := (Authenticator.mintFor_opens (by decide) hcookie).signed
    refine ⟨v, .hop hcookie hv, ?_⟩
    rw [(Authenticator.hopTicket_opens (Authenticator.newline_sign hsigned) hv).accepts_expiry
      (Authenticator.sign_ne_nil hsigned)]
    decide
  · obtain ⟨v, hv⟩ : ∃ v, keyed.oidcState 7 "/" 1700000000 = some v := ⟨_, rfl⟩
    refine ⟨v, .state hv, ?_⟩
    rw [(Authenticator.oidcState_opens hv).accepts_expiry Nat.toDigits_ne_nil]
    decide

end Claims

end Auth

end Walgit
