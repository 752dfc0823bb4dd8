import Walgit.SignedValues
import Walgit.UrlOrigins

/-!
# Where a sign-in ends

The locations that the callback, the redirect after a sign-in and the second stop of a hop send
a browser to, for a `next` of its own choosing, and the origins they lead to.
-/
namespace Walgit

open Text UrlOrigin

namespace Auth

/-- What a request says of the server: its base URL, whether it speaks TLS, and the port. -/
structure Site where
  base : String
  tls : Bool
  port : UInt16
  deriving DecidableEq, Repr

/-- What comes before and after the first `sep`. -/
def breakOn (sep : List Char) : List Char → Option (List Char × List Char)
  | [] => none
  | c :: text =>
    if sep.isPrefixOf (c :: text) then some ([], (c :: text).drop sep.length)
    else (breakOn sep text).map fun (part, rest) => (c :: part, rest)

/-- `rsplit_once`, the first half. -/
def beforeLast (sep : Char) (text : List Char) : Option (List Char) :=
  if sep ∈ text then some ((text.reverse.dropWhile (· ≠ sep)).tail.reverse) else none

namespace Site

variable (site : Site)

/-- The public origin is a development origin. -/
def loopbackOrigin : Bool :=
  let base := site.base.toList
  let host := match breakOn "://".toList base with
    | none => base
    | some (_, rest) => (breakOn "://".toList rest).elim rest Prod.fst
  let host := host.takeWhile (· ≠ '/')
  let host := (beforeLast ':' host).getD host
  host = "walgit.localhost".toList || host = "localhost".toList || host = "127.0.0.1".toList ||
    host = "[::1]".toList

def scheme : String := if site.tls then "https" else "http"

def walgitHost : String :=
  if site.port = 443 ∧ site.scheme = "https" ∨ site.port = 80 ∧ site.scheme = "http" then
    "walgit.localhost"
  else "walgit.localhost:" ++ toString site.port.toNat

def walgitOrigin : String := site.scheme ++ "://" ++ site.walgitHost

end Site

def upperHex (n : ℕ) : List Char := (Nat.toDigits 16 n).map Char.toUpper

def urlencodeByte (b : UInt8) : List Char :=
  let c := Char.ofNat b.toNat
  if (c.isAlphanum || c = '-' || c = '_' || c = '.' || c = '~') && b < 128 then [c]
  else '%' :: (List.replicate (2 - (upperHex b.toNat).length) '0' ++ upperHex b.toNat)

def urlencode (s : String) : String := String.ofList ((bytes s).flatMap urlencodeByte)

namespace Authenticator

variable (a : Authenticator) {ι : Type}

/-- The session is set and the browser goes to `next`, on a development origin by way of the
other host name. -/
def signedInRedirect (site : Site) (sessionTtl : UInt64) (userId next : String) (now : UInt64) :
    Except String SignedIn :=
  match a.sessionCookieValue sessionTtl userId now with
  | none => .error "session secret missing"
  | some value =>
    if !site.loopbackOrigin then .ok ⟨next, some value⟩
    else
      let dest := match a.hopTicket value next now with
        | some ticket => site.walgitOrigin ++ "/_auth/claimed?ticket=" ++ urlencode ticket ++
            "&next=" ++ urlencode next
        | none => next
      .ok ⟨dest, some value⟩

/-- `callback` once the code has been exchanged for an identity: `user` is the account the
identity signs in to, if there is one. -/
def finishCallback (site : Site) (sessionTtl : UInt64) (toJson : ι → Option String) (identity : ι)
    (user : Option String) (now : UInt64) (state : String) : Except String SignedIn := do
  let next ← a.callback now state
  match user with
  | some userId => a.signedInRedirect site sessionTtl userId next now
  | none =>
    match a.pendingValue toJson identity now with
    | none => throw "session secret missing"
    | some pending =>
      let origin := if site.loopbackOrigin then site.walgitOrigin else ""
      pure ⟨origin ++ "/_auth/welcome?pending=" ++ urlencode pending ++ "&next=" ++
        urlencode next, none⟩

end Authenticator

/-- The locations a server sends for a client's `next`: after the callback of a sign-in it
started for it, after any sign-in, and from the second stop. -/
inductive Emits {ι : Type} (a : Authenticator) (site : Site) (sessionTtl : UInt64)
    (toJson : ι → Option String) (next : Option String) : String → Prop
  | callback {nonce made state identity user now r}
    (hstate : a.oidcState nonce (safeNext next) made = some state)
    (h : a.finishCallback site sessionTtl toJson identity user now state = .ok r) :
    Emits a site sessionTtl toJson next r.location
  | signedIn {userId now r}
    (h : a.signedInRedirect site sessionTtl userId (safeNext next) now = .ok r) :
    Emits a site sessionTtl toJson next r.location
  | claimed {now ticket} : Emits a site sessionTtl toJson next (a.claimed now ticket next).location

/-- The server's own origin or, where it is a development origin, the other host name's. -/
def Site.Own (authority : String → List Char → Option UrlOrigin.Origin) (site : Site)
    (base : UrlOrigin.Origin) (origin : Option UrlOrigin.Origin) : Prop :=
  origin = some base ∨
    (site.loopbackOrigin = true ∧ origin = authority site.scheme site.walgitHost.toList)

/-- Read as a browser reads it, the path has no second slash, or the authority behind that
slash is the server's own. -/
def Site.Stays (authority : String → List Char → Option UrlOrigin.Origin) (site : Site)
    (base : UrlOrigin.Origin) (path : String) : Prop :=
  ∀ d rest, cleaned path.toList = '/' :: d :: rest → isSlash d = true →
    site.Own authority base (authority base.scheme (authorityText rest))

section Paths

variable {authority : String → List Char → Option UrlOrigin.Origin} {site : Site}
  {base : UrlOrigin.Origin}
  {next : Option String}

theorem safeNext_slash (next : Option String) : ∃ rest, (safeNext next).toList = '/' :: rest := by
  cases next with
  | none => exact ⟨[], rfl⟩
  | some n =>
    rw [safeNext]
    split
    · rename_i h
      simp only [Bool.and_eq_true, startsWith] at h
      obtain ⟨rest, hrest⟩ := List.isPrefixOf_iff_prefix.mp h.1
      exact ⟨rest, hrest.symm⟩
    · exact ⟨[], rfl⟩

theorem safeNext_idem (next : Option String) : safeNext (some (safeNext next)) = safeNext next := by
  cases next with
  | none => decide
  | some n =>
    by_cases h : (startsWith "/" n && !startsWith "//" n) = true
    · rw [safeNext, safeNext, if_pos h, if_pos h]
    · have hroot : safeNext (some n) = "/" := if_neg h
      rw [hroot]
      decide +kernel

theorem cleaned_safeNext (next : Option String) :
    ∃ rest, cleaned (safeNext next).toList = '/' :: rest := by
  obtain ⟨rest, hrest⟩ := safeNext_slash next
  have hclean : cleaned ('/' :: rest) = '/' :: cleanedEnd rest :=
    cleaned_append (List.cons_ne_nil '/' []) (by simp)
  rw [hrest]
  exact ⟨_, hclean⟩

/-- A checked `next` leads to the server exactly when it has no second slash for a browser. -/
theorem own_safeNext :
    site.Own authority base (UrlOrigin.resolve authority base (safeNext next).toList) ↔
    site.Stays authority base (safeNext next) := by
  obtain ⟨rest, hrest⟩ := cleaned_safeNext next
  rw [resolve_path hrest, Site.Stays, hrest]
  cases rest with
  | nil =>
    refine iff_of_true (Or.inl rfl) ?_
    intro d rest h
    cases h
  | cons d rest =>
    rw [relative_slash]
    constructor
    · rintro h d' rest' heq hslash
      simp only [List.cons.injEq, true_and] at heq
      obtain ⟨rfl, rfl⟩ := heq
      rwa [if_pos hslash] at h
    · intro h
      by_cases hslash : isSlash d = true
      · rw [if_pos hslash]
        exact h d rest rfl hslash
      · rw [if_neg hslash]
        exact Or.inl rfl

theorem digit_inAuthority {c : Char} (h : c.isDigit = true) :
    32 < c.toNat ∧ endsAuthority c = false := by
  have hrange : 48 ≤ c.toNat ∧ c.toNat ≤ 57 := Char.isDigit_iff_toNat.mp h
  refine ⟨by omega, ?_⟩
  have hne : ∀ d : Char, d.isDigit = false → c ≠ d := by
    rintro d hd rfl
    rw [h] at hd
    cases hd
  simp [endsAuthority, isSlash, hne '/' rfl, hne '\\' rfl, hne '?' rfl, hne '#' rfl]

theorem walgitHost_chars (site : Site) : ∀ c ∈ site.walgitHost.toList,
    32 < c.toNat ∧ endsAuthority c = false := by
  have hname : "walgit.localhost:".toList.all
      (fun c => decide (32 < c.toNat ∧ endsAuthority c = false)) = true := by decide +kernel
  have halone : "walgit.localhost".toList.all
      (fun c => decide (32 < c.toNat ∧ endsAuthority c = false)) = true := by decide +kernel
  intro c hc
  rw [Site.walgitHost] at hc
  split at hc
  · exact of_decide_eq_true (List.all_eq_true.mp halone c hc)
  · rw [String.toList_append, List.mem_append] at hc
    rcases hc with hc | hc
    · exact of_decide_eq_true (List.all_eq_true.mp hname c hc)
    · have hdigit : c ∈ Nat.toDigits 10 site.port.toNat := by simpa using hc
      exact digit_inAuthority (Nat.isDigit_of_mem_toDigits (by decide) (by decide) hdigit)

theorem walgitHost_ne_nil (site : Site) : site.walgitHost.toList ≠ [] := by
  rw [Site.walgitHost]
  split
  · decide
  · simp

/-- What is sent to the other host name leads there. -/
theorem own_walgitOrigin (hloopback : site.loopbackOrigin = true) (path : String) :
    site.Own authority base
      (UrlOrigin.resolve authority base (site.walgitOrigin ++ "/" ++ path).toList) := by
  have hscheme : site.scheme = "http" ∨ site.scheme = "https" := by
    cases htls : site.tls <;> simp [Site.scheme, htls]
  have htext : (site.walgitOrigin ++ "/" ++ path).toList = site.scheme.toList ++
      ':' :: '/' :: '/' :: (site.walgitHost.toList ++ '/' :: path.toList) := by
    simp [Site.walgitOrigin]
  rw [htext, resolve_absolute hscheme (walgitHost_ne_nil site)
    (fun c hc => (walgitHost_chars site c hc).1) (fun c hc => (walgitHost_chars site c hc).2)]
  exact Or.inr ⟨hloopback, rfl⟩

theorem own_path {d : Char} {path : List Char} (hvisible : 32 < d.toNat)
    (hd : isSlash d = false) :
    site.Own authority base (UrlOrigin.resolve authority base ('/' :: d :: path)) := by
  have hclean : cleaned ('/' :: d :: path) = '/' :: d :: cleanedEnd path :=
    cleaned_append (List.cons_ne_nil '/' [d]) (by simpa using hvisible)
  rw [resolve_path hclean, relative_slash, if_neg (by simp [hd])]
  exact Or.inl rfl

end Paths

section Redirects

variable {a : Authenticator} {ι : Type} {authority : String → List Char → Option UrlOrigin.Origin}
  {site : Site} {base : UrlOrigin.Origin} {sessionTtl : UInt64} {toJson : ι → Option String}
  {next : Option String} {location : String}

/-- The `next` a sign-in was started with comes back with its state. -/
theorem callback_oidcState {nonce made now : UInt64} {state next' : String} {n : String}
    (hstate : a.oidcState nonce n made = some state) (h : a.callback now state = .ok next') :
    next' = safeNext (some n) := by
  obtain ⟨⟨payload, hverified, htext⟩, hfirst, hsecond⟩ := (Authenticator.oidcState_opens hstate).reads
  simp only [Authenticator.callback, hverified, htext, splitn_three hfirst hsecond] at h
  split at h
  · cases h
  · simpa [pure, Except.pure] using h.symm

/-- The page where a new account is named is the server's own. -/
theorem own_welcome (query : String) : site.Own authority base (UrlOrigin.resolve authority base
    ((if site.loopbackOrigin then site.walgitOrigin else "") ++ "/_auth/welcome?pending=" ++
      query).toList) := by
  cases hloopback : site.loopbackOrigin with
  | true =>
    have htext : site.walgitOrigin ++ "/_auth/welcome?pending=" ++ query =
        site.walgitOrigin ++ "/" ++ ("_auth/welcome?pending=" ++ query) := by
      apply String.toList_inj.mp
      simp
    rw [if_pos rfl, htext]
    exact own_walgitOrigin hloopback _
  | false =>
    have htext : ("" ++ "/_auth/welcome?pending=" ++ query).toList =
        '/' :: '_' :: ("auth/welcome?pending=".toList ++ query.toList) := by
      simp
    rw [if_neg (by decide), htext]
    exact own_path (by decide) rfl

theorem signedInRedirect_location {userId n : String} {now : UInt64} {r : SignedIn}
    (h : a.signedInRedirect site sessionTtl userId n now = .ok r) : r.location = n ∨
      (site.loopbackOrigin = true ∧ ∃ path, r.location = site.walgitOrigin ++ "/" ++ path) := by
  rw [Authenticator.signedInRedirect] at h
  cases hvalue : a.sessionCookieValue sessionTtl userId now with
  | none =>
    rw [hvalue] at h
    cases h
  | some value =>
    simp only [hvalue] at h
    cases hloopback : site.loopbackOrigin with
    | false =>
      rw [hloopback] at h
      obtain rfl := Except.ok.inj h
      exact Or.inl rfl
    | true =>
      rw [hloopback] at h
      cases hticket : a.hopTicket value n now with
      | none =>
        rw [hticket] at h
        obtain rfl := Except.ok.inj h
        exact Or.inl rfl
      | some ticket =>
        rw [hticket] at h
        obtain rfl := Except.ok.inj h
        refine Or.inr ⟨rfl, "_auth/claimed?ticket=" ++ urlencode ticket ++ "&next=" ++
          urlencode n, ?_⟩
        apply String.toList_inj.mp
        simp

theorem claimed_location (a : Authenticator) (now : UInt64) (ticket next : Option String) :
    (a.claimed now ticket next).location = safeNext next := by
  rw [Authenticator.claimed]
  cases ticket.bind a.verifySigned with
  | none => rfl
  | some payload =>
    dsimp only
    split <;> rfl

theorem signedIn_own {userId n : String} {now : UInt64} {r : SignedIn}
    (h : a.signedInRedirect site sessionTtl userId n now = .ok r) : r.location = n ∨
      site.Own authority base (UrlOrigin.resolve authority base r.location.toList) := by
  rcases signedInRedirect_location h with heq | ⟨hloopback, path, heq⟩
  · exact Or.inl heq
  · rw [heq]
    exact Or.inr (own_walgitOrigin hloopback path)

/-- A location is the checked `next` itself, or one of the server's own making. -/
theorem Emits.own_or_next (h : Emits a site sessionTtl toJson next location) :
    location = safeNext next ∨
      site.Own authority base (UrlOrigin.resolve authority base location.toList) := by
  cases h with
  | claimed => exact Or.inl (claimed_location _ _ _ _)
  | signedIn h => exact signedIn_own h
  | @callback nonce made state identity user now r hstate h =>
    rw [Authenticator.finishCallback] at h
    cases hnext : a.callback now state with
    | error message =>
      rw [hnext] at h
      cases h
    | ok n =>
      obtain rfl : n = safeNext next := by
        rw [callback_oidcState hstate hnext, safeNext_idem]
      simp only [hnext] at h
      cases user with
      | some userId => exact signedIn_own h
      | none =>
        change (match a.pendingValue toJson identity now with
          | none => throw "session secret missing"
          | some pending => pure _) = Except.ok r at h
        cases hpending : a.pendingValue toJson identity now with
        | none =>
          rw [hpending] at h
          cases h
        | some pending =>
          rw [hpending] at h
          obtain rfl := Except.ok.inj h
          refine Or.inr ?_
          dsimp only
          rw [String.append_assoc, String.append_assoc]
          exact own_welcome _

theorem emits_safeNext : Emits a site sessionTtl toJson next (safeNext next) := by
  have hemits : Emits a site sessionTtl toJson next (a.claimed 0 none next).location := .claimed
  rwa [claimed_location] at hemits

/-- Every location a server sends for a `next` leads to its own origin exactly when the checked
`next` is no header value, or has no second slash for a browser that leads elsewhere. -/
theorem redirects_own (a : Authenticator) (site : Site) (base : UrlOrigin.Origin)
    (sessionTtl : UInt64) (toJson : ι → Option String)
    (authority : String → List Char → Option UrlOrigin.Origin) (isHeaderValue : String → Bool)
    (next : Option String) :
    (∀ location, Emits a site sessionTtl toJson next location → isHeaderValue location = true →
      site.Own authority base (UrlOrigin.resolve authority base location.toList)) ↔
    (isHeaderValue (safeNext next) = true → site.Stays authority base (safeNext next)) := by
  constructor
  · intro h hheader
    exact own_safeNext.mp (h _ emits_safeNext hheader)
  · intro h location hemits hheader
    rcases hemits.own_or_next with rfl | hown
    · exact own_safeNext.mpr (h hheader)
    · exact hown

/-- A header value: visible characters, spaces and tabs. -/
def visible (s : String) : Bool :=
  s.toList.all fun c => 32 ≤ c.toNat && c.toNat ≠ 127 || c = '\t'

/-- An authority that is a host, on the scheme's own port. -/
def hostOnly (scheme : String) (text : List Char) : Option UrlOrigin.Origin :=
  some ⟨scheme, String.ofList text, if scheme = "https" then 443 else 80⟩

/-- A public server sends a browser with this `next` to another one. -/
def LeadsAway (next : String) : Prop :=
  Emits keyed ⟨"https://git.example.com", true, 443⟩ 604800 (some : String → Option String)
      (some next) next ∧ visible next = true ∧
    UrlOrigin.resolve hostOnly ⟨"https", "git.example.com", 443⟩ next.toList =
      some ⟨"https", "evil.com", 443⟩ ∧
    ¬ Site.Own hostOnly ⟨"https://git.example.com", true, 443⟩ ⟨"https", "git.example.com", 443⟩
      (UrlOrigin.resolve hostOnly ⟨"https", "git.example.com", 443⟩ next.toList)

theorem leadsAway_of_safe {next : String} (hsafe : safeNext (some next) = next)
    (hheader : visible next = true)
    (hresolve : UrlOrigin.resolve hostOnly ⟨"https", "git.example.com", 443⟩ next.toList =
      some ⟨"https", "evil.com", 443⟩) : LeadsAway next := by
  have hemits : Emits keyed ⟨"https://git.example.com", true, 443⟩ 604800
      (some : String → Option String) (some next) (safeNext (some next)) := emits_safeNext
  rw [hsafe] at hemits
  refine ⟨hemits, hheader, hresolve, ?_⟩
  rw [hresolve]
  rintro (h | ⟨h, -⟩)
  · exact absurd h (by decide)
  · exact absurd h (by decide +kernel)

/-- A backslash, and a tab between two slashes, take a browser to another server. -/
theorem redirects_away : LeadsAway "/\\evil.com" ∧ LeadsAway "/\t/evil.com" :=
  ⟨leadsAway_of_safe (by decide +kernel) (by decide +kernel) (by decide +kernel),
    leadsAway_of_safe (by decide +kernel) (by decide +kernel) (by decide +kernel)⟩

end Redirects

end Auth

end Walgit
