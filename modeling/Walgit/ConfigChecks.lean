import Walgit.EnvOverrides
import Walgit.RefsConfig

/-!
# What a configuration must satisfy

`Config::validate`, with the checks of `[refs]` and `[packs]`, over the fields by their paths.
-/
namespace Walgit.HostConfig

open Document Text

section Fields

variable (c : Config) (path : List String)

def get : Option FieldValue := (c.find path).bind Conf.value?

def getSwitch : Bool :=
  match get c path with
  | some (.switch on) => on
  | _ => false

def getCount : ℕ :=
  match get c path with
  | some (.count n) => n
  | _ => 0

def getBytes : ℕ :=
  match get c path with
  | some (.bytes n) => n
  | _ => 0

def getDuration : ℕ :=
  match get c path with
  | some (.duration nanos) => nanos
  | _ => 0

def getFraction : Option (ℤ × ℕ) :=
  match get c path with
  | some (.fraction q) => q
  | _ => none

def getText : String :=
  match get c path with
  | some (.text s) => s
  | _ => ""

def getOptional : Option String :=
  match get c path with
  | some (.optionalText s) => s
  | _ => none

def getTexts : List String :=
  match get c path with
  | some (.texts l) => l
  | _ => []

def getChoice : String :=
  match get c path with
  | some (.choice name) => name
  | _ => ""

def getChoices : List String :=
  match get c path with
  | some (.choices names) => names
  | _ => []

def getTokens : List StaticToken :=
  match get c path with
  | some (.tokens l) => l
  | _ => []

def getAddress : String × ℕ :=
  match get c path with
  | some (.address ip port) => (ip, port)
  | _ => ("", 0)

end Fields

def trim (s : String) : String :=
  String.ofList ((s.toList.dropWhile isWhitespace).rdropWhile isWhitespace)

/-- A reversed text without any `.git` at its front. -/
def dropGit : List Char → List Char
  | 't' :: 'i' :: 'g' :: '.' :: rest => dropGit rest
  | rest => rest

def repoListed (list : List String) (owner name : String) : Bool :=
  list.any fun r =>
    let r := String.ofList (dropGit (trim r).toList.reverse).reverse
    r = owner ++ "/" ++ name || r = owner ++ "/*" || r = "*"

section Placement

variable (c : Config)

def serves (owner name : String) : Bool :=
  repoListed (getTexts c ["placement", "serve"]) owner name &&
    !repoListed (getTexts c ["placement", "serve_exclude"]) owner name

def maintains (owner name : String) : Bool :=
  repoListed (getTexts c ["placement", "maintain"]) owner name &&
    !repoListed (getTexts c ["placement", "maintain_exclude"]) owner name

def hasRole (role : String) : Bool :=
  let roles := getChoices c ["server", "roles"]
  roles.isEmpty || roles.contains role || (role = "compact" && roles.contains "maintain")

end Placement

/-- `IpAddr::is_loopback`. -/
def isLoopback (ip : String) : Bool := startsWith "127." ip || ip = "::1"

def showAddress (address : String × ℕ) : String :=
  (if address.1.toList.contains ':' then "[" ++ address.1 ++ "]" else address.1) ++ ":" ++
    toString address.2

def isNonempty (s : Option String) : Bool := s.any (· ≠ "")

/-- A browser origin: `https`, or `http` on this machine, with one leading wildcard at most. -/
def validOrigin (o : String) : Bool :=
  let host : Option String :=
    match Auth.stripPrefix "https://" o with
    | some host => some host
    | none => (Auth.stripPrefix "http://localhost" o).map fun _ => "localhost"
  host.any (fun h => h ≠ "" && !h.toList.contains '/') && o.toList.count '*' ≤ 1 &&
    (!o.toList.contains '*' || contains "://*." o)

section Validate

variable [CharTables]

def debugList (l : List String) : String := "[" ++ ", ".intercalate (l.map debug) ++ "]"

def packGroupOf (c : Config) : PackGroupConfig where
  kind := if getChoice c ["kind"] = "meta" then .metadata else .code
  included := getTexts c ["include"]
  subtract := getTexts c ["subtract"]

def refsOf (c : Config) : RefsConfig where
  advertise := getTexts c ["refs", "advertise"]
  packfiles :=
    match c.find ["refs", "packfiles"] with
    | some (.record entries) => SortedMap.ofList (entries.map fun e => (e.1, packGroupOf e.2))
    | _ => SortedMap.empty

def validatePacks (c : Config) : Except String Unit := do
  let max := getBytes c ["packs", "segment_max_bytes"]
  let target := getBytes c ["packs", "segment_target_bytes"]
  let coverage := getFraction c ["packs", "frozen_coverage_target"]
  let resegment := getFraction c ["packs", "resegment_when_frozen_folds_exceed"]
  if !(getCount c ["packs", "geometric_factor"] ≥ 2) then
    throw "packs.geometric_factor must be >= 2"
  if !(getCount c ["packs", "fold_needs_at_least_packs"] ≥ 2) then
    throw "packs.fold_needs_at_least_packs must be >= 2"
  if !(getCount c ["packs", "fold_when_fresh_packs_reach"] ≥
      getCount c ["packs", "fold_needs_at_least_packs"]) then
    throw "packs.fold_when_fresh_packs_reach must reach the minimum useful count"
  if !(!getSwitch c ["packs", "enabled"] || max ≥ 2 ^ 20) then
    throw "packs.segment_max_bytes must be >= 1 MiB when enabled"
  if !(target = 0 || (target ≥ 2 ^ 20 && target ≤ max)) then
    throw "packs.segment_target_bytes must be zero or 1 MiB..=segment_max_bytes"
  if !(getCount c ["packs", "segment_delta_window"] > 0) then
    throw "packs.segment_delta_window must be positive"
  if !(getCount c ["packs", "segment_delta_depth"] > 0) then
    throw "packs.segment_delta_depth must be positive"
  if !(getBytes c ["packs", "segment_delta_window_memory"] > 0) then
    throw "packs.segment_delta_window_memory must be positive (zero would be unbounded)"
  if !(coverage.any fun q => 0 ≤ q.1 && q.1 ≤ q.2) then
    throw "packs.frozen_coverage_target must be finite and within 0..=1"
  if !(resegment.any fun q => 0 < q.1) then
    throw "packs.resegment_when_frozen_folds_exceed must be finite and positive"
  if getDuration c ["packs", "lease_ttl"] = 0 then throw "packs.lease_ttl must be positive"

/-- The names of the TLS modes as debug output prints them. -/
def showTlsMode (mode : String) : String := if mode = "off" then "Off" else "SelfSigned"

def validateTls (c : Config) : Except String Unit := do
  let mode := getChoice c ["server", "tls", "mode"]
  let cert := getOptional c ["server", "tls", "cert"]
  let key := getOptional c ["server", "tls", "key"]
  if mode = "files" && !(cert.isSome && key.isSome) then
    throw "server.tls.cert and server.tls.key must both be set in files mode"
  if mode ≠ "files" && !(cert.isNone && key.isNone) then
    throw ("server.tls.cert/key are only read in files mode (got mode = " ++ showTlsMode mode ++ ")")
  if mode ≠ "self_signed" && !(getTexts c ["server", "tls", "hostnames"]).isEmpty then
    throw "server.tls.hostnames only applies to self_signed mode"

/-- A host cannot maintain a repository that it refuses to serve. -/
def validatePlacement (c : Config) : Except String Unit :=
  if hasRole c "serve" then
    (getTexts c ["placement", "maintain"]).forM fun m =>
      match Auth.splitOnce '/' m.toList with
      | none => .ok ()
      | some (o, n) =>
        if !n.contains '*' && !o.contains '*' && !serves c (String.ofList o) (String.ofList n) &&
            maintains c (String.ofList o) (String.ofList n) then
          throw ("placement: this host maintains " ++ m ++ " but its serve rules exclude it (serve = "
            ++ debugList (getTexts c ["placement", "serve"]) ++ ", serve_exclude = " ++
            debugList (getTexts c ["placement", "serve_exclude"]) ++
            ") — you cannot maintain what you refuse to serve")
        else .ok ()
  else .ok ()

def upstreamUrl (u : String) : Bool :=
  startsWith "https://" u || startsWith "http://localhost" u || startsWith "http://127.0.0.1" u

def validateUrl (key : String) : Option String → Except String Unit
  | none => .ok ()
  | some u => do
    if !upstreamUrl u then throw (key ++ " must be an https:// URL (got " ++ u ++ ")")
    if endsWith "/" u then throw (key ++ " must not end with '/' (got " ++ u ++ ")")

def validateFollow (c : Config) : Except String Unit := do
  if (getOptional c ["upstream", "git"]).isNone then
    throw "upstream.follow needs upstream.git (the host to follow)"
  (getTexts c ["upstream", "follow"]).forM fun r =>
    if startsWith "refs/" r && !endsWith "/" r && !r.toList.contains '*' then .ok ()
    else throw ("upstream.follow entries are full ref names (refs/heads/main), got " ++ debug r)

def validateUpstream (c : Config) : Except String Unit := do
  validateUrl "upstream.git" (getOptional c ["upstream", "git"])
  validateUrl "upstream.lfs" (getOptional c ["upstream", "lfs"])
  if (getTexts c ["upstream", "follow"]).isEmpty then .ok () else validateFollow c

def authPath (name : String) : List String := ["server", "auth", name]

/-- Everyone is a site admin: one person on one machine. -/
def validateNone (c : Config) : Except String Unit := do
  let listen := getAddress c ["server", "listen"]
  if !isLoopback listen.1 then
    throw ("server.auth.mode = none is loopback-only (listen is " ++ showAddress listen ++
      "); use token or oidc for a public bind")
  (getOptional c ["server", "public_url"]).toList.forM fun u =>
    if originIsLoopback u then .ok ()
    else throw ("server.auth.mode = none is loopback-only (public_url is " ++ u ++
      "); use token or oidc")
  [(!(getTexts c (authPath "trusted_forwarders")).isEmpty, "server.auth.trusted_forwarders"),
    (getSwitch c ["server", "accel_redirect"], "server.accel_redirect"),
    (!(getTexts c ["server", "cors_origins"]).isEmpty, "server.cors_origins"),
    ((getOptional c ["wal", "push_broker_token"]).isSome, "wal.push_broker_token"),
    ((getOptional c ["wal", "push_broker_url"]).isSome, "wal.push_broker_url")].forM
      fun (implied, key) =>
        if implied then
          throw (key ++ " implies another host in front of or beside walgit, which " ++
            "server.auth.mode = none (no credentials, everyone a site admin) must never be; " ++
            "use token or oidc")
        else .ok ()

def validateToken (t : StaticToken) : Except String Unit := do
  if t.user = "" then throw "server.auth.tokens[].user must name an account's login"
  if t.token = "" && !isNonempty t.tokenEnv then
    throw ("server.auth.tokens[] for " ++ debug t.user ++ " needs `token` or `token_env`")

def validatePasswords (c : Config) : Except String Unit := do
  if getChoice c (authPath "mode") = "none" then
    throw "server.auth.passwords needs real accounts: use mode = \"token\" or \"oidc\", not none"
  if !isNonempty (getOptional c (authPath "session_secret")) then
    throw "server.auth.passwords needs server.auth.session_secret (it signs the session cookie)"

def validateOidc (c : Config) : Except String Unit := do
  let issuer := getText c (authPath "issuer")
  let oauthId := isNonempty (getOptional c (authPath "oauth_client_id"))
  let oauthSecret := isNonempty (getOptional c (authPath "oauth_client_secret"))
  if getSwitch c (authPath "anonymous_read") then
    throw "server.auth.anonymous_read must be false in oidc mode"
  if (getTexts c (authPath "allowed_domains")).isEmpty &&
      (getTexts c (authPath "allowed_emails")).isEmpty then
    throw "server.auth.allowed_domains (or allowed_emails) must be set in oidc mode"
  if !(startsWith "https://" issuer && !endsWith "/" issuer) then
    throw ("server.auth.issuer must be an https URL without a trailing slash (got " ++
      debug issuer ++ ")")
  if oauthId ≠ oauthSecret then
    throw ("server.auth.oauth_client_id and oauth_client_secret must be set together " ++
      "(browser sign-in) or both left unset")
  if !oauthId && (getTexts c (authPath "audiences")).isEmpty then
    throw ("oidc mode needs a way in: server.auth.oauth_client_id/oauth_client_secret " ++
      "(browser sign-in + issued tokens) and/or server.auth.audiences (ID tokens minted by clients)")
  if oauthId && !isNonempty (getOptional c (authPath "session_secret")) then
    throw ("server.auth.session_secret is required with oauth_client_id (it signs sessions and " ++
      "access tokens)")

/-- Identity modes fail closed. -/
def validateAuth (c : Config) : Except String Unit := do
  let mode := getChoice c (authPath "mode")
  let secret := getOptional c (authPath "session_secret")
  if mode = "none" then validateNone c else .ok ()
  if mode = "token" && (getTokens c (authPath "tokens")).isEmpty then
    throw "server.auth.tokens must list at least one token in token mode"
  (getTokens c (authPath "tokens")).forM validateToken
  if getChoice c (authPath "passwords") ≠ "off" then validatePasswords c else .ok ()
  if secret.any fun s => s ≠ "" && s.utf8ByteSize < 32 then
    throw "server.auth.session_secret must be at least 32 bytes when set"
  if mode = "oidc" then validateOidc c else .ok ()

def validateHttp (u message : String) : Except String Unit :=
  if startsWith "https://" u || startsWith "http://" u then .ok () else throw message

def validate (c : Config) : Except String Unit := do
  let uris := getCount c ["packfile_uri", "max_uris_per_fetch"]
  (refsOf c).validate
  validatePacks c
  if !(getBytes c ["packfile_uri", "uri_min_bytes"] > 0) then
    throw "packfile_uri.uri_min_bytes must be positive"
  if !(1 ≤ uris && uris ≤ 64) then throw "packfile_uri.max_uris_per_fetch must be 1..=64"
  if getText c ["store", "bucket"] = "" then throw "store.bucket must be set"
  validateTls c
  (getOptional c ["server", "public_url"]).toList.forM fun u =>
    validateHttp u ("server.public_url must be an http(s) origin (got " ++ u ++ ")")
  validatePlacement c
  validateUpstream c
  (getTexts c ["server", "cors_origins"]).forM fun o =>
    if validOrigin o then .ok ()
    else throw ("server.cors_origins entries must be https origins (or http://localhost[:port]) " ++
      "with at most one leading `*.` wildcard, got " ++ debug o)
  validateAuth c
  if !(getCount c ["wal", "max_batch"] ≥ 1) then throw "wal.max_batch must be >= 1"
  (getOptional c ["events", "webhook_url"]).toList.forM fun u =>
    validateHttp u "events.webhook_url must be an http(s) URL"

section Checked

variable {c : Config} {key u : String}

omit [CharTables] in
theorem validateUrl_ok (h : validateUrl key (some u) = .ok ()) : upstreamUrl u := by
  unfold validateUrl at h
  simp only [Checks.guard_ok] at h
  simpa using h.1

/-- The upstreams of a valid configuration are reached by `https` or on this machine. -/
theorem validate_upstream (h : validate c = .ok ()) :
    (∀ u, getOptional c ["upstream", "git"] = some u → upstreamUrl u) ∧
      ∀ u, getOptional c ["upstream", "lfs"] = some u → upstreamUrl u := by
  unfold validate at h
  simp only [Checks.check_ok, Checks.guard_ok] at h
  obtain ⟨-, -, -, -, -, -, -, -, hupstream, -⟩ := h
  unfold validateUpstream at hupstream
  simp only [Checks.check_ok] at hupstream
  obtain ⟨hgit, hlfs, -⟩ := hupstream
  constructor
  · intro u hu
    rw [hu] at hgit
    exact validateUrl_ok hgit
  · intro u hu
    rw [hu] at hlfs
    exact validateUrl_ok hlfs

end Checked

end Validate

section Defaults

attribute [local instance] Text.asciiTables

/-- The defaults pass every check. -/
theorem validate_defaults : validate defaults = .ok () := by decide +kernel

end Defaults

end Walgit.HostConfig
