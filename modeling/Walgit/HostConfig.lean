import Mathlib.Data.Nat.Notation
import Walgit.Shapes

/-!
# The fields of `walgit.toml`

Every section with its fields, their types and their defaults. A document may leave out any of
them, except what a pack group of `[refs.packfiles]` needs; a name that is not listed is refused.
-/
namespace Walgit.HostConfig

open Document

structure StaticToken where
  user : String
  token : String
  tokenEnv : Option String
  write : Bool
  admin : Bool
  deriving DecidableEq, Repr

inductive FieldType where
  | switch
  /-- An integer of so many bits; a document holds at most 63. -/
  | count (bits : ℕ)
  | fraction
  | duration
  | bytes
  | address
  | text
  | optionalText
  | texts
  | optionalTexts
  | choice (names : List String)
  | choices (names : List String)
  | tokens
  deriving DecidableEq, Repr

inductive FieldValue where
  | switch (on : Bool)
  | count (n : ℕ)
  /-- A quotient; none is a number that is not finite. -/
  | fraction (q : Option (ℤ × ℕ))
  | duration (nanos : ℕ)
  | bytes (n : ℕ)
  | address (ip : String) (port : ℕ)
  | text (s : String)
  | optionalText (s : Option String)
  | texts (l : List String)
  | optionalTexts (l : Option (List String))
  | choice (name : String)
  | choices (names : List String)
  | tokens (l : List StaticToken)
  deriving DecidableEq, Repr

/-- The values of a type. -/
def FieldType.of : FieldType → FieldValue → Bool
  | .switch, .switch _ => true
  | .count bits, .count n => decide (n < 2 ^ bits)
  | .fraction, .fraction q => q.all fun q => decide (0 < q.2)
  | .duration, .duration _ => true
  | .bytes, .bytes n => decide (n < 2 ^ 64)
  | .address, .address _ _ => true
  | .text, .text _ => true
  | .optionalText, .optionalText _ => true
  | .texts, .texts _ => true
  | .optionalTexts, .optionalTexts _ => true
  | .choice names, .choice name => names.contains name
  | .choices names, .choices l => l.all names.contains
  | .tokens, .tokens _ => true
  | _, _ => false

def FieldType.omitted : FieldType → Option FieldValue
  | .optionalText => some (.optionalText none)
  | .optionalTexts => some (.optionalTexts none)
  | _ => none

/-- A byte size is written with one decimal of its unit; every other value is written in full. -/
def FieldType.exact (t : FieldType) : Bool := t ≠ .bytes

def kinds : Kinds FieldType FieldValue := ⟨FieldType.of, FieldType.omitted, FieldType.exact⟩

abbrev Section := Shape FieldType FieldValue

/-- A configuration as `Config` holds it. -/
abbrev Config := Conf FieldValue

def field (t : FieldType) (d : FieldValue) : Section := .field t (some d)

def switch (on : Bool) : Section := field .switch (.switch on)

def count (n : ℕ) : Section := field (.count 63) (.count n)

/-- A `u32`. -/
def count32 (n : ℕ) : Section := field (.count 32) (.count n)

def fraction (num : ℤ) (den : ℕ) : Section := field .fraction (.fraction (some (num, den)))

def millis (n : ℕ) : Section := field .duration (.duration (n * 1000000))

def seconds (n : ℕ) : Section := millis (n * 1000)

def minutes (n : ℕ) : Section := seconds (n * 60)

def hours (n : ℕ) : Section := minutes (n * 60)

def bytes (n : ℕ) : Section := field .bytes (.bytes n)

def mib (n : ℕ) : Section := bytes (n * 2 ^ 20)

def gib (n : ℕ) : Section := mib (n * 2 ^ 10)

def text (s : String) : Section := field .text (.text s)

def optionalText : Section := field .optionalText (.optionalText none)

def texts (l : List String) : Section := field .texts (.texts l)

def choice (names : List String) (name : String) : Section := field (.choice names) (.choice name)

def tlsConfig : Section := .struct [
  ("mode", choice ["off", "self_signed", "files"] "off"),
  ("cert", optionalText),
  ("key", optionalText),
  ("hostnames", texts [])]

def authConfig : Section := .struct [
  ("mode", choice ["none", "token", "oidc"] "none"),
  ("anonymous_read", switch true),
  ("tokens", field .tokens (.tokens [])),
  ("issuer", text ""),
  ("allowed_domains", texts []),
  ("allowed_emails", texts []),
  ("audiences", texts []),
  ("write_domains", field .optionalTexts (.optionalTexts none)),
  ("trusted_forwarders", texts []),
  ("admin_emails", texts []),
  ("admin_domains", texts []),
  ("session_secret", optionalText),
  ("session_ttl", hours 720),
  ("access_token_ttl", hours 2160),
  ("oauth_client_id", optionalText),
  ("oauth_client_secret", optionalText),
  ("passwords", choice ["off", "admin", "open"] "off")]

def serverConfig : Section := .struct [
  ("listen", field .address (.address "127.0.0.1" 8080)),
  ("http2", switch true),
  ("max_concurrent_requests", count 512),
  ("max_concurrent_per_repo", count 64),
  ("request_timeout", hours 1),
  ("drain_timeout", seconds 20),
  ("max_push_bytes", gib 64),
  ("roles", field (.choices ["serve", "compact", "maintain", "events"]) (.choices [])),
  ("auth", authConfig),
  ("public_url", optionalText),
  ("auto_create_on_push", switch false),
  ("accel_redirect", switch false),
  ("cors_origins", texts []),
  ("tls", tlsConfig)]

def gcsConfig : Section := .struct [
  ("endpoint", text "https://storage.googleapis.com"),
  ("direct_connectivity", switch true),
  ("signing_service_account", optionalText),
  ("bulk_clients", count 4),
  ("bulk_concurrency", count 32)]

def s3Config : Section := .struct [
  ("endpoint", text "http://127.0.0.1:9000"),
  ("region", text "us-east-1"),
  ("access_key_env", text "AWS_ACCESS_KEY_ID"),
  ("secret_key_env", text "AWS_SECRET_ACCESS_KEY"),
  ("force_path_style", switch true),
  ("emulate_conditional_writes", switch false)]

def storeConfig : Section := .struct [
  ("backend", choice ["gcs", "s3", "memory"] "gcs"),
  ("bucket", text "walgit"),
  ("prefix", text ""),
  ("gcs", gcsConfig),
  ("s3", s3Config),
  ("max_retries", count32 8),
  ("multipart_threshold", mib 64),
  ("multipart_part_size", mib 32)]

def cacheConfig : Section := .struct [
  ("dir", text "/tmp/walgit"),
  ("mode", choice ["auto", "budget", "disk"] "auto"),
  ("max_bytes", gib 20),
  ("disk_high_watermark", fraction 9 10),
  ("evict_idle_after", hours 6),
  ("prewarm", texts []),
  ("prewarm_parallelism", count 2),
  ("prewarm_ready_timeout", seconds 0),
  ("ref_advert_entries", count 256),
  ("object_info_entries", count 4096),
  ("remote_block_bytes", gib 1),
  ("remote_object_bytes", mib 256),
  ("shared_render_cache", switch true),
  ("store_mount", optionalText)]

def walConfig : Section := .struct [
  ("batch_window", millis 5),
  ("max_batch", count 64),
  ("push_broker_url", optionalText),
  ("push_broker_token", optionalText),
  ("push_broker_buffer_bytes", mib 64),
  ("snapshot_every_entries", count 256),
  ("checkpoint_interval", hours 1),
  ("checkpoint_tail_bytes", mib 8),
  ("cas_max_retries", count32 16),
  ("fsck_objects", switch true),
  ("check_connectivity", switch true),
  ("freshness_ttl", seconds 0),
  ("prefetch_packs", switch true),
  ("prefetch_max_bytes", gib 1),
  ("remote_objects", switch true)]

def packsConfig : Section := .struct [
  ("enabled", switch true),
  ("geometric_factor", count32 2),
  ("fold_when_fresh_packs_reach", count 16),
  ("fold_when_max_age", hours 24),
  ("fold_needs_at_least_packs", count 2),
  ("segment_max_bytes", gib 2),
  ("segment_target_bytes", bytes 0),
  ("segment_delta_window", count32 250),
  ("segment_delta_depth", count32 50),
  ("segment_delta_window_memory", gib 2),
  ("segment_reuse_objects", switch true),
  ("segment_threads", count 0),
  ("freeze_when_settled", hours (14 * 24)),
  ("frozen_coverage_target", fraction 3 4),
  ("resegment_when_frozen_folds_exceed", fraction 1 2),
  ("lease_ttl", minutes 10)]

def packGroupKinds : List String := ["code", "meta"]

def packGroupConfig : Section := .struct [
  ("kind", .field (.choice packGroupKinds) none),
  ("include", .field .texts none),
  ("subtract", texts [])]

def packGroup (kind : String) (included : List String) : Config := .record [
  ("kind", .value (.choice kind)),
  ("include", .value (.texts included)),
  ("subtract", .value (.texts []))]

def refsConfig : Section := .struct [
  ("advertise", texts ["refs/heads/*", "refs/tags/*"]),
  ("packfiles", .map packGroupConfig [
    ("code", packGroup "code" ["refs/*"]),
    ("meta", packGroup "meta" ["refs/meta", "refs/meta/*"])])]

def packfileUriConfig : Section := .struct [
  ("uri_min_bytes", mib 32),
  ("max_uris_per_fetch", count 64)]

def maintenanceConfig : Section := .struct [
  ("interval", minutes 1),
  ("checkpoints", switch true),
  ("max_pack_bytes", bytes 0),
  ("disk", choice ["tmpfs", "ssd"] "tmpfs"),
  ("host", optionalText),
  ("fsck_interval", hours 168),
  ("follow_interval", seconds 30)]

def defaultAllRepos : List String := ["*"]

def placementConfig : Section := .struct [
  ("serve", texts defaultAllRepos),
  ("serve_exclude", texts []),
  ("maintain", texts defaultAllRepos),
  ("maintain_exclude", texts [])]

def lfsConfig : Section := .struct [
  ("enabled", switch true),
  ("serve_via", choice ["proxy", "signed_url"] "proxy"),
  ("signed_url_ttl", hours 1),
  ("max_object_bytes", gib 16)]

def gitConfig : Section := .struct [
  ("binary", text "git"),
  ("upload_pack_engine", choice ["gix", "git", "auto"] "auto"),
  ("allow_filter", switch true),
  ("allow_any_sha1_in_want", switch false),
  ("object_format", choice ["sha1", "sha256"] "sha1"),
  ("commit_graph", switch true),
  ("commit_graph_changed_paths", switch false),
  ("history_pack", switch true),
  ("max_wants", count 0)]

def upstreamConfig : Section := .struct [
  ("git", optionalText),
  ("lfs", optionalText),
  ("token_env", optionalText),
  ("follow", texts [])]

def telemetryConfig : Section := .struct [
  ("log_format", choice ["json", "pretty"] "json"),
  ("log_filter", text "info,walgit=debug"),
  ("metrics", switch true),
  ("trace_project", optionalText),
  ("lock_wait_warn", seconds 1)]

def eventsConfig : Section := .struct [
  ("webhook_url", optionalText),
  ("webhook_secret", optionalText),
  ("sweep_interval", minutes 5)]

def config : Section := .struct [
  ("server", serverConfig),
  ("store", storeConfig),
  ("cache", cacheConfig),
  ("wal", walConfig),
  ("packs", packsConfig),
  ("refs", refsConfig),
  ("packfile_uri", packfileUriConfig),
  ("maintenance", maintenanceConfig),
  ("placement", placementConfig),
  ("lfs", lfsConfig),
  ("git", gitConfig),
  ("upstream", upstreamConfig),
  ("telemetry", telemetryConfig),
  ("events", eventsConfig)]

theorem config_tidy : kinds.tidy config := by decide +kernel

/-- `Config::default()`. -/
def defaults : Config := (config.absent).getD (.record [])

/-- Every default is of its field's type. -/
theorem defaults_fits : kinds.fits config defaults := by decide +kernel

end Walgit.HostConfig
