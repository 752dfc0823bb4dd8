import Walgit.ConfigChecks
import Walgit.Merges

/-!
# Settings of a repository

`Config::with_settings` merges a repository's settings over the host's configuration. Only some
sections may be set, and not the name of the variable that holds the token for the upstream; the
upstream that the host then sends this token to may be set, and so may `maintenance.disk`, which a
cache of mode `auto` follows.
-/
namespace Walgit.HostConfig

open Document SortedMap Text Serde

/-- The sections a repository's settings may override. -/
def settingsSections : List String := ["maintenance", "packs", "upstream", "refs", "packfile_uri"]

def settingsMaxBytes : ℕ := 16 * 1024

/-- With whole documents read from their text. -/
structure SettingsToml (ρ : Type) extends Toml ρ where
  table : String → Option (Table ρ)
  distinct {text : String} {t : Table ρ} : table text = some t → (Value.table t).Distinct

section Code

variable [CharTables] {ρ : Type} (T : SettingsToml ρ)

/-- The first section that a repository may not set. -/
def foreignSection (overrides : Table ρ) : Option String :=
  (overrides.map Prod.fst).find? (· ∉ settingsSections)

/-- The settings name a variable of the host's environment. -/
def namesToken (overrides : Table ρ) : Bool :=
  match lookup "upstream" overrides with
  | some (.table u) => (lookup "token_env" u).isSome
  | _ => false

def withSettings (self : Config) (settingsToml : String) : Except String Config :=
  if isBlank settingsToml then .ok self
  else if !(settingsToml.utf8ByteSize ≤ settingsMaxBytes) then
    .error ("settings document larger than " ++ toString settingsMaxBytes ++ " bytes")
  else
    match T.table settingsToml with
    | none => .error "settings: parsing TOML"
    | some overrides =>
      match foreignSection overrides with
      | some k =>
        .error ("settings: section [" ++ k ++ "] may not be set per repository (allowed: " ++
          ", ".intercalate settingsSections ++ ")")
      | none =>
        if namesToken overrides then
          .error ("settings: upstream.token_env is host-only (it names an env var on the " ++
            "maintaining host)")
        else
          match T.decode config (.table (merge (document T.toToml self) overrides)) with
          | none => .error "settings: applying"
          | some cfg =>
            (validate cfg).mapError (fun _ => "settings: validating the effective config") |>.map
              fun _ => cfg

def cacheIsDisk (c : Config) : Bool :=
  match getChoice c ["cache", "mode"] with
  | "disk" => true
  | "budget" => false
  | _ => getChoice c ["maintenance", "disk"] = "ssd"

/-- Zero is no limit. -/
def cacheBudgetBytes (c : Config) : ℕ :=
  if cacheIsDisk c then 0 else getBytes c ["cache", "max_bytes"]

/-- A request to an upstream with the token it carries. -/
structure Sent where
  url : String
  token : Option String
  deriving DecidableEq, Repr

variable (env : String → Option String)

/-- The value of the environment variable that `upstream.token_env` names. -/
def secret (name : String) : Except String String :=
  match env name with
  | none =>
    .error ("upstream.token_env " ++ debug name ++ " is not set in this host's environment")
  | some v =>
    if trim v = "" then .error ("upstream.token_env " ++ debug name ++ " is empty")
    else .ok (trim v)

def tokenFor (cfg : Config) : Except String (Option String) :=
  match getOptional cfg ["upstream", "token_env"] with
  | none => .ok none
  | some name => ((secret env name).map some).mapError ("upstream token: " ++ ·)

/-- The fetch of the `follow` op, unless the loop has just made it. -/
def followOp (cfg : Config) (prefetched : Bool) : Except String (Option Sent) :=
  match getOptional cfg ["upstream", "git"] with
  | none => .error "follow: no upstream.git for this repository"
  | some upstream =>
    if (getTexts cfg ["upstream", "follow"]).isEmpty then
      .error "follow: upstream.follow is empty for this repository"
    else if prefetched then .ok none
    else (tokenFor env cfg).map fun token => some ⟨upstream, token⟩

/-- The request for the objects that are missing; none is made without the token it needs. -/
def batchInner (upstream : String) (tokenEnv : Option String) (objects : List (String × ℕ)) :
    Except String (Option Sent) :=
  if objects.isEmpty then .ok none
  else
    match tokenEnv with
    | none => .ok (some ⟨upstream ++ "/objects/batch", none⟩)
    | some name => (secret env name).map fun token => some ⟨upstream ++ "/objects/batch", some token⟩

/-- What the LFS endpoint asks the upstream for. -/
def lfsBatch (cfg : Config) (missing : List (String × ℕ)) : Except String (Option Sent) :=
  match getOptional cfg ["upstream", "lfs"] with
  | some upstream =>
    if missing.isEmpty then .ok none
    else batchInner env upstream (getOptional cfg ["upstream", "token_env"]) missing
  | none => .ok none

end Code

end Walgit.HostConfig
