import Walgit.EnvComposition
import Walgit.RepoSettings

/-!
# What settings cannot reach

The sections a repository may not set, the name of the token's variable and every key its settings
do not mention are the host's. The token goes to the upstream of the effective configuration.
-/
namespace Walgit.HostConfig

open Document SortedMap Text Serde

section Reach

variable {ρ : Type} (T : Toml ρ) (env : String → Option String) (host : Config)

/-- The host's own document gives back what it has at a path. -/
def Restated (q : List String) : Prop := (again T host).find q = host.find q

/-- A field is the host's; a byte size if the host's document restates it. -/
def Kept (cfg : Config) (q : List String) : Prop :=
  ∀ type d, config.find q = some (.field type d) → (type = .bytes → Restated T host q) →
    cfg.find q = host.find q

/-- What settings leave alone. -/
structure Confined [CharTables] (overrides : Table ρ) (cfg : Config) : Prop where
  sections : ∀ k ∉ settingsSections, ∀ q, Kept T host cfg (k :: q)
  tokenEnv : (∀ r, lookup "upstream" overrides ≠ some (.plain r)) →
    getOptional cfg ["upstream", "token_env"] = getOptional host ["upstream", "token_env"]
  unmentioned : ∀ q, covers overrides q = false → (host.find q).isSome → Kept T host cfg q
  budget : getChoice host ["cache", "mode"] = "disk" ∨ getChoice host ["cache", "mode"] = "budget" ∨
      covers overrides ["maintenance", "disk"] = false →
    Restated T host ["cache", "max_bytes"] → cacheBudgetBytes cfg = cacheBudgetBytes host
  follow : ∀ prefetched sent, followOp env cfg prefetched = .ok (some sent) →
    getOptional host ["upstream", "git"] = some sent.url ∨
      covers overrides ["upstream", "git"] = true ∧ upstreamUrl sent.url
  lfs : ∀ missing sent, lfsBatch env cfg missing = .ok (some sent) →
    ∃ u, sent.url = u ++ "/objects/batch" ∧ (getOptional host ["upstream", "lfs"] = some u ∨
      covers overrides ["upstream", "lfs"] = true ∧ upstreamUrl u)

end Reach

/-- What a text covers; a blank one covers nothing. -/
def settingsOf {ρ : Type} (T : SettingsToml ρ) (text : String) : Table ρ :=
  if isBlank text then [] else (T.table text).getD []

section Results

variable [CharTables] {ρ : Type} {T : SettingsToml ρ} {env : String → Option String}
  {host cfg : Config} {text : String} {overrides : Table ρ} {q : List String} {k : String}

theorem withSettings_ok (h : withSettings T host text = .ok cfg) :
    isBlank text = true ∧ cfg = host ∨
      isBlank text = false ∧ ∃ overrides, T.table text = some overrides ∧
        foreignSection overrides = none ∧ namesToken overrides = false ∧
        T.decode config (.table (merge (document T.toToml host) overrides)) = some cfg ∧
        validate cfg = .ok () := by
  unfold withSettings at h
  split_ifs at h with hblank hsize
  · exact .inl ⟨hblank, (Except.ok.inj h).symm⟩
  · refine .inr ⟨by simpa using hblank, ?_⟩
    split at h
    · cases h
    · rename_i overrides htable
      split at h
      · cases h
      · rename_i hforeign
        split_ifs at h with htoken
        split at h
        · cases h
        · rename_i c hc
          cases hvalid : validate c with
          | error e => simp [hvalid, Except.mapError, Except.map] at h
          | ok u =>
            simp only [hvalid, Except.mapError, Except.map, Except.ok.injEq] at h
            subst h
            exact ⟨overrides, htable, hforeign, by simpa using htoken, hc, hvalid⟩

omit [CharTables] in
theorem lookup_foreign (h : foreignSection overrides = none) (hk : k ∉ settingsSections) :
    lookup k overrides = none := by
  rw [← Option.not_isSome_iff_eq_none, lookup_isSome]
  intro hmem
  have := List.find?_eq_none.mp h k hmem
  simp [hk] at this

omit [CharTables] in
/-- What the settings do not mention is the host's. -/
theorem kept_of_again (hfits : kinds.fits config host)
    (h : cfg.find q = (again T.toToml host).find q) : Kept T.toToml host cfg q := by
  intro type d hfield hbytes
  rw [h]
  by_cases hexact : type = .bytes
  · exact hbytes hexact
  · obtain ⟨cs, rfl⟩ := fits_record hfits
    refine find_decode_encode config_tidy rfl hfits (decode_document hfits) hfield ?_
    simpa [kinds, FieldType.exact] using hexact

omit [CharTables] in
theorem getOptional_of_find (h : cfg.find q = host.find q) :
    getOptional cfg q = getOptional host q := by
  rw [getOptional, getOptional, get, get, h]

omit [CharTables] in
theorem getChoice_of_find (h : cfg.find q = host.find q) : getChoice cfg q = getChoice host q := by
  rw [getChoice, getChoice, get, get, h]

omit [CharTables] in
theorem cacheBudget_of_find (hmode : cfg.find ["cache", "mode"] = host.find ["cache", "mode"])
    (hdisk : getChoice host ["cache", "mode"] = "disk" ∨
      getChoice host ["cache", "mode"] = "budget" ∨
        cfg.find ["maintenance", "disk"] = host.find ["maintenance", "disk"])
    (hmax : cfg.find ["cache", "max_bytes"] = host.find ["cache", "max_bytes"]) :
    cacheBudgetBytes cfg = cacheBudgetBytes host := by
  have hbytes : getBytes cfg ["cache", "max_bytes"] = getBytes host ["cache", "max_bytes"] := by
    rw [getBytes, getBytes, get, get, hmax]
  have hsame : cacheIsDisk cfg = cacheIsDisk host := by
    rw [cacheIsDisk, cacheIsDisk, getChoice_of_find hmode]
    rcases hdisk with h | h | h
    · simp [h]
    · simp [h]
    · rw [getChoice_of_find h]
  rw [cacheBudgetBytes, cacheBudgetBytes, hsame, hbytes]

omit [CharTables] in
/-- A host has every field of its sections. -/
theorem host_field (hfits : kinds.fits config host) {section_ field_ : String}
    {fields fields' : List (String × Section)} {s : Section} (hconfig : config = .struct fields)
    (hsection : lookup section_ fields = some (.struct fields'))
    (hfield : lookup field_ fields' = some s) : (host.find [section_, field_]).isSome := by
  obtain ⟨cs, rfl⟩ := fits_record hfits
  rw [hconfig] at hfits
  obtain ⟨c, hc, hfits'⟩ := fits_struct hfits hsection
  cases c with
  | value => cases hfits'
  | record cs' =>
    obtain ⟨c', hc', -⟩ := fits_struct hfits' hfield
    simp [Conf.find, hc, hc']

/-- Where a request of the follow loop goes. -/
theorem followOp_url {prefetched : Bool} {sent : Sent}
    (h : followOp env cfg prefetched = .ok (some sent)) :
    getOptional cfg ["upstream", "git"] = some sent.url := by
  unfold followOp at h
  split at h
  · cases h
  · rename_i upstream hgit
    split_ifs at h
    · cases h
    · obtain ⟨token, -, hsent⟩ := Checks.map_eq_ok.mp h
      cases hsent
      exact hgit

theorem lfsBatch_url {missing : List (String × ℕ)} {sent : Sent}
    (h : lfsBatch env cfg missing = .ok (some sent)) :
    ∃ u, sent.url = u ++ "/objects/batch" ∧ getOptional cfg ["upstream", "lfs"] = some u := by
  unfold lfsBatch at h
  split at h
  · rename_i u hlfs
    refine ⟨u, ?_, hlfs⟩
    split_ifs at h with hmissing
    · cases h
    · unfold batchInner at h
      rw [if_neg hmissing] at h
      cases htoken : getOptional cfg ["upstream", "token_env"] with
      | none =>
        rw [htoken] at h
        cases h
        rfl
      | some name =>
        rw [htoken] at h
        obtain ⟨token, -, hsent⟩ := Checks.map_eq_ok.mp h
        cases hsent
        rfl
  · cases h

section Merged

variable (hfits : kinds.fits config host) (hdistinct : (Value.table overrides).Distinct)
  (hforeign : foreignSection overrides = none) (htoken : namesToken overrides = false)
  (hcfg : T.decode config (.table (merge (document T.toToml host) overrides)) = some cfg)

include hfits hdistinct hcfg

omit [CharTables] in
theorem unmentioned_again (hq : covers overrides q = false) (hhas : (host.find q).isSome) :
    cfg.find q = (again T.toToml host).find q := by
  have hown := decode_document (T := T.toToml) hfits
  obtain ⟨cs, rfl⟩ := fits_record hfits
  exact find_merge config_tidy rfl hfits hdistinct hown hcfg hq hhas

include hforeign

omit [CharTables] in
theorem section_again (hk : k ∉ settingsSections) (q : List String) :
    cfg.find (k :: q) = (again T.toToml host).find (k :: q) :=
  find_merge_other rfl hdistinct.1 (decode_document hfits) hcfg (lookup_foreign hforeign hk) q

include htoken

theorem confined_of_merge (hvalid : validate cfg = .ok ()) :
    Confined T.toToml env host overrides cfg := by
  have hkept : ∀ {q}, covers overrides q = false → (host.find q).isSome →
      Kept T.toToml host cfg q := fun hq hhas =>
    kept_of_again hfits (unmentioned_again hfits hdistinct hcfg hq hhas)
  have hsection : ∀ k ∉ settingsSections, ∀ q, Kept T.toToml host cfg (k :: q) := fun k hk q =>
    kept_of_again hfits (section_again hfits hdistinct hforeign hcfg hk q)
  have hgit : (host.find ["upstream", "git"]).isSome := host_field hfits rfl rfl rfl
  have hlfs : (host.find ["upstream", "lfs"]).isSome := host_field hfits rfl rfl rfl
  have htokenEnv : (host.find ["upstream", "token_env"]).isSome := host_field hfits rfl rfl rfl
  have hdisk : (host.find ["maintenance", "disk"]).isSome := host_field hfits rfl rfl rfl
  obtain ⟨hurl, hurl'⟩ := validate_upstream hvalid
  refine ⟨hsection, ?_, fun q => hkept, ?_, ?_, ?_⟩
  · intro hplain
    have hcovers : covers overrides ["upstream", "token_env"] = false := by
      unfold covers
      split
      · rfl
      · rename_i r hr
        exact absurd hr (hplain r)
      · rename_i u hu
        simp only [namesToken, hu] at htoken
        simp [covers, Option.not_isSome_iff_eq_none.mp (Bool.not_eq_true _ ▸ htoken)]
    exact getOptional_of_find (hkept hcovers htokenEnv _ _ rfl (by simp))
  · intro hmode hrestated
    have hcache := hsection "cache" (by decide)
    refine cacheBudget_of_find (hcache ["mode"] _ _ rfl (by simp)) ?_
      (hcache ["max_bytes"] _ _ rfl fun _ => hrestated)
    refine hmode.imp_right (Or.imp_right ?_)
    intro hcovers
    exact hkept hcovers hdisk _ _ rfl (by simp)
  · intro prefetched sent hsent
    have hcfgGit := followOp_url hsent
    cases hcovers : covers overrides ["upstream", "git"] with
    | false =>
      left
      rw [← getOptional_of_find (hkept hcovers hgit _ _ rfl (by simp)), hcfgGit]
    | true => exact .inr ⟨rfl, hurl _ hcfgGit⟩
  · intro missing sent hsent
    obtain ⟨u, hsentUrl, hcfgLfs⟩ := lfsBatch_url hsent
    refine ⟨u, hsentUrl, ?_⟩
    cases hcovers : covers overrides ["upstream", "lfs"] with
    | false =>
      left
      rw [← getOptional_of_find (hkept hcovers hlfs _ _ rfl (by simp)), hcfgLfs]
    | true => exact .inr ⟨rfl, hurl' _ hcfgLfs⟩

end Merged

end Results

section Redirect

attribute [local instance] Text.asciiTables

def redirectText : String :=
  "[maintenance]\ndisk = \"ssd\"\n[upstream]\ngit = \"https://mirror.example/monorepo.git\"\n"

def redirectTable : Table FieldValue := [
  ("maintenance", .table [("disk", .plain (.choice "ssd"))]),
  ("upstream", .table [("git", .plain (.optionalText (some "https://mirror.example/monorepo.git")))])]

/-- One text is read, every other one is refused. -/
def redirectToml : SettingsToml FieldValue where
  toToml := literalToml
  table text := if text = redirectText then some redirectTable else none
  distinct h := by
    split_ifs at h
    cases h
    simp [redirectTable, Value.Distinct, DistinctAll]

/-- A host that follows an upstream with a token of its own. -/
def followingHost : Config :=
  update (fun _ => .optionalText (some "WALGIT_UPSTREAM_TOKEN")) ["upstream", "token_env"]
    (update (fun _ => .optionalText (some "https://github.com/acme/monorepo.git"))
      ["upstream", "git"]
      (update (fun _ => .texts ["refs/heads/main"]) ["upstream", "follow"] defaults))

def followingEnv (name : String) : Option String :=
  if name = "WALGIT_UPSTREAM_TOKEN" then some "s3cret" else none

theorem redirect_result :
    (withSettings redirectToml followingHost redirectText).toOption.map
        (fun cfg => (cacheBudgetBytes cfg, followOp followingEnv cfg false)) =
      some (0, .ok (some ⟨"https://mirror.example/monorepo.git", some "s3cret"⟩)) := by
  decide +kernel

theorem redirect_accepted :
    ∃ cfg, withSettings redirectToml followingHost redirectText = .ok cfg ∧
      cacheBudgetBytes cfg = 0 ∧ followOp followingEnv cfg false =
        .ok (some ⟨"https://mirror.example/monorepo.git", some "s3cret"⟩) := by
  obtain ⟨cfg, hcfg, hresult⟩ := Option.map_eq_some_iff.mp redirect_result
  obtain ⟨hbudget, hfollow⟩ := Prod.mk.inj hresult
  exact ⟨cfg, Checks.toOption_eq_some.mp hcfg, hbudget, hfollow⟩

end Redirect

end Walgit.HostConfig
