import Walgit.FetchViews
import Walgit.RefsConfig

/-!
# Ref advertisements

`info/refs` and `ls-refs` render the refs of a handle's copy and keep the result in a
cache under the manifest version the request read. Nothing is locked between that read, the
lookup in the cache, the read of the settings and the rendering, so other calls may come
in between.
-/
namespace Walgit

open Text

inductive Service where
  | uploadPack
  | receivePack
  deriving DecidableEq, Repr

structure LsRefsArgs where
  refPrefixes : List String
  symrefs : Bool
  peel : Bool
  unborn : Bool
  deriving DecidableEq, Repr

structure LsRefsLine where
  name : String
  oid : String
  peeled : String
  symrefTarget : Option String
  deriving DecidableEq, Repr

/-- What renders an advertisement besides the refs: the object format, the program's version,
what a tag peels to and the advertised selectors of a manifest, if its settings are valid. -/
structure AdvertEnv where
  format : ObjectFormat
  walgitVersion : String
  peel : String → Option String
  advertise : Manifest → Option (List String)

namespace RefSnapshot

variable (snap : RefSnapshot)

/-- The range of the sorted refs whose names start with a prefix. -/
def prefixRange (p : String) : ℕ × ℕ :=
  let start := (snap.refs.takeWhile fun r => r.name < p).length
  (start, start + ((snap.refs.drop start).takeWhile fun r => startsWith p r.name).length)

/-- The refs in the ranges of the prefixes, each of them once. -/
def selectPrefixes (prefixes : List String) : List Ref :=
  let ranges := sortByKey Prod.fst (sortByKey Prod.snd (prefixes.map snap.prefixRange))
  (ranges.foldl (fun (acc : List Ref × ℕ) range =>
    let a := max range.1 acc.2
    if a < range.2 then (acc.1 ++ (snap.refs.drop a).take (range.2 - a), range.2) else acc)
    ([], 0)).1

def lsRefs (args : LsRefsArgs) : List LsRefsLine :=
  let headOid :=
    if snap.headTarget = "" then none
    else (snap.refs.find? fun r => r.name = snap.headTarget).map Ref.oid
  let selected :=
    if args.refPrefixes = [] then snap.refs else snap.selectPrefixes args.refPrefixes
  let lines := (selected.filter fun r => r.name ≠ "HEAD").map fun r =>
    (⟨r.name, r.oid, r.peeled, none⟩ : LsRefsLine)
  let headMatches := args.refPrefixes = [] || args.refPrefixes.any fun p => startsWith p "HEAD"
  if headMatches && snap.headTarget ≠ "" then
    match headOid with
    | some oid => lines ++ [⟨"HEAD", oid, "", some snap.headTarget⟩]
    | none =>
      if args.unborn then lines ++ [⟨"HEAD", "unborn", "", some snap.headTarget⟩] else lines
  else lines

end RefSnapshot

def capabilitiesFor (env : AdvertEnv) : Service → String
  | .uploadPack =>
    "multi_ack_detailed side-band-64k thin-pack ofs-delta shallow deepen-since deepen-not " ++
      "no-progress include-tag allow-tip-sha1-in-want allow-reachable-sha1-in-want filter " ++
      "object-format=" ++ env.format.text ++ " agent=walgit/" ++ env.walgitVersion
  | .receivePack =>
    "report-status report-status-v2 delete-refs side-band-64k quiet atomic ofs-delta " ++
      "push-options object-format=" ++ env.format.text ++ " agent=walgit/" ++ env.walgitVersion

/-- The lines of a v0 advertisement. -/
def advertiseRefsV0 (env : AdvertEnv) (service : Service) (selectors : List String)
    (snap : RefSnapshot) : List String :=
  let refs :=
    if service = .uploadPack then
      snap.refs.filter fun r => RefsConfig.selectorsMatch selectors r.name snap.headTarget
    else snap.refs
  let capsLine := "\x00" ++ capabilitiesFor env service ++ "\n"
  match refs with
  | [] => [String.ofList (List.replicate env.format.oidLen '0') ++ " capabilities^\x7b\x7d" ++ capsLine]
  | first :: rest =>
    let line (r : Ref) (tail : String) : List String :=
      (r.oid ++ " " ++ r.name ++ tail) ::
        (if r.peeled ≠ "" && r.peeled ≠ r.oid then
          [r.peeled ++ " " ++ r.name ++ "^\x7b\x7d\n"] else [])
    let lines := line first capsLine ++ rest.flatMap fun r => line r "\n"
    if snap.headTarget ≠ "" && service = .uploadPack then
      match refs.find? fun r => r.name = snap.headTarget with
      | some r => lines ++ [r.oid ++ " HEAD\n"]
      | none => lines
    else lines

/-- `RefAdvertKey`; an unknown version is the empty text, which is no version's. -/
structure RefAdvertKey where
  version : Option ℕ
  variant : ℕ
  prefixes : List String
  symrefs : Bool
  peel : Bool
  unborn : Bool
  deriving DecidableEq, Repr

/-- A request for an advertisement. -/
inductive AdvertRequest where
  | infoRefs (service : Service)
  | lsRefs (args : LsRefsArgs)
  deriving DecidableEq, Repr

/-- A cached advertisement. -/
inductive Advert where
  | v0 (lines : List String)
  | lsRefs (lines : List LsRefsLine)
  deriving DecidableEq, Repr

namespace AdvertRequest

def v0Key (version : Option ℕ) (service : Service) : RefAdvertKey :=
  ⟨version, if service = .uploadPack then 0 else 1, [], false, false, false⟩

def v2Key (version : Option ℕ) (args : LsRefsArgs) : RefAdvertKey :=
  ⟨version, 2, args.refPrefixes, args.symrefs, args.peel, args.unborn⟩

def key (version : Option ℕ) : AdvertRequest → RefAdvertKey
  | infoRefs service => v0Key version service
  | lsRefs args => v2Key version args

/-- The whole request is in its key. -/
theorem key_inj {v v' : Option ℕ} {r r' : AdvertRequest} (h : r.key v = r'.key v') :
    v = v' ∧ r = r' := by
  cases r with
  | infoRefs service =>
    cases r' with
    | infoRefs service' =>
      simp only [key, v0Key, RefAdvertKey.mk.injEq] at h
      refine ⟨h.1, ?_⟩
      cases service <;> cases service' <;> simp_all
    | lsRefs args' =>
      simp only [key, v0Key, v2Key, RefAdvertKey.mk.injEq] at h
      obtain ⟨-, hvariant, -⟩ := h
      split_ifs at hvariant
      all_goals omega
  | lsRefs args =>
    cases r' with
    | infoRefs service' =>
      simp only [key, v0Key, v2Key, RefAdvertKey.mk.injEq] at h
      obtain ⟨-, hvariant, -⟩ := h
      split_ifs at hvariant
      all_goals omega
    | lsRefs args' =>
      simp only [key, v2Key, RefAdvertKey.mk.injEq, true_and] at h
      obtain ⟨hv, hprefixes, hsymrefs, hpeel, hunborn⟩ := h
      refine ⟨hv, ?_⟩
      cases args
      cases args'
      simp_all

/-- The advertisement of the refs; an upload-pack one takes only the selected refs. -/
def render (env : AdvertEnv) (selectors : List String) (refs : RefState) : AdvertRequest → Advert
  | infoRefs service =>
    .v0 (advertiseRefsV0 env service selectors (Snapshot.ofRefs env.format env.peel refs))
  | lsRefs args => .lsRefs ((Snapshot.ofRefs env.format env.peel refs).lsRefs args)

/-- Whether the settings of the manifest decide which refs are rendered. -/
def selects : AdvertRequest → Bool
  | infoRefs .uploadPack => true
  | _ => false

/-- The advertisement a manifest and its refs have. -/
def Of (env : AdvertEnv) (m : Manifest) (refs : RefState) (request : AdvertRequest)
    (advert : Advert) : Prop :=
  ∃ selectors, (request.selects = true → env.advertise m = some selectors) ∧
    advert = request.render env selectors refs

end AdvertRequest

/-- How far a request has come since its sync. -/
inductive AdvertPhase where
  | keyed (h : ℕ) (request : AdvertRequest) (version : Option ℕ)
  | missed (h : ℕ) (request : AdvertRequest) (version : Option ℕ)
  | configured (h : ℕ) (request : AdvertRequest) (version : Option ℕ) (selectors : List String)

/-- The instances, the requests in progress, one cache and what was answered. A client that does
not ask for every ref gets fewer of the lines. -/
structure Adverts where
  cluster : Cluster
  requests : ℕ → Option AdvertPhase
  cache : RefAdvertKey → Option Advert
  served : List (AdvertRequest × Option ℕ × Advert)

inductive AdvertEvent where
  | deed (d : Deed)
  /-- The request reads the version of its handle. -/
  | key (r h : ℕ) (request : AdvertRequest)
  | lookup (r : ℕ)
  /-- `info/refs` reads the settings of the manifest its handle holds. -/
  | configure (r : ℕ)
  | render (r : ℕ)
  /-- The cache drops an entry. -/
  | drop (key : RefAdvertKey)

namespace Adverts

def created (m : Manifest) : Adverts := ⟨.created m, fun _ => none, fun _ => none, []⟩

variable (s : Adverts)

def setRequest (r : ℕ) (phase : Option AdvertPhase) : Adverts :=
  { s with requests := Function.update s.requests r phase }

/-- The request is answered, and the answer is kept. -/
def store (r : ℕ) (request : AdvertRequest) (version : Option ℕ) (advert : Advert) : Adverts :=
  { s.setRequest r none with
    cache := Function.update s.cache (request.key version) (some advert)
    served := (request, version, advert) :: s.served }

variable [CharTables] (cfg : Config) (env : AdvertEnv)

/-- One step of the system; `none` when it is not enabled. -/
def step (s : Adverts) : AdvertEvent → Option Adverts
  | .deed d => (s.cluster.step cfg d).map fun c => { s with cluster := c }
  | .key r h request =>
    (s.cluster.handles h).map fun handle =>
      s.setRequest r (some (.keyed h request handle.version))
  | .lookup r =>
    match s.requests r with
    | some (.keyed h request version) =>
      match s.cache (request.key version) with
      | some advert =>
        some { s.setRequest r none with served := (request, version, advert) :: s.served }
      | none => some (s.setRequest r (some (.missed h request version)))
    | _ => none
  | .configure r =>
    match s.requests r with
    | some (.missed h (.infoRefs service) version) =>
      (s.cluster.handles h).map fun handle =>
        s.setRequest r ((env.advertise handle.manifest).map fun selectors =>
          .configured h (.infoRefs service) version selectors)
    | _ => none
  | .render r =>
    match s.requests r with
    | some (.missed h (.lsRefs args) version) =>
      (s.cluster.copy h).map fun c =>
        s.store r (.lsRefs args) version ((AdvertRequest.lsRefs args).render env [] c.disk.refs)
    | some (.configured h request version selectors) =>
      (s.cluster.copy h).map fun c =>
        s.store r request version (request.render env selectors c.disk.refs)
    | _ => none
  | .drop key => some { s with cache := Function.update s.cache key none }

end Adverts

end Walgit
