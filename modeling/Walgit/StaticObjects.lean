import Mathlib.Data.List.DropRight
import Walgit.GcsGet
import Walgit.Handlers

/-!
# Static objects over HTTP

A store object served under conditional and range headers. The metadata and the body come from
two calls to the store, between which the object may be overwritten or deleted. Requests that an
edge serves in this server's place are left out.
-/
namespace Walgit.StaticObject

open Text
open Gcs (GetOptions ObjectMeta StoreError)

inductive Method where
  | get
  | head
  deriving DecidableEq, Repr

/-- The headers `serve` reads, as `to_str` gives them: the first `Range`, the first `If-Range`
(which may be unreadable) and every readable `If-None-Match`. -/
structure Headers where
  range : Option String
  ifRange : Option (Option String)
  ifNoneMatch : List String
  deriving DecidableEq, Repr

inductive RangeSpec where
  /-- `bytes=start-end` (inclusive end) or `bytes=start-`. -/
  | from (start : ℕ) (stop : Option ℕ)
  /-- `bytes=-n`: the last `n` bytes. -/
  | suffix (n : ℕ)
  deriving DecidableEq, Repr

def trim (text : List Char) : List Char := (text.dropWhile isWhitespace).rdropWhile isWhitespace

/-- The numbers on both sides of the first dash. -/
def parseBounds (a b : List Char) : Option RangeSpec :=
  if a.isEmpty then ((parseU64 b).filter (0 < ·)).map .suffix
  else do
    let start ← parseU64 a
    if b.isEmpty then some (.from start none)
    else do
      let e ← parseU64 b
      if e < start then none else some (.from start (some e))

/-- A single range; anything else is served whole. -/
def parseRange (header : Option String) : Option RangeSpec := do
  let text := trim (← header).toList
  if !"bytes=".toList.isPrefixOf text then none
  else
    let spec := text.drop 6
    if ',' ∈ spec then none
    else if '-' ∈ spec then
      parseBounds (trim (spec.takeWhile (· ≠ '-'))) (trim (spec.dropWhile (· ≠ '-')).tail)
    else none

/-- The half-open range of bytes in an object of a size; none is unsatisfiable. -/
def RangeSpec.resolve (total : ℕ) : RangeSpec → Option (ℕ × ℕ)
  | .from start stop =>
    if total ≤ start then none
    else some (start, stop.elim total fun e => min (min (e + 1) (2 ^ 64 - 1)) total)
  | .suffix n => if total = 0 then none else some (total - n, total)

def trimQuotes (text : List Char) : List Char := (text.dropWhile (· = '"')).rdropWhile (· = '"')

/-- `isHeaderValue` is what the HTTP library accepts as the value of a header. -/
def etagOf (isHeaderValue : String → Bool) (version : String) : String :=
  let tag := "\"" ++ String.ofList (trimQuotes version.toList) ++ "\""
  if isHeaderValue tag then tag else "\"-\""

def trimWeak : List Char → List Char
  | 'W' :: '/' :: rest => trimWeak rest
  | text => text

/-- The entity tags of a header, without quotes and `W/`. -/
def etags (values : List String) : List (List Char) :=
  ((values.flatMap fun v => v.toList.splitOn ',').map fun t =>
    trimQuotes (trimWeak (trim t))).filter (!·.isEmpty)

def ifNoneMatchHit (h : Headers) (version : String) : Bool :=
  (etags h.ifNoneMatch).any fun t => t = ['*'] || t = trimQuotes version.toList

/-- `If-Range` is absent, or is the `ETag` of this version. -/
def ifRangeAllows (isHeaderValue : String → Bool) (h : Headers) (version : String) : Bool :=
  h.ifRange.all fun value => value.any fun v =>
    String.ofList (trim v.toList) = etagOf isHeaderValue version

structure ServeOptions where
  contentType : String
  cacheControl : Option String
  filename : Option String
  deriving DecidableEq, Repr

def immutable : String := "public, max-age=31536000, immutable"

structure Response where
  status : ℕ
  headers : List (String × String)
  body : List UInt8
  deriving DecidableEq, Repr

def Response.header (r : Response) (name : String) : Option String :=
  (r.headers.find? (·.1 = name)).map Prod.snd

inductive ApiError where
  | notFound (message : String)
  | conflict (message : String)
  | internal
  deriving DecidableEq, Repr

def ApiError.ofStore (key : String) : StoreError → ApiError
  | .notFound => .notFound key
  | _ => .internal

inductive GetResult where
  | notModified (version : String)
  | object (info : ObjectMeta) (body : List UInt8)
  deriving DecidableEq, Repr

/-- The two calls `serve` makes to the store. -/
structure Store where
  head : Except StoreError (Option ObjectMeta)
  get : GetOptions → Except StoreError GetResult

section Serve

variable (isHeaderValue : String → Bool)

def cacheControl (opts : ServeOptions) : String :=
  (opts.cacheControl.filter isHeaderValue).getD immutable

def baseHeaders (info : ObjectMeta) (opts : ServeOptions) : List (String × String) :=
  [("content-type",
      if isHeaderValue opts.contentType then opts.contentType else "application/octet-stream"),
    ("etag", etagOf isHeaderValue info.version), ("cache-control", cacheControl isHeaderValue opts),
    ("accept-ranges", "bytes"), ("vary", "Accept-Encoding")] ++
  ((opts.filename.map fun name =>
    "attachment; filename=\"" ++ String.ofList (name.toList.filter (· ≠ '"')) ++ "\"").filter
      isHeaderValue).elim [] fun v => [("content-disposition", v)]

def notModified (version : String) (opts : ServeOptions) : Response :=
  ⟨304, [("etag", etagOf isHeaderValue version), ("cache-control", cacheControl isHeaderValue opts),
    ("vary", "Accept-Encoding")], []⟩

def rangeNotSatisfiable (info : ObjectMeta) (opts : ServeOptions) : Response :=
  ⟨416, baseHeaders isHeaderValue info opts ++
    [("content-range", "bytes */" ++ toString info.size), ("content-length", "0")], []⟩

/-- The range is read from the version that was described, or not at all. -/
def servePartial (store : Store) (info : ObjectMeta) (range : ℕ × ℕ) (opts : ServeOptions) :
    Except ApiError Response :=
  match store.get ⟨none, some info.version, some range⟩ with
  | .ok (.object m body) =>
    let total := max m.size info.size
    .ok ⟨206, baseHeaders isHeaderValue info opts ++
      [("content-range", "bytes " ++ toString range.1 ++ "-" ++ toString (range.2 - 1) ++ "/" ++
        toString total), ("content-length", toString (range.2 - range.1))], body⟩
  -- `unreachable!`: a range read has no `if_none_match`
  | .ok (.notModified _) => .error .internal
  | .error .preconditionFailed => .error (.conflict "object changed during read")
  | .error e => .error (.ofStore info.key e)

/-- One tag is the store's to compare; lists and `*` are compared after the read. -/
def serveWhole (store : Store) (key : String) (h : Headers) (opts : ServeOptions) :
    Except ApiError Response :=
  let one := match etags h.ifNoneMatch with
    | [one] => if one = ['*'] then none else some (String.ofList one)
    | _ => none
  match store.get ⟨one, none, none⟩ with
  | .ok (.notModified version) => .ok (notModified isHeaderValue version opts)
  | .ok (.object info body) =>
    if ifNoneMatchHit h info.version then .ok (notModified isHeaderValue info.version opts)
    else .ok ⟨200, baseHeaders isHeaderValue info opts ++
      [("content-length", toString info.size)], body⟩
  | .error .notFound => .error (.notFound (key ++ " not found"))
  | .error e => .error (.ofStore key e)

def serve (store : Store) (key : String) (method : Method) (h : Headers) (opts : ServeOptions) :
    Except ApiError Response :=
  match method, parseRange h.range with
  | .get, none => serveWhole isHeaderValue store key h opts
  | method, range =>
    match store.head with
    | .ok none => .error (.notFound (key ++ " not found"))
    | .error e => .error (.ofStore key e)
    | .ok (some info) =>
      if ifNoneMatchHit h info.version then .ok (notModified isHeaderValue info.version opts)
      else match method, range with
      | .get, some spec =>
        if ifRangeAllows isHeaderValue h info.version then
          match spec.resolve info.size with
          | none => .ok (rangeNotSatisfiable isHeaderValue info opts)
          | some range => servePartial isHeaderValue store info range opts
        else serveWhole isHeaderValue store key h opts
      | _, _ => .ok ⟨200, baseHeaders isHeaderValue info opts ++
          [("content-length", toString info.size)], []⟩

end Serve

/-- What a key holds at a time. -/
structure Object where
  version : String
  content : List UInt8
  small : content.length < 2 ^ 64

namespace Object

def size (o : Object) : ℕ := o.content.length

def info (key : String) (o : Object) : ObjectMeta := ⟨key, o.size, o.version⟩

/-- One read of a key: the conditions, the range and the body are those of one version. -/
def get (key : String) (o : Object) (opts : GetOptions) : Except StoreError GetResult :=
  if opts.ifMatch.any (· ≠ o.version) then .error .preconditionFailed
  else if opts.ifNoneMatch = some o.version then .ok (.notModified o.version)
  else
    match opts.range with
    | none => .ok (.object (o.info key) o.content)
    | some (a, b) =>
      if min b o.size < min a o.size then .error .other
      else .ok (.object (o.info key) ((o.content.drop a).take (b - a)))

end Object

/-- What a call to the store comes upon: a failure, or what the key holds. -/
abbrev Look := Except StoreError (Option Object)

/-- A store whose two calls come upon these. -/
def storeOf (key : String) (first second : Look) : Store where
  head := first.map (Option.map (Object.info key))
  get := fun opts =>
    match second with
    | .error e => .error e
    | .ok none => .error .notFound
    | .ok (some o) => o.get key opts

/-- The bytes a range asks for, in an object of a size. -/
def RangeSpec.Asks (total i : ℕ) : RangeSpec → Prop
  | .from start stop => start ≤ i ∧ ∀ e ∈ stop, i ≤ e
  | .suffix n => total - n ≤ i

/-- A range that starts at or past the end. -/
def RangeSpec.PastEnd (total : ℕ) : RangeSpec → Prop
  | .from start _ => total ≤ start
  | .suffix _ => total = 0

/-- What `parse_range` gives: an end not before the start, a suffix that is not empty. -/
def RangeSpec.Valid : RangeSpec → Prop
  | .from start stop => ∀ e ∈ stop, start ≤ e
  | .suffix n => 0 < n

section Ranges

theorem resolve_eq_none {spec : RangeSpec} {total : ℕ} :
    spec.resolve total = none ↔ spec.PastEnd total := by
  cases spec with
  | «from» start stop => simp [RangeSpec.resolve, RangeSpec.PastEnd]
  | suffix n => simp [RangeSpec.resolve, RangeSpec.PastEnd]

/-- A resolved range is what was asked for, clipped to the object. -/
theorem resolve_asks {spec : RangeSpec} {total s e : ℕ} (htotal : total < 2 ^ 64)
    (h : spec.resolve total = some (s, e)) (i : ℕ) :
    (s ≤ i ∧ i < e) ↔ (i < total ∧ spec.Asks total i) := by
  cases spec with
  | «from» start stop =>
    simp only [RangeSpec.resolve] at h
    split at h
    · cases h
    · obtain ⟨rfl, rfl⟩ := Prod.mk.inj (Option.some.inj h)
      cases stop with
      | none =>
        simp [RangeSpec.Asks]
        omega
      | some e =>
        simp only [Option.elim_some, RangeSpec.Asks, Option.mem_def, Option.some.injEq,
          forall_eq']
        omega
  | suffix n =>
    simp only [RangeSpec.resolve] at h
    split at h
    · cases h
    · obtain ⟨rfl, rfl⟩ := Prod.mk.inj (Option.some.inj h)
      simp only [RangeSpec.Asks]
      omega

theorem parseBounds_valid {a b : List Char} {spec : RangeSpec} (h : parseBounds a b = some spec) :
    spec.Valid := by
  unfold parseBounds at h
  split at h
  · obtain ⟨n, hn, rfl⟩ := Option.map_eq_some_iff.mp h
    have hpos : 0 < n := by simpa using (Option.filter_eq_some_iff.mp hn).2
    exact hpos
  · obtain ⟨start, -, h⟩ := Option.bind_eq_some_iff.mp h
    split at h
    · obtain rfl := Option.some.inj h
      simp [RangeSpec.Valid]
    · obtain ⟨e, -, h⟩ := Option.bind_eq_some_iff.mp h
      split at h
      · cases h
      · obtain rfl := Option.some.inj h
        simp only [RangeSpec.Valid, Option.mem_def, Option.some.injEq, forall_eq']
        omega

theorem parseRange_valid {header : Option String} {spec : RangeSpec}
    (h : parseRange header = some spec) : spec.Valid := by
  obtain ⟨text, -, h⟩ := Option.bind_eq_some_iff.mp h
  dsimp only at h
  split at h
  · cases h
  · split at h
    · cases h
    · split at h
      · exact parseBounds_valid h
      · cases h

theorem resolve_lt {spec : RangeSpec} {total s e : ℕ} (hvalid : spec.Valid)
    (htotal : total < 2 ^ 64) (h : spec.resolve total = some (s, e)) : s < e ∧ e ≤ total := by
  cases spec with
  | «from» start stop =>
    simp only [RangeSpec.resolve] at h
    split at h
    · cases h
    · obtain ⟨rfl, rfl⟩ := Prod.mk.inj (Option.some.inj h)
      cases stop with
      | none =>
        simp only [Option.elim_none]
        omega
      | some e =>
        have hstart : start ≤ e := hvalid e rfl
        simp only [Option.elim_some]
        omega
  | suffix n =>
    have hn : 0 < n := hvalid
    simp only [RangeSpec.resolve] at h
    split at h
    · cases h
    · obtain ⟨rfl, rfl⟩ := Prod.mk.inj (Option.some.inj h)
      omega

end Ranges

section Tags

theorem trimQuotes_idem (text : List Char) : trimQuotes (trimQuotes text) = trimQuotes text := by
  have hdrop : (trimQuotes text).dropWhile (· = '"') = trimQuotes text := by
    rw [trimQuotes]
    generalize htail : text.dropWhile (· = '"') = tail
    cases tail with
    | nil => rfl
    | cons c tail =>
      have hc : ¬ decide (c = '"') = true := by
        have := List.head_dropWhile_not (fun c => decide (c = '"')) (l := text)
          (by rw [htail]; exact List.cons_ne_nil _ _)
        simpa [htail] using this
      cases hkept : (c :: tail).rdropWhile (· = '"') with
      | nil => rfl
      | cons d kept =>
        have hkeep : (c :: tail).rdropWhile (· = '"') <+: c :: tail := List.rdropWhile_prefix _ _
        rw [hkept, List.cons_prefix_cons] at hkeep
        rw [hkeep.1]
        exact List.dropWhile_cons_of_neg hc
  rw [trimQuotes, hdrop, trimQuotes, List.rdropWhile_idempotent]

theorem mem_etags {values : List String} {t : List Char} (h : t ∈ etags values) :
    trimQuotes t = t := by
  obtain ⟨hmem, -⟩ := List.mem_filter.mp h
  obtain ⟨u, -, rfl⟩ := List.mem_map.mp hmem
  exact trimQuotes_idem _

/-- A version that is an only tag is hit. -/
theorem hit_of_one {h : Headers} {one : List Char} {version : String}
    (htags : etags h.ifNoneMatch = [one]) (hone : String.ofList one = version) :
    ifNoneMatchHit h version = true := by
  have hclean : trimQuotes one = one := mem_etags (htags ▸ List.mem_singleton_self one)
  rw [ifNoneMatchHit, htags, ← hone, String.toList_ofList]
  simp [hclean]

end Tags

section Answers

variable (isHeaderValue : String → Bool) (key : String) (method : Method) (h : Headers)
  (opts : ServeOptions)

/-- The object an answer is about: what the first call came upon, and what the second did where
the first was not made or `If-Range` does not name its version. -/
def lookedAt (first second : Look) : Look :=
  match method, parseRange h.range with
  | .get, none => second
  | .head, _ => first
  | .get, some _ =>
    match first with
    | .ok (some o) =>
      if ifNoneMatchHit h o.version || ifRangeAllows isHeaderValue h o.version then first
      else second
    | _ => first

/-- An answer tells the truth about an object. -/
structure Describes (o : Object) (r : Response) : Prop where
  etag : r.header "etag" = some (etagOf isHeaderValue o.version)
  notModified : r.status = 304 ↔ ifNoneMatchHit h o.version = true
  whole : r.status = 200 → r.header "content-length" = some (toString o.size) ∧
    (method = .get → r.body = o.content)
  ranged : r.status = 206 → method = .get ∧ ∃ spec s e, parseRange h.range = some spec ∧ s < e ∧
    (∀ i, (s ≤ i ∧ i < e) ↔ (i < o.size ∧ spec.Asks o.size i)) ∧
    r.body = (o.content.drop s).take (e - s) ∧ r.body.length = e - s ∧
    r.header "content-range" = some ("bytes " ++ toString s ++ "-" ++ toString (e - 1) ++ "/" ++
      toString o.size) ∧
    r.header "content-length" = some (toString (e - s))
  unsatisfiable : r.status = 416 → r.header "content-range" = some ("bytes */" ++ toString o.size)

variable {isHeaderValue key method h opts} {first second : Look} {o : Object} {r : Response}

theorem header_baseHeaders {info : ObjectMeta} {name : String} {tail : List (String × String)}
    (hname : name ∉ ["content-type", "etag", "cache-control", "accept-ranges", "vary",
      "content-disposition"]) {status : ℕ} {body : List UInt8} :
    (Response.mk status (baseHeaders isHeaderValue info opts ++ tail) body).header name =
      (tail.find? (·.1 = name)).map Prod.snd := by
  simp only [List.mem_cons, List.not_mem_nil, or_false, not_or] at hname
  obtain ⟨htype, htag, hcache, haccept, hvary, hfile⟩ := hname
  have hnone : (baseHeaders isHeaderValue info opts).find? (·.1 = name) = none := by
    unfold baseHeaders
    generalize Option.filter isHeaderValue _ = filename
    cases filename with
    | none => simp [Ne.symm htype, Ne.symm htag, Ne.symm hcache, Ne.symm haccept, Ne.symm hvary]
    | some v =>
      simp [Ne.symm htype, Ne.symm htag, Ne.symm hcache, Ne.symm haccept, Ne.symm hvary,
        Ne.symm hfile]
  rw [Response.header, List.find?_append, hnone]
  rfl

theorem etag_baseHeaders {info : ObjectMeta} {tail : List (String × String)} {status : ℕ}
    {body : List UInt8} :
    (Response.mk status (baseHeaders isHeaderValue info opts ++ tail) body).header "etag" =
      some (etagOf isHeaderValue info.version) := by
  simp [Response.header, baseHeaders]

theorem describes_notModified (hhit : ifNoneMatchHit h o.version = true) :
    Describes isHeaderValue method h o (notModified isHeaderValue o.version opts) where
  etag := by simp [Response.header, notModified]
  notModified := iff_of_true rfl hhit
  whole := by simp [notModified]
  ranged := by simp [notModified]
  unsatisfiable := by simp [notModified]

theorem describes_whole (hmiss : ifNoneMatchHit h o.version = false) {body : List UInt8}
    (hbody : method = .get → body = o.content) :
    Describes isHeaderValue method h o ⟨200, baseHeaders isHeaderValue (o.info key) opts ++
      [("content-length", toString o.size)], body⟩ where
  etag := etag_baseHeaders
  notModified := by simp [hmiss]
  whole := fun _ => ⟨by rw [header_baseHeaders (by decide)]; simp, hbody⟩
  ranged := by simp
  unsatisfiable := by simp

theorem describes_unsatisfiable (hmiss : ifNoneMatchHit h o.version = false) :
    Describes isHeaderValue method h o (rangeNotSatisfiable isHeaderValue (o.info key) opts) where
  etag := etag_baseHeaders
  notModified := by simp [rangeNotSatisfiable, hmiss]
  whole := by simp [rangeNotSatisfiable]
  ranged := by simp [rangeNotSatisfiable]
  unsatisfiable := fun _ => by
    rw [rangeNotSatisfiable, header_baseHeaders (by decide)]
    simp [Object.info]

/-- Bytes of a range read while the version was still the one described. -/
theorem describes_partial {spec : RangeSpec} {s e : ℕ} (hmethod : method = .get)
    (hmiss : ifNoneMatchHit h o.version = false) (hspec : parseRange h.range = some spec)
    (hrange : spec.resolve o.size = some (s, e)) :
    Describes isHeaderValue method h o ⟨206, baseHeaders isHeaderValue (o.info key) opts ++
      [("content-range", "bytes " ++ toString s ++ "-" ++ toString (e - 1) ++ "/" ++
        toString o.size), ("content-length", toString (e - s))],
      (o.content.drop s).take (e - s)⟩ where
  etag := etag_baseHeaders
  notModified := by simp [hmiss]
  whole := by simp
  unsatisfiable := by simp
  ranged := fun _ => by
    obtain ⟨hlt, hle⟩ := resolve_lt (parseRange_valid hspec) o.small hrange
    refine ⟨hmethod, spec, s, e, hspec, hlt, resolve_asks o.small hrange, rfl, ?_, ?_, ?_⟩
    · have hsize : e ≤ o.content.length := hle
      rw [List.length_take, List.length_drop]
      omega
    · rw [header_baseHeaders (by decide)]
      simp
    · rw [header_baseHeaders (by decide)]
      simp

theorem serveWhole_some (hsecond : second = .ok (some o)) :
    serveWhole isHeaderValue (storeOf key first second) key h opts =
      .ok (if ifNoneMatchHit h o.version then notModified isHeaderValue o.version opts
        else ⟨200, baseHeaders isHeaderValue (o.info key) opts ++
          [("content-length", toString o.size)], o.content⟩) := by
  have hget : ∀ one, (storeOf key first second).get ⟨one, none, none⟩ =
      if one = some o.version then .ok (.notModified o.version)
      else .ok (.object (o.info key) o.content) := by
    intro one
    simp [storeOf, hsecond, Object.get]
  have hhit : (match etags h.ifNoneMatch with
      | [one] => if one = ['*'] then none else some (String.ofList one)
      | _ => none) = some o.version → ifNoneMatchHit h o.version = true := by
    intro hone
    split at hone
    · rename_i one htags
      split at hone
      · cases hone
      · exact hit_of_one htags (Option.some.inj hone)
    · cases hone
  simp only [serveWhole, hget]
  split_ifs with hone hit hit
  · rfl
  · exact absurd (hhit hone) hit
  · simp [Object.info, hit]
  · simp [Object.info, hit]

theorem serveWhole_ok (hok : serveWhole isHeaderValue (storeOf key first second) key h opts = .ok r) :
    ∃ o, second = .ok (some o) := by
  cases second with
  | error e => cases e <;> cases hok
  | ok found =>
    cases found with
    | none => cases hok
    | some o => exact ⟨o, rfl⟩

theorem servePartial_some {s e : ℕ} (hlt : s < e)
    (hsecond : second = .ok (some o)) :
    servePartial isHeaderValue (storeOf key first second) (o.info key) (s, e) opts =
      .ok ⟨206, baseHeaders isHeaderValue (o.info key) opts ++
        [("content-range", "bytes " ++ toString s ++ "-" ++ toString (e - 1) ++ "/" ++
          toString o.size), ("content-length", toString (e - s))],
        (o.content.drop s).take (e - s)⟩ := by
  have hget : (storeOf key first second).get ⟨none, some (o.info key).version, some (s, e)⟩ =
      .ok (.object (o.info key) ((o.content.drop s).take (e - s))) := by
    simp [storeOf, hsecond, Object.get, Object.info]
    omega
  rw [servePartial, hget]
  simp [Object.info]

theorem servePartial_ok {s e : ℕ}
    (hok : servePartial isHeaderValue (storeOf key first second) (o.info key) (s, e) opts = .ok r) :
    ∃ o', second = .ok (some o') ∧ o'.version = o.version := by
  cases second with
  | error err => cases err <;> cases hok
  | ok found =>
    cases found with
    | none => cases hok
    | some o' =>
      refine ⟨o', rfl, ?_⟩
      by_contra hne
      have hget : (storeOf key first (.ok (some o'))).get
          ⟨none, some (o.info key).version, some (s, e)⟩ = .error .preconditionFailed := by
        simp [storeOf, Object.get, Object.info, Ne.symm hne]
      rw [servePartial, hget] at hok
      cases hok

theorem servePartial_status {store : Store} {info : ObjectMeta} {range : ℕ × ℕ}
    (hok : servePartial isHeaderValue store info range opts = .ok r) : r.status = 206 := by
  unfold servePartial at hok
  split at hok
  · obtain rfl := Except.ok.inj hok
    rfl
  · cases hok
  · cases hok
  · cases hok

theorem serve_get_whole (hrange : parseRange h.range = none) :
    serve isHeaderValue (storeOf key first second) key .get h opts =
      serveWhole isHeaderValue (storeOf key first second) key h opts := by
  simp only [serve, hrange]

theorem serve_get_range {spec : RangeSpec} (hrange : parseRange h.range = some spec)
    (hfirst : first = .ok (some o)) :
    serve isHeaderValue (storeOf key first second) key .get h opts =
      if ifNoneMatchHit h o.version then .ok (notModified isHeaderValue o.version opts)
      else if ifRangeAllows isHeaderValue h o.version then
        match spec.resolve o.size with
        | none => .ok (rangeNotSatisfiable isHeaderValue (o.info key) opts)
        | some range =>
          servePartial isHeaderValue (storeOf key first second) (o.info key) range opts
      else serveWhole isHeaderValue (storeOf key first second) key h opts := by
  have hhead : (storeOf key first second).head = .ok (some (o.info key)) := by
    rw [storeOf, hfirst]
    rfl
  simp only [serve, hrange, hhead]
  rfl

theorem serve_head (hfirst : first = .ok (some o)) :
    serve isHeaderValue (storeOf key first second) key .head h opts =
      if ifNoneMatchHit h o.version then .ok (notModified isHeaderValue o.version opts)
      else .ok ⟨200, baseHeaders isHeaderValue (o.info key) opts ++
        [("content-length", toString o.size)], []⟩ := by
  have hhead : (storeOf key first second).head = .ok (some (o.info key)) := by
    rw [storeOf, hfirst]
    rfl
  simp only [serve, hhead]
  rfl

/-- Without a first look at an object, a request that needs one fails. -/
theorem serve_first (hok : serve isHeaderValue (storeOf key first second) key method h opts = .ok r)
    (hneeds : method = .get → parseRange h.range ≠ none) : ∃ o, first = .ok (some o) := by
  have hfails : ∀ e, (storeOf key first second).head = .ok none ∨
      (storeOf key first second).head = .error e → False := by
    intro e hhead
    cases method with
    | head => rcases hhead with hhead | hhead <;> simp [serve, hhead] at hok
    | get =>
      obtain ⟨spec, hrange⟩ := Option.ne_none_iff_exists'.mp (hneeds rfl)
      rcases hhead with hhead | hhead <;> simp [serve, hrange, hhead] at hok
  cases first with
  | error e => exact (hfails e (Or.inr rfl)).elim
  | ok found =>
    cases found with
    | none => exact (hfails .other (Or.inl rfl)).elim
    | some o => exact ⟨o, rfl⟩

theorem describes_answer (hsecond : second = .ok (some o))
    (hok : serveWhole isHeaderValue (storeOf key first second) key h opts = .ok r) :
    Describes isHeaderValue method h o r := by
  rw [serveWhole_some hsecond] at hok
  obtain rfl := Except.ok.inj hok
  split_ifs with hhit
  · exact describes_notModified hhit
  · exact describes_whole (Bool.eq_false_iff.mpr hhit) fun _ => rfl

/-- Whatever happens to the object between the calls, an answer is about one version of it. -/
theorem serve_describes
    (hnamed : ∀ o o', first = .ok (some o) → second = .ok (some o') → o'.version = o.version →
      o' = o)
    (hok : serve isHeaderValue (storeOf key first second) key method h opts = .ok r) :
    ∃ o, lookedAt isHeaderValue method h first second = .ok (some o) ∧
      Describes isHeaderValue method h o r := by
  cases method with
  | head =>
    obtain ⟨o, hfirst⟩ := serve_first hok (by simp)
    have hlooked : lookedAt isHeaderValue .head h first second = .ok (some o) := by
      rw [lookedAt, hfirst]
    refine ⟨o, hlooked, ?_⟩
    rw [serve_head hfirst] at hok
    split_ifs at hok with hhit
    · obtain rfl := Except.ok.inj hok
      exact describes_notModified hhit
    · obtain rfl := Except.ok.inj hok
      exact describes_whole (Bool.eq_false_iff.mpr hhit) (by simp)
  | get =>
    cases hrange : parseRange h.range with
    | none =>
      rw [serve_get_whole hrange] at hok
      obtain ⟨o, hsecond⟩ := serveWhole_ok hok
      exact ⟨o, by simp [lookedAt, hrange, hsecond], describes_answer hsecond hok⟩
    | some spec =>
      obtain ⟨o, hfirst⟩ := serve_first hok (by simp [hrange])
      rw [serve_get_range hrange hfirst] at hok
      split_ifs at hok with hhit hallows
      · obtain rfl := Except.ok.inj hok
        refine ⟨o, ?_, describes_notModified hhit⟩
        simp [lookedAt, hrange, hfirst, hhit]
      · have hlooked : lookedAt isHeaderValue .get h first second = .ok (some o) := by
          simp [lookedAt, hrange, hfirst, hallows]
        have hmiss := Bool.eq_false_iff.mpr hhit
        refine ⟨o, hlooked, ?_⟩
        cases hresolve : spec.resolve o.size with
        | none =>
          rw [hresolve] at hok
          obtain rfl := Except.ok.inj hok
          exact describes_unsatisfiable hmiss
        | some range =>
          obtain ⟨s, e⟩ := range
          rw [hresolve] at hok
          have hlt := (resolve_lt (parseRange_valid hrange) o.small hresolve).1
          obtain ⟨o', hsecond, hversion⟩ := servePartial_ok hok
          obtain rfl := hnamed o o' hfirst hsecond hversion
          dsimp only at hok
          rw [servePartial_some hlt hsecond] at hok
          obtain rfl := Except.ok.inj hok
          exact describes_partial rfl hmiss hrange hresolve
      · obtain ⟨o', hsecond⟩ := serveWhole_ok hok
        refine ⟨o', ?_, describes_answer hsecond hok⟩
        simp [lookedAt, hrange, hfirst, hhit, hallows, hsecond]

theorem serve_hit (hlooked : lookedAt isHeaderValue method h first second = .ok (some o))
    (hhit : ifNoneMatchHit h o.version = true) :
    ∃ r, serve isHeaderValue (storeOf key first second) key method h opts = .ok r ∧
      r.status = 304 := by
  have hsecond : ∀ {first}, second = .ok (some o) →
      serveWhole isHeaderValue (storeOf key first second) key h opts =
        .ok (notModified isHeaderValue o.version opts) := by
    intro first hsecond
    rw [serveWhole_some hsecond, if_pos hhit]
  cases method with
  | head =>
    have hfirst : first = .ok (some o) := by simpa [lookedAt] using hlooked
    exact ⟨_, by rw [serve_head hfirst, if_pos hhit], rfl⟩
  | get =>
    cases hrange : parseRange h.range with
    | none =>
      have hfound : second = .ok (some o) := by simpa [lookedAt, hrange] using hlooked
      exact ⟨_, by rw [serve_get_whole hrange, hsecond hfound], rfl⟩
    | some spec =>
      match first with
      | .error e => simp [lookedAt, hrange] at hlooked
      | .ok none => simp [lookedAt, hrange] at hlooked
      | .ok (some o₁) =>
        rw [serve_get_range hrange rfl]
        by_cases hhit₁ : ifNoneMatchHit h o₁.version = true
        · exact ⟨_, if_pos hhit₁, rfl⟩
        · by_cases hallows : ifRangeAllows isHeaderValue h o₁.version = true
          · obtain rfl : o₁ = o := by simpa [lookedAt, hrange, hallows] using hlooked
            exact absurd hhit hhit₁
          · have hfound : second = .ok (some o) := by
              simpa [lookedAt, hrange, hallows, hhit₁] using hlooked
            exact ⟨_, by rw [if_neg hhit₁, if_neg hallows, hsecond hfound], rfl⟩

/-- A range and an `If-Range` that does not name the version: the whole object. -/
theorem serve_ifRange {o₁ : Object} {spec : RangeSpec} (hrange : parseRange h.range = some spec)
    (hfirst : first = .ok (some o₁)) (hmiss₁ : ifNoneMatchHit h o₁.version = false)
    (hallows : ifRangeAllows isHeaderValue h o₁.version = false)
    (hsecond : second = .ok (some o)) (hmiss : ifNoneMatchHit h o.version = false) :
    ∃ r, serve isHeaderValue (storeOf key first second) key .get h opts = .ok r ∧
      r.status = 200 ∧ r.body = o.content ∧
      r.header "etag" = some (etagOf isHeaderValue o.version) := by
  refine ⟨⟨200, baseHeaders isHeaderValue (o.info key) opts ++
    [("content-length", toString o.size)], o.content⟩, ?_, rfl, rfl, etag_baseHeaders⟩
  rw [serve_get_range hrange hfirst, hmiss₁, hallows, if_neg (by decide), if_neg (by decide),
    serveWhole_some hsecond, hmiss, if_neg (by decide)]

theorem serve_range {spec : RangeSpec} (hrange : parseRange h.range = some spec)
    (hfirst : first = .ok (some o)) (hmiss : ifNoneMatchHit h o.version = false)
    (hallows : ifRangeAllows isHeaderValue h o.version = true) :
    ((∃ r, serve isHeaderValue (storeOf key first second) key .get h opts = .ok r ∧
        r.status = 416) ↔ spec.PastEnd o.size) ∧
      (¬ spec.PastEnd o.size → second = first →
        ∃ r, serve isHeaderValue (storeOf key first second) key .get h opts = .ok r ∧
          r.status = 206) := by
  rw [serve_get_range hrange hfirst, hmiss, hallows, if_neg (by decide), if_pos rfl,
    ← resolve_eq_none]
  cases hresolve : spec.resolve o.size with
  | none => exact ⟨iff_of_true ⟨_, rfl, rfl⟩ rfl, fun h => absurd rfl h⟩
  | some range =>
    obtain ⟨s, e⟩ := range
    have hlt := (resolve_lt (parseRange_valid hrange) o.small hresolve).1
    refine ⟨iff_of_false ?_ (by simp), fun _ hsame =>
      ⟨_, servePartial_some hlt (hsame.trans hfirst), rfl⟩⟩
    rintro ⟨r, hok, hstatus⟩
    rw [servePartial_status hok] at hstatus
    cases hstatus

/-- Every answer is exact about one version the calls came upon, a tag that names that version
gives 304, and otherwise, in this order, an `If-Range` that names another version gives the whole
object and a range past the end gives 416. -/
theorem serve_exact (hnamed : ∀ o o', first = .ok (some o) → second = .ok (some o') →
    o'.version = o.version → o' = o) :
    (∀ r, serve isHeaderValue (storeOf key first second) key method h opts = .ok r →
      ∃ o, lookedAt isHeaderValue method h first second = .ok (some o) ∧
        Describes isHeaderValue method h o r) ∧
    (∀ o, lookedAt isHeaderValue method h first second = .ok (some o) →
      ifNoneMatchHit h o.version = true →
      ∃ r, serve isHeaderValue (storeOf key first second) key method h opts = .ok r ∧
        r.status = 304) ∧
    (∀ o spec, method = .get → parseRange h.range = some spec → first = .ok (some o) →
      ifNoneMatchHit h o.version = false → ifRangeAllows isHeaderValue h o.version = false →
      ∀ o', second = .ok (some o') → ifNoneMatchHit h o'.version = false →
      ∃ r, serve isHeaderValue (storeOf key first second) key method h opts = .ok r ∧
        r.status = 200 ∧ r.body = o'.content ∧
        r.header "etag" = some (etagOf isHeaderValue o'.version)) ∧
    (∀ o spec, method = .get → parseRange h.range = some spec → first = .ok (some o) →
      ifNoneMatchHit h o.version = false → ifRangeAllows isHeaderValue h o.version = true →
      ((∃ r, serve isHeaderValue (storeOf key first second) key method h opts = .ok r ∧
        r.status = 416) ↔ spec.PastEnd o.size) ∧
      (¬ spec.PastEnd o.size → second = first →
        ∃ r, serve isHeaderValue (storeOf key first second) key method h opts = .ok r ∧
          r.status = 206)) := by
  refine ⟨fun r => serve_describes hnamed, fun o => serve_hit, ?_, ?_⟩
  · rintro o spec rfl hrange hfirst hmiss hallows o' hsecond hmiss'
    exact serve_ifRange hrange hfirst hmiss hallows hsecond hmiss'
  · rintro o spec rfl hrange hfirst hmiss hallows
    exact serve_range hrange hfirst hmiss hallows

def threeBytes : Object := ⟨"7", [10, 20, 30], by decide⟩

def plain : ServeOptions := ⟨"application/octet-stream", none, none⟩

/-- The last two bytes, with the tag of the version they are of. -/
theorem serve_exact_of_three :
    ∃ r, serve (fun _ => true) (storeOf "k" (.ok (some threeBytes)) (.ok (some threeBytes))) "k" .get
      ⟨some "bytes=1-", some (some "\"7\""), []⟩ plain = .ok r ∧ r.status = 206 := by
  have hnamed : ∀ o o' : Object, (.ok (some threeBytes) : Look) = .ok (some o) →
      (.ok (some threeBytes) : Look) = .ok (some o') → o'.version = o.version → o' = o := by
    intro o o' ho ho' _
    cases ho
    cases ho'
    rfl
  obtain ⟨-, -, -, hranged⟩ := @serve_exact (fun _ => true) "k" .get
    ⟨some "bytes=1-", some (some "\"7\""), []⟩ plain _ _ hnamed
  have hrange := hranged threeBytes (.from 1 none) rfl (by decide +kernel) rfl (by decide +kernel)
    (by decide +kernel)
  exact hrange.2 (by simp [RangeSpec.PastEnd, threeBytes, Object.size]) rfl

/-- A range past the end is no 416 where `If-Range` names another version, where a tag is hit,
or for a `HEAD`. -/
theorem serve_pastEnd :
    (serve (fun _ => true) (storeOf "k" (.ok (some threeBytes)) (.ok (some threeBytes))) "k" .get
      ⟨some "bytes=3-", some (some "\"6\""), []⟩ plain).map Response.status = .ok 200 ∧
    (serve (fun _ => true) (storeOf "k" (.ok (some threeBytes)) (.ok (some threeBytes))) "k" .get
      ⟨some "bytes=3-", some (some "\"6\""), ["\"7\""]⟩ plain).map Response.status = .ok 304 ∧
    (serve (fun _ => true) (storeOf "k" (.ok (some threeBytes)) (.ok (some threeBytes))) "k" .head
      ⟨some "bytes=3-", none, []⟩ plain).map Response.status = .ok 200 := by
  decide +kernel

end Answers

end Walgit.StaticObject
