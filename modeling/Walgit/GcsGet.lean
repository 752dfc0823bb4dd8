import Mathlib.Tactic.IntervalCases
import Walgit.Runs
import Walgit.Text

/-!
# Reads over the GCS client

One `GcsStore::get` of a key while others write and delete it. A conditional read asks for
the metadata first and for the body in a second request that names no generation. A bulk
body resumes after a cut, pinned to the generation its first response named.
-/
namespace Walgit.Gcs

open Text (startsWith endsWith contains)

variable {α : Type}

/-- One key of a bucket: its live object, and every object it ever held under its
generation. -/
structure Bucket (α : Type) where
  live : Option (ℕ × List α)
  history : ℕ → Option (List α)
  /-- Generations from here on are unused. -/
  next : ℕ
  recorded : ∀ o ∈ live, history o.1 = some o.2
  unused : ∀ g, next ≤ g → history g = none

namespace Bucket

def empty : Bucket α := ⟨none, fun _ => none, 1, by simp, by simp⟩

def write (b : Bucket α) (g : ℕ) (x : List α) : Bucket α where
  live := some (g, x)
  history := fun k => if k = g then some x else b.history k
  next := max b.next (g + 1)
  recorded := by simp
  unused := by
    intro k hk
    have hne : k ≠ g := by omega
    simp only [if_neg hne]
    exact b.unused k (by omega)

def delete (b : Bucket α) : Bucket α := { b with live := none, recorded := by simp }

/-- What a generation held stays what it held. -/
theorem history_write {b : Bucket α} {g k : ℕ} {x y : List α} (hg : b.next ≤ g)
    (h : b.history k = some x) : (b.write g y).history k = some x := by
  have hne : k ≠ g := by
    rintro rfl
    simp [b.unused k hg] at h
  simp [write, hne, h]

end Bucket

structure GetOptions where
  ifNoneMatch : Option String
  ifMatch : Option String
  range : Option (ℕ × ℕ)
  deriving DecidableEq, Repr

structure ObjectMeta where
  key : String
  size : ℕ
  version : String
  deriving DecidableEq, Repr

inductive StoreError where
  | notFound
  | preconditionFailed
  | other
  deriving DecidableEq, Repr

/-- `str::parse::<i64>`: one optional sign and at least one digit, in range. -/
def parseI64 (s : String) : Option ℤ :=
  let (negative, digits) : Bool × List Char := match s.toList with
    | '-' :: ds => (true, ds)
    | '+' :: ds => (false, ds)
    | ds => (false, ds)
  if digits.isEmpty || !digits.all Char.isDigit then none
  else
    let n : ℤ := digits.foldl (fun n c => 10 * n + (c.toNat - '0'.toNat)) (0 : ℕ)
    let n := if negative then -n else n
    if -2 ^ 63 ≤ n && n < 2 ^ 63 then some n else none

def parseGeneration (version : String) : Option ℤ := parseI64 version

def genVersion (generation : ℤ) : String := toString generation

/-- The last segment of a key. -/
def fileName (key : String) : String :=
  String.ofList (key.toList.reverse.takeWhile (· ≠ '/')).reverse

/-- Pack data and LFS are bulk; the rest is control plane. -/
def isBulkKey (key : String) : Bool :=
  if endsWith ".pb" (fileName key) || endsWith ".json" (fileName key) then false
  else contains "/wal/" key || startsWith "wal/" key || contains "/lfs/" key ||
    startsWith "lfs/" key

/-- `creds` tells whether the bulk HTTPS path has credentials. -/
structure Config where
  creds : Bool
  key : String
  opts : GetOptions
  deriving DecidableEq, Repr

def bulkResumeAttempts : ℕ := 5

/-- The part of an object a read asks for. -/
def wanted (range : Option (ℕ × ℕ)) (x : List α) : List α :=
  match range with
  | none => x
  | some (a, b) => (x.drop a).take (b - a)

/-- What the service makes of `Range: bytes=a-(b-1)`: it ignores a range that ends before it
starts and refuses one that starts past the end. -/
def httpRange (range : Option (ℕ × ℕ)) (x : List α) : Option (List α) :=
  match range with
  | none => some x
  | some (a, b) =>
    if b - 1 < a then some x
    else if x.length ≤ a then none
    else some ((x.drop a).take (b - 1 + 1 - a))

/-- `ReadRange::segment(offset, limit)`: no limit when it is zero. -/
def sdkRange (range : Option (ℕ × ℕ)) (x : List α) : Option (List α) :=
  match range with
  | none => some x
  | some (a, b) =>
    if x.length ≤ a then none
    else some (if b - a = 0 then x.drop a else (x.drop a).take (b - a))

/-- The body of a read in progress. `rest` is what the open response has still to deliver;
`pos` and `stop` are `st.pos` and `end` of the resuming stream. -/
structure Body (α : Type) where
  bulk : Bool
  rest : List α
  generation : Option ℕ
  pos : ℕ
  stop : ℕ
  attempts : ℕ
  /-- The response is gone and a resume is under way. -/
  broken : Bool

inductive Phase (α : Type) where
  | called
  /-- The metadata came back and the body is still to be asked for. -/
  | stated (info : ObjectMeta)
  | streaming (info : ObjectMeta) (body : Body α) (out : List α)
  /-- The stream ended without an error. -/
  | done (info : ObjectMeta) (out : List α)
  | notModified (version : String)
  | failed (error : StoreError)

structure Get (α : Type) where
  bucket : Bucket α
  phase : Phase α

/-- In `read`, `named` tells whether the response carries `x-goog-generation`, and `sized`
whether it carries its size. -/
inductive Event (α : Type) where
  | foreignWrite (generation : ℕ) (value : List α)
  | foreignDelete
  /-- The metadata request is served. -/
  | stat
  /-- The body request is served. -/
  | read (named sized : Bool)
  | chunk (n : ℕ)
  /-- The response ends without an error. -/
  | eof
  /-- The response ends with an error. -/
  | cut
  /-- A resume's request is served. -/
  | resume
  /-- A request fails without a usable reply. -/
  | lose

namespace Config

variable (cfg : Config)

def viaHttp : Bool := cfg.creds && (cfg.opts.range.isSome || isBulkKey cfg.key)

/-- The generation a metadata request compares with. -/
def noneMatch : Option ℤ := cfg.opts.ifNoneMatch.bind parseGeneration

/-- The version of `if_match` is no generation, so it matches none. -/
def unmatchable : Bool := cfg.opts.ifMatch.any fun v => (parseGeneration v).isNone

/-- `if_match` lets generation `g` through. -/
def admits (g : ℕ) : Bool := cfg.opts.ifMatch.all fun v => parseGeneration v = some (g : ℤ)

/-- The body of generation `g` starts to stream. -/
def opened (g : ℕ) (x : List α) (named sized : Bool) : Option (Body α) :=
  let range := cfg.opts.range
  let size := if sized then x.length else 0
  if cfg.viaHttp then
    (httpRange range x).map fun rest =>
      ⟨true, rest, if named then some g else none, range.elim 0 Prod.fst,
        range.elim size Prod.snd, 0, false⟩
  else (sdkRange range x).map fun rest => ⟨false, rest, some g, 0, 0, 0, false⟩

/-- The metadata a direct read takes from its response. -/
def responseMeta (g : ℕ) (x : List α) (named sized : Bool) : ObjectMeta :=
  if cfg.viaHttp then
    ⟨cfg.key, if sized then x.length else 0, if named then genVersion g else ""⟩
  else ⟨cfg.key, x.length, genVersion g⟩

end Config

namespace Body

def deliver (b : Body α) (n : ℕ) : Body α :=
  { b with rest := b.rest.drop n, pos := b.pos + (b.rest.take n).length }

/-- A stream that ends early without an error is resumed. -/
def resumes (b : Body α) : Bool := 0 < b.stop && b.pos < b.stop && b.attempts < bulkResumeAttempts

/-- The stream waits for the next resume. -/
def retry (b : Body α) : Body α := { b with broken := true, attempts := b.attempts + 1 }

end Body

namespace Get

def start : Get α := ⟨.empty, .called⟩

/-- A resume that failed. -/
def unresumed (s : Get α) (info : ObjectMeta) (body : Body α) (out : List α) (e : StoreError) :
    Get α :=
  if bulkResumeAttempts ≤ body.attempts then { s with phase := .failed e }
  else { s with phase := .streaming info body.retry out }

/-- The body request is answered with generation `g`, or its range is refused. -/
def served (cfg : Config) (s : Get α) (info : ObjectMeta) (g : ℕ) (x : List α)
    (named sized : Bool) : Get α :=
  match cfg.opened g x named sized with
  | none => { s with phase := .failed (if cfg.viaHttp then .preconditionFailed else .other) }
  | some body => { s with phase := .streaming info body [] }

def step (cfg : Config) (s : Get α) : Event α → Option (Get α)
  | .foreignWrite g x =>
    if s.bucket.next ≤ g then some { s with bucket := s.bucket.write g x } else none
  | .foreignDelete => some { s with bucket := s.bucket.delete }
  | .stat =>
    match s.phase, cfg.noneMatch with
    | .called, some known =>
      match s.bucket.live with
      | none => some { s with phase := .failed .notFound }
      | some (g, x) =>
        if (g : ℤ) = known then some { s with phase := .notModified (genVersion known) }
        else some { s with phase := .stated ⟨cfg.key, x.length, genVersion g⟩ }
    | _, _ => none
  | .read named sized =>
    match s.phase, cfg.noneMatch with
    | .called, none =>
      if cfg.unmatchable then some { s with phase := .failed .preconditionFailed }
      else match s.bucket.live with
      | none => some { s with phase := .failed .notFound }
      | some (g, x) =>
        if cfg.admits g then some (s.served cfg (cfg.responseMeta g x named sized) g x named sized)
        else some { s with phase := .failed .preconditionFailed }
    | .stated info, _ =>
      match s.bucket.live with
      | none => some { s with phase := .failed .notFound }
      | some (g, x) => some (s.served cfg info g x named sized)
    | _, _ => none
  | .chunk n =>
    match s.phase with
    | .streaming info body out =>
      if body.broken then none
      else some { s with phase := .streaming info (body.deliver n) (out ++ body.rest.take n) }
    | _ => none
  | .eof =>
    match s.phase with
    | .streaming info body out =>
      if body.broken then none
      else if body.bulk && body.resumes then
        some { s with phase := .streaming info body.retry out }
      -- The SDK reports a body that ends early as an error.
      else if body.bulk || body.rest.isEmpty then some { s with phase := .done info out }
      else none
    | _ => none
  | .cut =>
    match s.phase with
    | .streaming info body out =>
      if body.broken then none
      else if !body.bulk || bulkResumeAttempts ≤ body.attempts || body.stop ≤ body.pos then
        some { s with phase := .failed .other }
      else some { s with phase := .streaming info body.retry out }
    | _ => none
  | .resume =>
    match s.phase with
    | .streaming info body out =>
      if !body.broken then none
      else match s.bucket.live with
      | none => some (s.unresumed info body out .notFound)
      | some (g, x) =>
        if body.generation.all (· = g) then
          match httpRange (some (body.pos, body.stop)) x with
          | none => some (s.unresumed info body out .preconditionFailed)
          | some rest =>
            let body := { body with rest := rest, broken := false }
            some { s with phase := .streaming info body out }
        else some (s.unresumed info body out .preconditionFailed)
    | _ => none
  | .lose =>
    match s.phase with
    | .called | .stated _ => some { s with phase := .failed .other }
    | .streaming info body out =>
      if body.broken then some (s.unresumed info body out .other) else none
    | _ => none

/-- A body that streamed to its end is what was asked for of the version in the metadata. -/
def Paired (cfg : Config) (s : Get α) : Prop :=
  ∀ info out, s.phase = .done info out →
    ∃ g x, s.bucket.history g = some x ∧ info.version = genVersion g ∧ out = wanted cfg.opts.range x

/-- The body request finds the object the metadata described, HTTP responses name their
generation, and a bulk body is not cut short without an error when no resume is left. -/
def consistent (cfg : Config) (s : Get α) : Event α → Bool
  | .read named _ =>
    let described := match s.phase with
      | .stated info => s.bucket.live.all fun o => info.version = genVersion o.1
      | _ => true
    (!cfg.viaHttp || named) && described
  | .eof =>
    match s.phase with
    | .streaming _ body _ => body.rest.isEmpty || body.resumes
    | _ => true
  | _ => true

/-- A body is delivered in order, and one that ends without an error is the range of one
generation. -/
def Delivers (cfg : Config) (s : Get α) : Prop :=
  match s.phase with
  | .streaming _ _ out => ∃ g x, s.bucket.history g = some x ∧ out <+: wanted cfg.opts.range x
  | .done _ out => ∃ g x, s.bucket.history g = some x ∧ out = wanted cfg.opts.range x
  | _ => True

/-- HTTP responses name their generation, and a bulk body is not cut short without an error when
no resume is left. -/
def resumable (cfg : Config) (s : Get α) : Event α → Bool
  | .read named _ => !cfg.viaHttp || named
  | .eof =>
    match s.phase with
    | .streaming _ body _ => body.rest.isEmpty || body.resumes
    | _ => true
  | _ => true

end Get

section Paired

variable {cfg : Config} {g : ℕ} {x out rest : List α} {body : Body α}

theorem wanted_eq (range : Option (ℕ × ℕ)) (x : List α) :
    wanted range x = (x.drop (range.elim 0 Prod.fst)).take
      (range.elim x.length Prod.snd - range.elim 0 Prod.fst) := by
  cases range with
  | none => simp [wanted]
  | some r => rfl

theorem httpRange_wanted {range : Option (ℕ × ℕ)} (hrange : range.all fun r => r.1 < r.2)
    (h : httpRange range x = some rest) : rest = wanted range x := by
  cases range with
  | none => exact (Option.some.inj h).symm
  | some r =>
    have hlt : r.1 < r.2 := by simpa using hrange
    have hlast : ¬ r.2 - 1 < r.1 := by omega
    have hlen : r.2 - 1 + 1 - r.1 = r.2 - r.1 := by omega
    simp only [httpRange, if_neg hlast, hlen] at h
    split_ifs at h
    exact (Option.some.inj h).symm

theorem sdkRange_wanted {range : Option (ℕ × ℕ)} (hrange : range.all fun r => r.1 < r.2)
    (h : sdkRange range x = some rest) : rest = wanted range x := by
  cases range with
  | none => exact (Option.some.inj h).symm
  | some r =>
    have hlt : r.1 < r.2 := by simpa using hrange
    have hlimit : ¬ r.2 - r.1 = 0 := by omega
    simp only [sdkRange, if_neg hlimit] at h
    split_ifs at h
    exact (Option.some.inj h).symm

/-- The body under way is a part of what was asked for of generation `g`. -/
structure Follows (cfg : Config) (g : ℕ) (x : List α) (body : Body α) (out : List α) : Prop where
  generation : body.generation = some g
  sent : out <+: wanted cfg.opts.range x
  rest : body.broken = false → out ++ body.rest = wanted cfg.opts.range x
  pos : body.bulk → body.pos = cfg.opts.range.elim 0 Prod.fst + out.length
  /-- A bulk body whose response named no size does not resume. -/
  stop : body.pos < body.stop → body.stop = cfg.opts.range.elim x.length Prod.snd
  broken : body.broken → body.bulk ∧ body.pos < body.stop

theorem Config.opened_follows {named sized : Bool}
    (hrange : cfg.opts.range.all fun r => r.1 < r.2) (hnamed : cfg.viaHttp → named)
    (h : cfg.opened g x named sized = some body) : Follows cfg g x body [] := by
  by_cases hvia : cfg.viaHttp
  · simp only [Config.opened, hvia, if_true, hnamed hvia] at h
    obtain ⟨rest, hrest, rfl⟩ := Option.map_eq_some_iff.mp h
    have hwanted := httpRange_wanted hrange hrest
    refine ⟨rfl, by simp, fun _ => hwanted, fun _ => rfl, ?_, by simp⟩
    cases cfg.opts.range with
    | none => cases sized <;> simp
    | some r => simp
  · simp only [Config.opened, hvia, Bool.false_eq_true, if_false] at h
    obtain ⟨rest, hrest, rfl⟩ := Option.map_eq_some_iff.mp h
    have hwanted := sdkRange_wanted hrange hrest
    exact ⟨rfl, by simp, fun _ => hwanted, by simp, by simp, by simp⟩

theorem Follows.deliver (h : Follows cfg g x body out) (hopen : body.broken = false) (n : ℕ) :
    Follows cfg g x (body.deliver n) (out ++ body.rest.take n) where
  generation := h.generation
  sent := by
    rw [← h.rest hopen]
    exact (List.prefix_append_right_inj out).mpr (List.take_prefix n body.rest)
  rest := fun _ => by
    simp only [Body.deliver, List.append_assoc, List.take_append_drop]
    exact h.rest hopen
  pos := fun hbulk => by
    have := h.pos hbulk
    simp only [Body.deliver, List.length_append]
    omega
  stop := fun hlt => by
    simp only [Body.deliver] at hlt ⊢
    exact h.stop (by omega)
  broken := fun hbroken => by
    simp only [Body.deliver, hopen] at hbroken
    cases hbroken

theorem Follows.retry (h : Follows cfg g x body out) (hbulk : body.bulk)
    (hlt : body.pos < body.stop) : Follows cfg g x body.retry out :=
  ⟨h.generation, h.sent, by simp [Body.retry], h.pos, h.stop, fun _ => ⟨hbulk, hlt⟩⟩

/-- The bytes a resume asks for are those that are still missing. -/
theorem Follows.resume (h : Follows cfg g x body out) (hbroken : body.broken)
    (hrest : httpRange (some (body.pos, body.stop)) x = some rest) :
    Follows cfg g x { body with rest := rest, broken := false } out := by
  obtain ⟨hbulk, hlt⟩ := h.broken hbroken
  refine ⟨h.generation, h.sent, fun _ => ?_, h.pos, h.stop, by simp⟩
  have hmissing := httpRange_wanted (by simpa using hlt) hrest
  calc out ++ rest
      = out ++ (wanted cfg.opts.range x).drop out.length := by
        rw [hmissing, wanted_eq cfg.opts.range, List.drop_take, List.drop_drop, ← h.stop hlt,
          ← h.pos hbulk]
        simp only [wanted, h.pos hbulk, Nat.sub_sub]
    _ = wanted cfg.opts.range x := List.prefix_iff_eq_append.mp h.sent

namespace Get

variable {s s' : Get α}

/-- A body that is read is that of a generation which the metadata goes with. -/
def Held (cfg : Config) (goes : ObjectMeta → ℕ → Prop) (s : Get α) : Prop :=
  match s.phase with
  | .streaming info body out => ∃ g x, s.bucket.history g = some x ∧
      goes info g ∧ Follows cfg g x body out
  | .done info out => ∃ g x, s.bucket.history g = some x ∧
      goes info g ∧ out = wanted cfg.opts.range x
  | _ => True

/-- What holds of a get all of whose steps are consistent. -/
def Inv (cfg : Config) (s : Get α) : Prop :=
  match s.phase with
  | .streaming info body out => ∃ g x, s.bucket.history g = some x ∧
      info.version = genVersion g ∧ Follows cfg g x body out
  | .done info out => ∃ g x, s.bucket.history g = some x ∧
      info.version = genVersion g ∧ out = wanted cfg.opts.range x
  | _ => True

theorem Inv.paired (h : Inv cfg s) : s.Paired cfg := by
  intro info out hdone
  simpa only [Inv, hdone] using h

variable {goes : ObjectMeta → ℕ → Prop}

theorem Held.delivers (h : Held cfg goes s) : s.Delivers cfg := by
  unfold Held at h
  unfold Delivers
  cases hphase : s.phase with
  | streaming info body out =>
    simp only [hphase] at h
    obtain ⟨g, x, hheld, -, hfollows⟩ := h
    exact ⟨g, x, hheld, hfollows.sent⟩
  | done info out =>
    simp only [hphase] at h
    obtain ⟨g, x, hheld, -, hout⟩ := h
    exact ⟨g, x, hheld, hout⟩
  | called | stated _ | notModified _ | failed _ => trivial

/-- A body under way follows a generation that its metadata goes with. -/
theorem Held.follows (h : Held cfg goes s) {info : ObjectMeta}
    (hphase : s.phase = .streaming info body out) :
    ∃ g x, s.bucket.history g = some x ∧ goes info g ∧ Follows cfg g x body out := by
  simpa only [Held, hphase] using h

/-- The bucket keeps what its generations held. -/
theorem Held.rebase (h : Held cfg goes s) {b : Bucket α}
    (hb : ∀ g x, s.bucket.history g = some x → b.history g = some x) :
    Held cfg goes { s with bucket := b } := by
  unfold Held at h ⊢
  cases hphase : s.phase with
  | streaming info body out =>
    simp only [hphase] at h ⊢
    obtain ⟨g, x, hx, hrest⟩ := h
    exact ⟨g, x, hb g x hx, hrest⟩
  | done info out =>
    simp only [hphase] at h ⊢
    obtain ⟨g, x, hx, hrest⟩ := h
    exact ⟨g, x, hb g x hx, hrest⟩
  | called | stated _ | notModified _ | failed _ => trivial

theorem Held.served {info : ObjectMeta} {named sized : Bool}
    (hrange : cfg.opts.range.all fun r => r.1 < r.2) (hnamed : cfg.viaHttp → named)
    (hlive : s.bucket.live = some (g, x)) (hinfo : goes info g) :
    Held cfg goes (s.served cfg info g x named sized) := by
  have hheld : s.bucket.history g = some x := s.bucket.recorded (g, x) hlive
  unfold Get.served
  cases hopen : cfg.opened g x named sized with
  | none => trivial
  | some body => exact ⟨g, x, hheld, hinfo, Config.opened_follows hrange hnamed hopen⟩

theorem Held.unresumed {info : ObjectMeta} {e : StoreError}
    (hheld : s.bucket.history g = some x) (hinfo : goes info g)
    (h : Follows cfg g x body out) (hbroken : body.broken) :
    Held cfg goes (s.unresumed info body out e) := by
  obtain ⟨hbulk, hlt⟩ := h.broken hbroken
  unfold Get.unresumed
  split_ifs
  · trivial
  · exact ⟨g, x, hheld, hinfo, h.retry hbulk hlt⟩

/-- A direct read takes the metadata from the response that carries the body. -/
theorem responseMeta_version {named sized : Bool} (hnamed : cfg.viaHttp → named) :
    (cfg.responseMeta g x named sized).version = genVersion g := by
  by_cases hvia : cfg.viaHttp
  · simp [Config.responseMeta, hvia, hnamed hvia]
  · simp [Config.responseMeta, hvia]

/-- A step keeps the body that of one generation, if the metadata that is taken goes with it. -/
theorem Held.step (h : Held cfg goes s) (hrange : cfg.opts.range.all fun r => r.1 < r.2)
    {e : Event α} (hcons : resumable cfg s e)
    (hgoes : ∀ named sized g x info, e = .read named sized → s.bucket.live = some (g, x) →
      (s.phase = .stated info ∨ info = cfg.responseMeta g x named sized) → goes info g)
    (hstep : step cfg s e = some s') : Held cfg goes s' := by
  cases e with
  | foreignWrite g y =>
    simp only [Get.step] at hstep
    split_ifs at hstep with hnext
    cases hstep
    exact h.rebase fun k x hx => Bucket.history_write hnext hx
  | foreignDelete =>
    cases hstep
    exact h.rebase fun k x hx => hx
  | stat =>
    simp only [Get.step] at hstep
    split at hstep
    · split at hstep
      · cases hstep
        trivial
      · split_ifs at hstep <;> cases hstep <;> trivial
    · cases hstep
  | read named sized =>
    have hnamed : cfg.viaHttp → named := by
      intro hvia
      simpa only [resumable, hvia, Bool.not_true, Bool.false_or] using hcons
    simp only [Get.step] at hstep
    split at hstep
    · split_ifs at hstep
      · cases hstep
        trivial
      · split at hstep
        · cases hstep
          trivial
        · rename_i g x hlive
          split_ifs at hstep <;> cases hstep
          · exact Held.served hrange hnamed hlive (hgoes named sized g x _ rfl hlive (.inr rfl))
          · trivial
    · rename_i info hphase
      split at hstep
      · cases hstep
        trivial
      · rename_i g x hlive
        cases hstep
        exact Held.served hrange hnamed hlive (hgoes named sized g x info rfl hlive (.inl hphase))
    · cases hstep
  | chunk n =>
    simp only [Get.step] at hstep
    split at hstep
    · rename_i info body out hphase
      split_ifs at hstep with hbroken
      cases hstep
      obtain ⟨g, x, hheld, hinfo, hfollows⟩ := h.follows hphase
      exact ⟨g, x, hheld, hinfo, hfollows.deliver (by simpa using hbroken) n⟩
    · cases hstep
  | eof =>
    simp only [Get.step] at hstep
    split at hstep
    · rename_i info body out hphase
      obtain ⟨g, x, hheld, hinfo, hfollows⟩ := h.follows hphase
      split_ifs at hstep with hbroken hresumes hend
      · cases hstep
        simp only [Body.resumes, Bool.and_eq_true, decide_eq_true_eq] at hresumes
        exact ⟨g, x, hheld, hinfo, hfollows.retry hresumes.1 hresumes.2.1.2⟩
      · cases hstep
        have hrest : body.rest = [] := by
          simp only [resumable, hphase, Bool.or_eq_true, List.isEmpty_iff] at hcons
          rcases hcons with hnil | hres
          · exact hnil
          · by_cases hbulk : body.bulk
            · exact absurd (by simp [hbulk, hres]) hresumes
            · simpa [hbulk] using hend
        have hall := hfollows.rest (by simpa using hbroken)
        rw [hrest, List.append_nil] at hall
        exact ⟨g, x, hheld, hinfo, hall⟩
    · cases hstep
  | cut =>
    simp only [Get.step] at hstep
    split at hstep
    · rename_i info body out hphase
      obtain ⟨g, x, hheld, hinfo, hfollows⟩ := h.follows hphase
      split_ifs at hstep with hbroken hlast <;> cases hstep
      · trivial
      · simp only [Bool.or_eq_true, Bool.not_eq_true', decide_eq_true_eq, not_or, not_le,
          Bool.not_eq_false] at hlast
        exact ⟨g, x, hheld, hinfo, hfollows.retry hlast.1.1 hlast.2⟩
    · cases hstep
  | resume =>
    simp only [Get.step] at hstep
    split at hstep
    · rename_i info body out hphase
      obtain ⟨g, x, hheld, hinfo, hfollows⟩ := h.follows hphase
      split_ifs at hstep with hbroken
      have hbroken : body.broken := by simpa using hbroken
      split at hstep
      · cases hstep
        exact Held.unresumed hheld hinfo hfollows hbroken
      · rename_i g' x' hlive
        split_ifs at hstep with hpinned
        · -- The response is pinned, so it comes from the object the first one did.
          have hsame : g = g' := by simpa [hfollows.generation] using hpinned
          have hheld' := s.bucket.recorded (g', x') hlive
          subst hsame
          have hx : x = x' := Option.some.inj (hheld.symm.trans hheld')
          subst hx
          split at hstep
          · cases hstep
            exact Held.unresumed hheld hinfo hfollows hbroken
          · rename_i rest hrest
            cases hstep
            exact ⟨g, x, hheld, hinfo, hfollows.resume hbroken hrest⟩
        · cases hstep
          exact Held.unresumed hheld hinfo hfollows hbroken
    · cases hstep
  | lose =>
    simp only [Get.step] at hstep
    split at hstep
    · cases hstep
      trivial
    · cases hstep
      trivial
    · rename_i info body out hphase
      obtain ⟨g, x, hheld, hinfo, hfollows⟩ := h.follows hphase
      split_ifs at hstep with hbroken
      cases hstep
      exact Held.unresumed hheld hinfo hfollows hbroken
    · cases hstep

theorem Inv.step (h : Inv cfg s) (hrange : cfg.opts.range.all fun r => r.1 < r.2) {e : Event α}
    (hcons : consistent cfg s e) (hstep : step cfg s e = some s') : Inv cfg s' := by
  have hresumable : resumable cfg s e := by
    cases e with
    | read named sized => exact (Bool.and_eq_true_iff.mp hcons).1
    | eof => exact hcons
    | foreignWrite _ _ | foreignDelete | stat | chunk _ | cut | resume | lose => rfl
  have hheld : Held cfg (fun info g => info.version = genVersion g) s := h
  refine hheld.step hrange hresumable ?_ hstep
  rintro named sized g x info rfl hlive (hphase | rfl)
  · simp only [consistent, hphase, hlive, Option.all_some, Bool.and_eq_true,
      decide_eq_true_eq] at hcons
    exact hcons.2
  · refine responseMeta_version fun hvia => ?_
    simpa only [resumable, hvia, Bool.not_true, Bool.false_or] using hresumable

/-- With consistent steps and a range that is not empty, no version is paired with other
bytes. -/
theorem get_paired (cfg : Config) (hrange : cfg.opts.range.all fun r => r.1 < r.2)
    {events : List (Event α)} {s : Get α} (hrun : Runs.run (step cfg) start events = some s)
    (hall : Runs.AllSteps (step cfg) (fun s e => consistent cfg s e) start events) :
    s.Paired cfg :=
  (Runs.invariant (fun _ _ _ h hcons hstep => Inv.step h hrange hcons hstep) hrun hall
    trivial).paired

/-- A pack read by range. -/
def packRead : Config := ⟨true, "repos/a/wal/1/pack", ⟨none, none, some (1, 4)⟩⟩

/-- The response is cut after one byte, and the resume delivers the rest. -/
def resumedRead : List (Event ℕ) :=
  [.foreignWrite 1 [5, 6, 7, 8, 9], .read true true, .chunk 1, .cut, .resume, .chunk 2, .eof]

theorem get_paired_resumed :
    ∃ s, Runs.run (step packRead) start resumedRead = some s ∧ s.Paired packRead := by
  have hrun : (Runs.run (step packRead) start resumedRead).isSome := by decide
  obtain ⟨s, hs⟩ := Option.isSome_iff_exists.mp hrun
  exact ⟨s, hs, get_paired packRead (by decide) hs (by decide)⟩

/-- With resumable steps and a range that is not empty, a body comes in order, and whole unless
it ends with an error. -/
theorem bulkRead_delivers (cfg : Config) (hrange : cfg.opts.range.all fun r => r.1 < r.2)
    {events : List (Event α)} {s : Get α} (hrun : Runs.run (step cfg) start events = some s)
    (hall : Runs.AllSteps (step cfg) (fun s e => resumable cfg s e) start events) :
    s.Delivers cfg :=
  (Runs.invariant (I := Held cfg fun _ _ => True)
    (fun _ _ _ h hcons hstep => h.step hrange hcons (fun _ _ _ _ _ _ _ _ => trivial) hstep)
    hrun hall trivial).delivers

theorem bulkRead_delivers_resumed :
    ∃ s, Runs.run (step packRead) start resumedRead = some s ∧ s.Delivers packRead := by
  have hrun : (Runs.run (step packRead) start resumedRead).isSome := by decide
  obtain ⟨s, hs⟩ := Option.isSome_iff_exists.mp hrun
  exact ⟨s, hs, bulkRead_delivers packRead (by decide) hs (by decide)⟩

/-- Every response ends after one byte or none, the last of them when all resumes are used up. -/
def shortReads : List (Event ℕ) :=
  [.foreignWrite 1 [5, 6, 7, 8, 9], .read true true, .chunk 1, .eof] ++
    (List.replicate bulkResumeAttempts [.resume, .eof]).flatten

/-- A manifest read with a known version. -/
def manifestRead : Config := ⟨true, "repos/a/manifest.pb", ⟨some "7", none, none⟩⟩

/-- The manifest is rewritten between the metadata and the body. -/
def rewrittenRead : List (Event ℕ) :=
  [.foreignWrite 1 [1], .stat, .foreignWrite 2 [2], .read true true, .chunk 1, .eof]

/-- The answer of a get that is over, with what the generations of its key held. -/
def outcome (s : Get α) : Option (String × List α) × List (Option (List α)) :=
  let answer := match s.phase with
    | .done info out => some (info.version, out)
    | _ => none
  (answer, (List.range s.bucket.next).map s.bucket.history)

/-- What a generation held stands in its row. -/
theorem outcome_row {rows : List (Option (List α))} (h : (outcome s).2 = rows)
    (hheld : s.bucket.history g = some x) : rows[g]? = some (some x) := by
  have hlt : g < s.bucket.next := by
    by_contra hge
    rw [s.bucket.unused g (Nat.le_of_not_lt hge)] at hheld
    cases hheld
  rw [← h, outcome, List.getElem?_map, List.getElem?_range hlt, Option.map_some, hheld]

/-- Version `1` is returned with the bytes of version `2`. -/
theorem get_mispaired :
    ∃ s, Runs.run (step manifestRead) start rewrittenRead = some s ∧ ¬ s.Paired manifestRead := by
  have hrun : (Runs.run (step manifestRead) start rewrittenRead).map outcome =
      some (some ("1", [2]), [none, some [1], some [2]]) := by decide
  obtain ⟨s, hs, hout⟩ := Option.map_eq_some_iff.mp hrun
  refine ⟨s, hs, fun hpaired => ?_⟩
  obtain ⟨hanswer, hhistory⟩ := Prod.mk.inj hout
  split at hanswer
  · rename_i info out hdone
    obtain ⟨hversion, hout⟩ := Prod.mk.inj (Option.some.inj hanswer)
    obtain ⟨g, x, hheld, hg, hx⟩ := hpaired info out hdone
    have hrow := outcome_row hhistory hheld
    rw [hversion] at hg
    rw [hout] at hx
    match g, hrow with
    | 1, hrow =>
      cases hrow
      cases hx
    | 2, _ => exact absurd hg (by decide)
  · cases hanswer

/-- One byte of three is delivered, without an error. -/
theorem bulkRead_short :
    ∃ s, Runs.run (step packRead) start shortReads = some s ∧ ¬ s.Delivers packRead := by
  have hrun : (Runs.run (step packRead) start shortReads).map outcome =
      some (some ("1", [6]), [none, some [5, 6, 7, 8, 9]]) := by decide
  obtain ⟨s, hs, hout⟩ := Option.map_eq_some_iff.mp hrun
  refine ⟨s, hs, fun hdelivers => ?_⟩
  obtain ⟨hanswer, hhistory⟩ := Prod.mk.inj hout
  unfold Delivers at hdelivers
  split at hanswer
  · rename_i info out hdone
    obtain ⟨-, rfl⟩ := Prod.mk.inj (Option.some.inj hanswer)
    rw [hdone] at hdelivers
    obtain ⟨g, x, hheld, hx⟩ := hdelivers
    have hrow := outcome_row hhistory hheld
    match g, hrow with
    | 1, hrow =>
      cases hrow
      exact absurd hx (by decide)
  · cases hanswer

end Get

end Paired

end Walgit.Gcs
