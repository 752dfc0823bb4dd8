import Walgit.Deltas
import Walgit.Fetch

/-!
# Objects read remotely

Packs whose indexes are here and whose data stays in the store. `find` decodes an object through
its chain of deltas and remembers what it decoded on the way; `header` walks the same chain for
the kind and the size alone.
-/
namespace Walgit.Remote

open Deltas (Bytes deltaResultSize applyDelta)

def blockSize : ℕ := 1024 * 1024

/-- A decoded object. -/
structure Obj where
  kind : Kind
  data : Bytes
  deriving DecidableEq

/-- The header of a pack entry, as the pack library reads it. -/
inductive Header where
  | base (kind : Kind)
  | ofsDelta (baseDistance : ℕ)
  | refDelta (baseId : Oid)
  deriving DecidableEq

structure Entry where
  header : Header
  decompressedSize : ℕ
  dataOffset : ℕ
  packOffset : ℕ
  deriving DecidableEq

structure RemotePack where
  size : ℕ
  /-- The offset of an object by its index. -/
  idx : Oid → Option ℕ
  /-- A block of the pack, from the cache or by a range read. -/
  block : ℕ → Except String Bytes

/-- What other libraries do: reading the header of an entry, and inflating what begins with a chunk
and goes on at a position of a pack. -/
structure Libraries where
  fromBytes : Bytes → ℕ → Except String Entry
  decompress : RemotePack → ℕ → Bytes → ℕ → Except String Bytes

/-- A pack and an offset in it. -/
abbrev Loc := ℕ × ℕ

abbrev Cache := Loc → Option Obj

section Code

variable (lib : Libraries) (packs : List RemotePack) (cache : Cache)

/-- The first pack whose index has the object. -/
def locateFrom (oid : Oid) : ℕ → List RemotePack → Option Loc
  | _, [] => none
  | i, p :: packs =>
    match p.idx oid with
    | some off => some (i, off)
    | none => locateFrom oid (i + 1) packs

def locate (oid : Oid) : Option Loc := locateFrom oid 0 packs

def pack (pi : ℕ) : Except Deltas.Fault RemotePack :=
  match packs[pi]? with
  | some p => .ok p
  | none => .error (.err "pack index out of bounds")

/-- `get(start..stop)`. -/
def slice (b : Bytes) (start stop : ℕ) : Except Deltas.Fault Bytes :=
  if start ≤ stop ∧ stop ≤ b.length then .ok ((b.drop start).take (stop - start))
  else .error (.err "short range block")

def blocks (p : RemotePack) (first last : ℕ) : Except Deltas.Fault (List Bytes) :=
  (List.range (last + 1 - first)).mapM fun i => (p.block (first + i)).mapError .err

/-- The bytes `[off, stop)` from the blocks that they lie in, the first of them `first`. -/
def assemble (off stop first : ℕ) : List Bytes → Except Deltas.Fault Bytes
  | [b] => slice b (off - first * blockSize) (stop - first * blockSize)
  | bs =>
    if Deltas.isizeMax < stop - off then .error (.panic "capacity overflow")
    else do
      let parts ← (bs.zipIdx first).mapM fun (b, n) =>
        slice b (off - n * blockSize) (min (stop - n * blockSize) b.length)
      pure parts.flatten

def readAt (pi off len : ℕ) : Except Deltas.Fault Bytes := do
  let p ← pack packs pi
  let stop := min (min (off + len) (2 ^ 64 - 1)) p.size
  if stop ≤ off then pure []
  else
    let first := off / blockSize
    let last := (stop - 1) / blockSize
    assemble off stop first (← blocks p first last)

/-- The header of an entry, and the bytes it was read from. -/
def readEntryHeader (pi off : ℕ) : Except Deltas.Fault (Entry × Bytes) := do
  let head ← readAt packs pi off 64
  match lib.fromBytes head off with
  | .ok entry => pure (entry, head)
  | .error e => throw (.err ("pack entry at " ++ toString off ++ ": " ++ e))

/-- The blocks that the payload plausibly covers are asked for up front. -/
def prefetch (p : RemotePack) (entry : Entry) : Except Deltas.Fault Unit := do
  let guessEnd := min (entry.dataOffset + min entry.decompressedSize (64 * blockSize) + 64) p.size
  if entry.dataOffset < guessEnd then
    let first := entry.dataOffset / blockSize
    let last := (guessEnd - 1) / blockSize
    if first < last then
      let _ ← blocks p first last

def inflateWithHead (pi : ℕ) (entry : Entry) (head : Bytes) : Except Deltas.Fault Bytes := do
  let p ← pack packs pi
  prefetch p entry
  let chunk := head.drop (entry.dataOffset - entry.packOffset)
  let out ← (lib.decompress p entry.dataOffset chunk entry.decompressedSize).mapError .err
  if out.length ≠ entry.decompressedSize then
    throw (.err ("pack entry at " ++ toString entry.packOffset ++ ": inflated " ++
      toString out.length ++ " bytes, expected " ++ toString entry.decompressedSize))
  pure out

def inflate (pi : ℕ) (entry : Entry) : Except Deltas.Fault Bytes := do
  let head ← readAt packs pi entry.packOffset 64
  inflateWithHead lib packs pi entry head

/-- Where the base of an offset delta lies; a distance that leads out of the pack wraps. -/
def ofsBase (pi : ℕ) (entry : Entry) (distance : ℕ) : Loc :=
  (pi, (entry.packOffset + 2 ^ 64 - distance) % 2 ^ 64)

def refBase (id : Oid) : Except Deltas.Fault Loc :=
  match locate packs id with
  | some loc => .ok loc
  | none => .error (.err ("ref-delta base " ++ id ++ " missing from pack set"))

/-- The size of the object, from its own delta alone. -/
def deltaSize (pi : ℕ) (entry : Entry) : Option ℕ → Except Deltas.Fault ℕ
  | some size => .ok size
  | none => do
    let delta ← inflate lib packs pi entry
    (deltaResultSize delta).mapError .err

/-- At most so many positions are looked at. -/
def headerFrom : ℕ → Loc → Option ℕ → Except Deltas.Fault (Option (Kind × ℕ))
  | 0, _, _ => .error (.err "delta chain too deep")
  | n + 1, cur, size =>
    match cache cur with
    | some o => .ok (some (o.kind, size.getD o.data.length))
    | none =>
      match readEntryHeader lib packs cur.1 cur.2 with
      | .error e => .error e
      | .ok (entry, _) =>
        match entry.header with
        | .base kind => .ok (some (kind, size.getD entry.decompressedSize))
        | .ofsDelta distance => do
          let size ← deltaSize lib packs cur.1 entry size
          headerFrom n (ofsBase cur.1 entry distance) (some size)
        | .refDelta id => do
          let size ← deltaSize lib packs cur.1 entry size
          let base ← refBase packs id
          headerFrom n base (some size)

/-- Kind and size without materializing the object. -/
def header (oid : Oid) : Except Deltas.Fault (Option (Kind × ℕ)) :=
  match locate packs oid with
  | none => .ok none
  | some loc => headerFrom lib packs cache 256 loc none

/-- Goes down the chain to an object that is there, and stacks the deltas; at most so many more. -/
def descend : ℕ → Loc → List (Loc × Bytes) → Except Deltas.Fault (Obj × List (Loc × Bytes) × Cache)
  | n, cur, chain =>
    match cache cur with
    | some o => .ok (o, chain, cache)
    | none =>
      match n with
      | 0 => .error (.err "delta chain too deep")
      | n + 1 => do
        let (entry, head) ← readEntryHeader lib packs cur.1 cur.2
        let data ← inflateWithHead lib packs cur.1 entry head
        match entry.header with
        | .base kind => pure (⟨kind, data⟩, chain, Function.update cache cur (some ⟨kind, data⟩))
        | .ofsDelta distance =>
          descend n (ofsBase cur.1 entry distance) ((cur, data) :: chain)
        | .refDelta id => do
          let base ← refBase packs id
          descend n base ((cur, data) :: chain)

/-- Applies the deltas from the last one on; each result is remembered. -/
def rebuild : Cache → Obj → List (Loc × Bytes) → Except Deltas.Fault Obj × Cache
  | cache, base, [] => (.ok base, cache)
  | cache, base, (loc, delta) :: chain =>
    match applyDelta base.data delta with
    | .error (.err m) =>
      (.error (.err ("delta at " ++ toString loc.1 ++ ":" ++ toString loc.2 ++ ": " ++ m)), cache)
    | .error (.panic m) => (.error (.panic m), cache)
    | .ok out =>
      rebuild (Function.update cache loc (some ⟨base.kind, out⟩)) ⟨base.kind, out⟩ chain

/-- More than 4096 stacked deltas are too many. -/
def decodeInner (loc : Loc) : Except Deltas.Fault Obj × Cache :=
  match descend lib packs cache 4097 loc [] with
  | .error e => (.error e, cache)
  | .ok (base, chain, cache) => rebuild cache base chain

def decode (loc : Loc) : Except Deltas.Fault Obj × Cache :=
  match cache loc with
  | some o => (.ok o, cache)
  | none => decodeInner lib packs cache loc

def find (oid : Oid) : Except Deltas.Fault (Option Obj) × Cache :=
  match locate packs oid with
  | none => (.ok none, cache)
  | some loc =>
    let (o, cache) := decode lib packs cache loc
    (o.map some, cache)

/-- Where the base of an entry lies, if it has one. -/
def baseOf (pi : ℕ) (entry : Entry) : Option Loc :=
  match entry.header with
  | .base _ => none
  | .ofsDelta distance => some (ofsBase pi entry distance)
  | .refDelta id => locate packs id

end Code

section Meaning

variable (lib : Libraries) (packs : List RemotePack)

/-- The object at a place of the packs, whatever is remembered. -/
inductive Decodes : Loc → Obj → Prop
  | base {loc : Loc} {entry : Entry} {head data : Bytes} {kind : Kind}
      (hentry : readEntryHeader lib packs loc.1 loc.2 = .ok (entry, head))
      (hkind : entry.header = .base kind)
      (hdata : inflateWithHead lib packs loc.1 entry head = .ok data) : Decodes loc ⟨kind, data⟩
  | delta {loc next : Loc} {entry : Entry} {head delta out : Bytes} {b : Obj}
      (hentry : readEntryHeader lib packs loc.1 loc.2 = .ok (entry, head))
      (hnext : baseOf packs loc.1 entry = some next)
      (hdelta : inflateWithHead lib packs loc.1 entry head = .ok delta)
      (hbase : Decodes next b) (hout : applyDelta b.data delta = .ok out) :
      Decodes loc ⟨b.kind, out⟩

/-- What is remembered is what the packs have. -/
def Consistent (cache : Cache) : Prop := ∀ loc o, cache loc = some o → Decodes lib packs loc o

/-- Among the first `n` places of the chain there is an object that is no delta or is
remembered. -/
inductive Ends (cache : Cache) : ℕ → Loc → Prop
  | cached {n : ℕ} {loc : Loc} {o : Obj} (ho : cache loc = some o) : Ends cache (n + 1) loc
  | base {n : ℕ} {loc : Loc} {entry : Entry} {head : Bytes} {kind : Kind}
      (hentry : readEntryHeader lib packs loc.1 loc.2 = .ok (entry, head))
      (hkind : entry.header = .base kind) : Ends cache (n + 1) loc
  | delta {n : ℕ} {loc next : Loc} {entry : Entry} {head : Bytes}
      (hentry : readEntryHeader lib packs loc.1 loc.2 = .ok (entry, head))
      (hnext : baseOf packs loc.1 entry = some next) (hends : Ends cache n next) :
      Ends cache (n + 1) loc

/-- The offset of an entry is where it was read. -/
def Libraries.Placed : Prop :=
  ∀ head off entry, lib.fromBytes head off = .ok entry → entry.packOffset = off

end Meaning

variable {lib : Libraries} {packs : List RemotePack} {cache : Cache}

theorem readEntryHeader_ok {pi off : ℕ} {entry : Entry} {head : Bytes}
    (h : readEntryHeader lib packs pi off = .ok (entry, head)) :
    readAt packs pi off 64 = .ok head ∧ lib.fromBytes head off = .ok entry := by
  obtain ⟨head', hread, h⟩ := Checks.bind_eq_ok.mp h
  cases hentry : lib.fromBytes head' off with
  | error e => simp [hentry] at h
  | ok entry' =>
    rw [hentry] at h
    cases h
    exact ⟨hread, hentry⟩

theorem inflate_eq (hplaced : lib.Placed) {pi off : ℕ} {entry : Entry} {head : Bytes}
    (h : readEntryHeader lib packs pi off = .ok (entry, head)) :
    inflate lib packs pi entry = inflateWithHead lib packs pi entry head := by
  obtain ⟨hread, hentry⟩ := readEntryHeader_ok h
  rw [inflate, hplaced _ _ _ hentry, hread, Checks.ok_bind]

theorem length_inflate {pi : ℕ} {entry : Entry} {head data : Bytes}
    (h : inflateWithHead lib packs pi entry head = .ok data) :
    data.length = entry.decompressedSize := by
  obtain ⟨p, _, h⟩ := Checks.bind_eq_ok.mp h
  obtain ⟨_, h⟩ := Checks.check_ok.mp h
  obtain ⟨out, _, h⟩ := Checks.bind_eq_ok.mp h
  obtain ⟨hlen, h⟩ := Checks.guard_ok.mp h
  cases h
  exact not_not.mp hlen

theorem mapError_eq_ok {α ε ε' : Type} {x : Except ε α} {f : ε → ε'} {a : α} :
    x.mapError f = .ok a ↔ x = .ok a := by
  cases x <;> simp [Except.mapError]

/-- The size that a delta announces is that of its result. -/
theorem deltaResultSize_eq {base delta out : Bytes} (h : applyDelta base delta = .ok out) :
    deltaResultSize delta = .ok out.length := by
  obtain ⟨⟨_, rest⟩, hfirst, h⟩ := Checks.bind_eq_ok.mp h
  obtain ⟨_, h⟩ := Checks.guard_ok.mp h
  obtain ⟨⟨size, body⟩, hsecond, h⟩ := Checks.bind_eq_ok.mp h
  obtain ⟨_, h⟩ := Checks.guard_ok.mp h
  obtain ⟨result, _, h⟩ := Checks.bind_eq_ok.mp h
  obtain ⟨hlen, h⟩ := Checks.guard_ok.mp h
  cases h
  rw [deltaResultSize, mapError_eq_ok.mp hfirst, Checks.ok_bind]
  dsimp only
  rw [mapError_eq_ok.mp hsecond, not_not.mp hlen]
  rfl

/-- A place holds one object. -/
theorem Decodes.unique {loc : Loc} {o o' : Obj} (h : Decodes lib packs loc o)
    (h' : Decodes lib packs loc o') : o = o' := by
  induction h generalizing o' with
  | base hentry hkind hdata =>
    cases h' with
    | base hentry' hkind' hdata' =>
      rw [hentry] at hentry'
      cases hentry'
      rw [hkind] at hkind'
      rw [hdata] at hdata'
      cases hkind'
      cases hdata'
      rfl
    | delta hentry' hnext =>
      rw [hentry] at hentry'
      cases hentry'
      simp [baseOf, hkind] at hnext
  | delta hentry hnext hdelta _ hout ih =>
    cases h' with
    | base hentry' hkind =>
      rw [hentry] at hentry'
      cases hentry'
      simp [baseOf, hkind] at hnext
    | delta hentry' hnext' hdelta' hbase' hout' =>
      rw [hentry] at hentry'
      cases hentry'
      rw [hnext] at hnext'
      cases hnext'
      rw [hdelta] at hdelta'
      cases hdelta'
      cases ih hbase'
      rw [hout] at hout'
      cases hout'
      rfl

section Header

theorem headerFrom_delta {n : ℕ} {loc next : Loc} {entry : Entry} {head : Bytes} {size : Option ℕ}
    (hcache : cache loc = none) (hentry : readEntryHeader lib packs loc.1 loc.2 = .ok (entry, head))
    (hnext : baseOf packs loc.1 entry = some next) :
    headerFrom lib packs cache (n + 1) loc size =
      deltaSize lib packs loc.1 entry size >>= fun s =>
        headerFrom lib packs cache n next (some s) := by
  simp only [headerFrom, hcache, hentry]
  unfold baseOf at hnext
  cases hheader : entry.header with
  | base kind => simp [hheader] at hnext
  | ofsDelta distance =>
    simp only [hheader, Option.some.injEq] at hnext
    rw [← hnext]
  | refDelta id =>
    simp only [hheader] at hnext
    simp only [refBase, hnext]
    rfl

open Classical in
/-- Of an object that can be decoded, the walk gives the kind and the size unless it takes too
long. -/
theorem headerFrom_decodes (hplaced : lib.Placed) (hcache : Consistent lib packs cache) {loc : Loc}
    {o : Obj} (h : Decodes lib packs loc o) (n : ℕ) (size : Option ℕ) :
    headerFrom lib packs cache n loc size =
      if Ends lib packs cache n loc then .ok (some (o.kind, size.getD o.data.length))
      else .error (.err "delta chain too deep") := by
  induction n generalizing loc o size with
  | zero =>
    rw [if_neg nofun]
    rfl
  | succ n ih =>
    cases hc : cache loc with
    | some o' =>
      rw [if_pos (.cached hc), h.unique (hcache loc o' hc)]
      simp only [headerFrom, hc]
    | none =>
      cases h with
      | base hentry hkind hdata =>
        rw [if_pos (.base hentry hkind)]
        simp only [headerFrom, hc, hentry, hkind, length_inflate hdata]
      | @delta _ next entry head delta out b hentry hnext hdelta hbase hout =>
        have hsize : deltaSize lib packs loc.1 entry size = .ok (size.getD out.length) := by
          cases size with
          | some size => rfl
          | none =>
            rw [deltaSize, inflate_eq hplaced hentry, hdelta, Checks.ok_bind,
              deltaResultSize_eq hout]
            rfl
        have hends : Ends lib packs cache (n + 1) loc ↔ Ends lib packs cache n next := by
          refine ⟨fun h => ?_, .delta hentry hnext⟩
          cases h with
          | cached ho => rw [hc] at ho; cases ho
          | base hentry' hkind =>
            rw [hentry] at hentry'
            cases hentry'
            simp [baseOf, hkind] at hnext
          | delta hentry' hnext' hends =>
            rw [hentry] at hentry'
            cases hentry'
            rw [hnext] at hnext'
            cases hnext'
            exact hends
        rw [headerFrom_delta hc hentry hnext, hsize, Checks.ok_bind, ih hbase, Option.getD_some]
        exact if_congr hends.symm rfl rfl

end Header

section Find

/-- The stacked deltas lead from the place that is looked at up to the first one. -/
def Linked (lib : Libraries) (packs : List RemotePack) :
    List (Loc × Bytes) → Loc → Loc → Prop
  | [], cur, top => cur = top
  | (loc, delta) :: chain, cur, top =>
    (∃ entry head, readEntryHeader lib packs loc.1 loc.2 = .ok (entry, head) ∧
      baseOf packs loc.1 entry = some cur ∧
      inflateWithHead lib packs loc.1 entry head = .ok delta) ∧ Linked lib packs chain loc top

theorem Consistent.update (hcache : Consistent lib packs cache) {loc : Loc} {o : Obj}
    (h : Decodes lib packs loc o) :
    Consistent lib packs (Function.update cache loc (some o)) := by
  intro loc' o' ho
  by_cases heq : loc' = loc
  · subst heq
    rw [Function.update_self] at ho
    cases ho
    exact h
  · rw [Function.update_of_ne heq] at ho
    exact hcache loc' o' ho

/-- What the eviction of objects leaves is consistent too. -/
theorem Consistent.mono {cache' : Cache} (hcache : Consistent lib packs cache)
    (h : ∀ loc o, cache' loc = some o → cache loc = some o) : Consistent lib packs cache' :=
  fun loc o ho => hcache loc o (h loc o ho)

theorem descend_ok (hcache : Consistent lib packs cache) {n : ℕ} {cur top : Loc}
    {chain chain' : List (Loc × Bytes)} {b : Obj} {cache' : Cache}
    (hlinked : Linked lib packs chain cur top)
    (h : descend lib packs cache n cur chain = .ok (b, chain', cache')) :
    Consistent lib packs cache' ∧
      ∃ cur', Decodes lib packs cur' b ∧ Linked lib packs chain' cur' top := by
  induction n generalizing cur chain with
  | zero =>
    rw [descend] at h
    cases hc : cache cur with
    | none => simp [hc] at h
    | some o =>
      simp only [hc, Except.ok.injEq, Prod.mk.injEq] at h
      obtain ⟨rfl, rfl, rfl⟩ := h
      exact ⟨hcache, cur, hcache cur o hc, hlinked⟩
  | succ n ih =>
    rw [descend] at h
    cases hc : cache cur with
    | some o =>
      simp only [hc, Except.ok.injEq, Prod.mk.injEq] at h
      obtain ⟨rfl, rfl, rfl⟩ := h
      exact ⟨hcache, cur, hcache cur o hc, hlinked⟩
    | none =>
      simp only [hc] at h
      obtain ⟨⟨entry, head⟩, hentry, h⟩ := Checks.bind_eq_ok.mp h
      obtain ⟨data, hdata, h⟩ := Checks.bind_eq_ok.mp h
      have hstep : ∀ next, baseOf packs cur.1 entry = some next →
          Linked lib packs ((cur, data) :: chain) next top :=
        fun next hnext => ⟨⟨entry, head, hentry, hnext, hdata⟩, hlinked⟩
      cases hheader : entry.header with
      | base kind =>
        simp only [hheader] at h
        cases h
        have hobj : Decodes lib packs cur ⟨kind, data⟩ := .base hentry hheader hdata
        exact ⟨hcache.update hobj, cur, hobj, hlinked⟩
      | ofsDelta distance =>
        simp only [hheader] at h
        exact ih (hstep _ (by simp [baseOf, hheader])) h
      | refDelta id =>
        simp only [hheader] at h
        obtain ⟨base, hbase, h⟩ := Checks.bind_eq_ok.mp h
        refine ih (hstep base ?_) h
        simp only [baseOf, hheader]
        unfold refBase at hbase
        cases hlocate : locate packs id with
        | none => simp [hlocate] at hbase
        | some loc =>
          rw [hlocate] at hbase
          cases hbase
          rfl

theorem rebuild_ok {chain : List (Loc × Bytes)} {cur top : Loc} {b : Obj}
    (hcache : Consistent lib packs cache) (hb : Decodes lib packs cur b)
    (hlinked : Linked lib packs chain cur top) :
    Consistent lib packs (rebuild cache b chain).2 ∧
      ∀ o, (rebuild cache b chain).1 = .ok o → Decodes lib packs top o := by
  induction chain generalizing cache cur b with
  | nil =>
    obtain rfl : cur = top := hlinked
    refine ⟨hcache, fun o ho => ?_⟩
    cases ho
    exact hb
  | cons p chain ih =>
    obtain ⟨loc, delta⟩ := p
    obtain ⟨⟨entry, head, hentry, hnext, hdelta⟩, hlinked⟩ := hlinked
    rw [rebuild]
    cases hout : applyDelta b.data delta with
    | error e => cases e <;> exact ⟨hcache, nofun⟩
    | ok out =>
      have hobj : Decodes lib packs loc ⟨b.kind, out⟩ := .delta hentry hnext hdelta hb hout
      exact ih (hcache.update hobj) hobj hlinked

theorem decode_ok (hcache : Consistent lib packs cache) (loc : Loc) :
    Consistent lib packs (decode lib packs cache loc).2 ∧
      ∀ o, (decode lib packs cache loc).1 = .ok o → Decodes lib packs loc o := by
  unfold decode
  cases hc : cache loc with
  | some o =>
    refine ⟨hcache, fun o' ho => ?_⟩
    cases ho
    exact hcache loc o hc
  | none =>
    dsimp only
    unfold decodeInner
    cases hdescend : descend lib packs cache 4097 loc [] with
    | error e => exact ⟨hcache, nofun⟩
    | ok p =>
      obtain ⟨b, chain, cache'⟩ := p
      have hstart : Linked lib packs [] loc loc := rfl
      obtain ⟨hcache', cur, hb, hlinked⟩ := descend_ok hcache hstart hdescend
      exact rebuild_ok hcache' hb hlinked

/-- What is found is what the packs have, and so is what is remembered after it. -/
theorem find_ok (hcache : Consistent lib packs cache) (oid : Oid) :
    Consistent lib packs (find lib packs cache oid).2 ∧
      ∀ o, (find lib packs cache oid).1 = .ok (some o) →
        ∃ loc, locate packs oid = some loc ∧ Decodes lib packs loc o := by
  unfold find
  cases hlocate : locate packs oid with
  | none => exact ⟨hcache, nofun⟩
  | some loc =>
    obtain ⟨hcache', hdecodes⟩ := decode_ok hcache loc
    refine ⟨hcache', fun o ho => ⟨loc, rfl, hdecodes o ?_⟩⟩
    obtain ⟨o', ho', heq⟩ := Checks.map_eq_ok.mp ho
    cases heq
    exact ho'

/-- What may be remembered after some objects were looked for and some forgotten. -/
inductive Remembered (lib : Libraries) (packs : List RemotePack) : Cache → Prop
  | empty : Remembered lib packs fun _ => none
  | found {cache : Cache} (h : Remembered lib packs cache) (oid : Oid) :
      Remembered lib packs (find lib packs cache oid).2
  | evicted {cache cache' : Cache} (h : Remembered lib packs cache)
      (hsub : ∀ loc o, cache' loc = some o → cache loc = some o) : Remembered lib packs cache'

theorem Remembered.consistent (h : Remembered lib packs cache) : Consistent lib packs cache := by
  induction h with
  | empty => exact nofun
  | found _ oid ih => exact (find_ok ih oid).1
  | evicted _ hsub ih => exact ih.mono hsub

end Find

theorem find_none {oid : Oid} :
    (find lib packs cache oid).1 = .ok none ↔ locate packs oid = none := by
  unfold find
  cases hlocate : locate packs oid with
  | none => simp
  | some loc => cases hdecode : (decode lib packs cache loc).1 <;> simp [hdecode, Except.map]

theorem headerFrom_ne_none {n : ℕ} {loc : Loc} {size : Option ℕ} :
    headerFrom lib packs cache n loc size ≠ .ok none := by
  induction n generalizing loc size with
  | zero => exact nofun
  | succ n ih =>
    intro h
    cases hc : cache loc with
    | some o => simp [headerFrom, hc] at h
    | none =>
      cases hentry : readEntryHeader lib packs loc.1 loc.2 with
      | error e => simp [headerFrom, hc, hentry] at h
      | ok p =>
        cases hheader : p.1.header with
        | base kind => simp [headerFrom, hc, hentry, hheader] at h
        | ofsDelta distance =>
          simp only [headerFrom, hc, hentry, hheader] at h
          obtain ⟨s, _, h⟩ := Checks.bind_eq_ok.mp h
          exact ih h
        | refDelta id =>
          simp only [headerFrom, hc, hentry, hheader] at h
          obtain ⟨s, _, h⟩ := Checks.bind_eq_ok.mp h
          obtain ⟨next, _, h⟩ := Checks.bind_eq_ok.mp h
          exact ih h

/-- The libraries on entries of objects whose size takes four bits and on zlib streams of one
stored block. -/
def storedOnly : Libraries where
  fromBytes head off :=
    match head with
    | [] => .error "entry header truncated"
    | b :: _ =>
      if b.toNat / 16 = 3 then .ok ⟨.base .blob, b.toNat % 16, off + 1, off⟩
      else .error "unsupported entry"
  decompress _ _ chunk _ :=
    match chunk with
    | 0x78 :: 0x01 :: 0x01 :: low :: high :: _ :: _ :: data =>
      .ok (data.take (low.toNat + 256 * high.toNat))
    | _ => .error "inflate pack entry: incorrect header check"

/-- A pack of one blob of five bytes at its offset 12. -/
def onePack (payload : Bytes) : RemotePack where
  size := 50
  idx oid := if oid = "ce013625030ba8dba906f756967f9e9ca394464a" then some 12 else none
  block _ := .ok (List.replicate 12 0 ++ 0x35 :: payload ++ List.replicate (37 - payload.length) 0)

def hello : Bytes :=
  [0x78, 0x01, 0x01, 0x05, 0x00, 0xfa, 0xff, 0x68, 0x65, 0x6c, 0x6c, 0x6f, 0x06, 0x2c, 0x02, 0x15]

theorem storedOnly_placed : storedOnly.Placed := by
  intro head off entry h
  unfold storedOnly at h
  dsimp only at h
  split at h
  · cases h
  · split_ifs at h
    cases h
    rfl

end Walgit.Remote
