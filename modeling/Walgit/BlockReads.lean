import Walgit.BlockWindows
import Walgit.RemoteObjects
import Walgit.Runs
import Walgit.StripedDownloads

/-!
# Reads through the block cache

The bytes of a pack that stays in the store, put together from blocks of 1 MiB. All readers of all
packs share one cache of blocks, from which anything may be evicted at any time. Where a block ends
is computed in 64 bits: for the last block below 2^64 it wraps to zero, and the block is empty.
-/
namespace Walgit.BlockCache

open Deltas (Bytes isizeMax)
open Remote (RemotePack assemble blockSize readAt)
open StripedDownload (DownloadError bodyOf collect shortRange)
open Stripes

/-- The full key of a pack, and the number of a block. -/
abbrev Place := String × ℕ

abbrev Cache := Place → Option Bytes

/-- The content of each full key. The key of a pack names its checksum, so there is one content. -/
abbrev Objects := String → Bytes

/-- A pack as a reader opened it. Its size is the one of its object. -/
structure Pack (objects : Objects) where
  root : String
  key : String
  size : ℕ
  whole : (objects (root ++ key)).length = size
  bounded : size < 2 ^ 64

/-- What the store answers to a range read, and how an error of its own reads. -/
structure Answer where
  result : Except DownloadError StripedDownload.GetResult
  text : String

section Code

variable {objects : Objects}

def Pack.cacheKey (p : Pack objects) : String := p.root ++ p.key

def display (text : String) : DownloadError → String
  | .corrupt message => "corrupt: " ++ message
  | _ => text

/-- The bytes of a range, all of them. -/
def fetch (key : String) (start stop : ℕ)
    (result : Except DownloadError StripedDownload.GetResult) :
    Except DownloadError Bytes := do
  let (_, body) ← bodyOf key (← result)
  let b ← collect body
  if b.length ≠ stop - start then .error (shortRange key (start, stop) b.length) else .ok b

def blockStart (n : ℕ) : ℕ := n * blockSize % 2 ^ 64

def blockEnd (n size : ℕ) : ℕ := min ((blockStart n + blockSize) % 2 ^ 64) size

/-- One block, from the cache or by a range read that is remembered. A request that waits for the
read of another one gets what that one gets. -/
def block (cache : Cache) (p : Pack objects) (n : ℕ) (answer : Answer) :
    Except String Bytes × Cache :=
  if blockEnd n p.size ≤ blockStart n then (.ok [], cache)
  else
    match cache (p.cacheKey, n) with
    | some b => (.ok b, cache)
    | none =>
      match fetch p.key (blockStart n) (blockEnd n p.size) answer.result with
      | .ok b => (.ok b, Function.update cache (p.cacheKey, n) (some b))
      | .error e => (.error ("remote pack block: " ++ display answer.text e), cache)

/-- What happens to the cache. -/
inductive Action (objects : Objects) where
  | block (p : Pack objects) (n : ℕ) (answer : Answer)
  | evict (place : Place)

def step (cache : Cache) : Action objects → Option Cache
  | .block p n answer => some (block cache p n answer).2
  | .evict place => some (Function.update cache place none)

end Code

section Meaning

variable {objects : Objects}

/-- The body of a range is part of its object, from the start of the range on. -/
def Honest (p : Pack objects) (n : ℕ) (answer : Answer) : Prop :=
  ∀ size body, answer.result = .ok (.object size body) →
    body.chunks.flatten <+: (objects p.cacheKey).drop (blockStart n)

def Action.Honest : Action objects → Prop
  | .block p n answer => BlockCache.Honest p n answer
  | .evict _ => True

variable (objects) in
/-- A cache after any requests of any readers, and any evictions. -/
def Reached (cache : Cache) : Prop :=
  ∃ actions : List (Action objects), Runs.run step (fun _ => none) actions = some cache ∧
    Runs.AllSteps step (fun _ action => action.Honest) (fun _ => none) actions

/-- What a request for a block may get. -/
def Outcome (p : Pack objects) (n : ℕ) (result : Except String Bytes) : Prop :=
  ∃ cache answer cache', Reached objects cache ∧ Honest p n answer ∧
    block cache p n answer = (result, cache')

/-- The pack as `read_at` sees it. -/
def Pack.opened (p : Pack objects) (idx : Oid → Option ℕ) (outcomes : ℕ → Except String Bytes) :
    RemotePack := ⟨p.size, idx, outcomes⟩

/-- Whatever its requests for blocks find, a read returns the bytes of its range or an error. -/
def ReadsExactly (p : Pack objects) (off len : UInt64) : Prop :=
  ∀ packs pi idx outcomes, (∀ n, n * blockSize < p.size → Outcome p n (outcomes n)) →
    packs[pi]? = some (p.opened idx outcomes) →
    match readAt packs pi off.toNat len.toNat with
    | .ok out => out =
        slice (objects p.cacheKey) (off.toNat, min (off.toNat + len.toNat) p.size)
    | .error (.err _) => True
    | .error (.panic _) => False

/-- Where the last block begins that does not end within 64 bits. -/
def limit : ℕ := 2 ^ 64 - blockSize

/-- The range is empty, or within one block, or ends early enough and fits into an allocation. -/
def Safe (size off len : ℕ) : Prop :=
  min (off + len) size ≤ off ∨ off / blockSize = (min (off + len) size - 1) / blockSize ∨
    min (off + len) size ≤ limit ∧ min (off + len) size - off ≤ isizeMax

/-- What is remembered of a block is the block. -/
def Sound (objects : Objects) (cache : Cache) : Prop :=
  ∀ k n b, n * blockSize < 2 ^ 64 → cache (k, n) = some b →
    b = Stripes.block blockSize (objects k) n

end Meaning

variable {objects : Objects} {p : Pack objects} {cache cache' : Cache} {n : ℕ} {answer : Answer}
  {b : Bytes}

section Blocks

theorem eq_slice_of_isPrefix {l : Bytes} {start stop : ℕ} (h : b <+: l.drop start)
    (hlength : b.length = stop - start) : b = slice l (start, stop) := by
  rw [slice, List.drop_take, ← hlength]
  exact List.prefix_iff_eq_take.mp h

theorem fetch_ok {key : String} {start stop : ℕ}
    {result : Except DownloadError StripedDownload.GetResult}
    (h : fetch key start stop result = .ok b) :
    b.length = stop - start ∧
      ∃ size body, result = .ok (.object size body) ∧ body.chunks.flatten = b := by
  simp only [fetch, Checks.bind_eq_ok] at h
  obtain ⟨got, rfl, ⟨size, body⟩, hbody, b', hcollect, h⟩ := h
  split_ifs at h with hlength
  cases h
  refine ⟨not_not.mp hlength, ?_⟩
  cases got with
  | notModified => cases hbody
  | object size' body' =>
    cases hbody
    unfold collect at hcollect
    split_ifs at hcollect
    cases hcollect
    exact ⟨size, body, rfl, rfl⟩

theorem blockSize_pos : 0 < blockSize := by decide

theorem blockStart_eq (hn : n * blockSize < 2 ^ 64) : blockStart n = n * blockSize :=
  Nat.mod_eq_of_lt hn

/-- The last block below 2^64 ends at zero, every other one where it should. -/
theorem blockEnd_eq (hn : n * blockSize < 2 ^ 64) (size : ℕ) :
    blockEnd n size =
      if limit ≤ n * blockSize then 0 else min (n * blockSize + blockSize) size := by
  have hsum : (n * blockSize + blockSize) % 2 ^ 64 =
      if limit ≤ n * blockSize then 0 else n * blockSize + blockSize := by
    unfold limit blockSize at *
    by_cases hlast : 2 ^ 64 - 1024 * 1024 ≤ n * (1024 * 1024)
    · rw [if_pos hlast]
      omega
    · rw [if_neg hlast]
      omega
  rw [blockEnd, blockStart_eq hn, hsum]
  split_ifs
  · exact Nat.zero_min size
  · rfl

/-- What a request can do: a block that begins after the end or ends too late is empty, any other
one is remembered, or read, or cannot be read. -/
theorem block_cases (cache : Cache) (p : Pack objects) (answer : Answer)
    (hn : n * blockSize < 2 ^ 64) :
    (limit ≤ n * blockSize ∨ p.size ≤ n * blockSize) ∧
        block cache p n answer = (.ok [], cache) ∨
      n * blockSize < limit ∧
        ((∃ b, cache (p.cacheKey, n) = some b ∧ block cache p n answer = (.ok b, cache)) ∨
          (∃ b, fetch p.key (n * blockSize) (min (n * blockSize + blockSize) p.size)
              answer.result = .ok b ∧ block cache p n answer =
                (.ok b, Function.update cache (p.cacheKey, n) (some b))) ∨
          (∃ e, fetch p.key (n * blockSize) (min (n * blockSize + blockSize) p.size)
              answer.result = .error e ∧ cache (p.cacheKey, n) = none ∧
                ∃ message, block cache p n answer = (.error message, cache))) := by
  have hpos := blockSize_pos
  unfold block
  rw [blockStart_eq hn, blockEnd_eq hn]
  by_cases hlast : limit ≤ n * blockSize
  · rw [if_pos hlast, if_pos (Nat.zero_le _)]
    exact .inl ⟨.inl hlast, rfl⟩
  rw [if_neg hlast]
  by_cases hsize : p.size ≤ n * blockSize
  · rw [if_pos (by omega)]
    exact .inl ⟨.inr hsize, rfl⟩
  rw [if_neg (by omega)]
  refine .inr ⟨Nat.lt_of_not_le hlast, ?_⟩
  cases cache (p.cacheKey, n) with
  | some b => exact .inl ⟨b, rfl, rfl⟩
  | none =>
    refine .inr ?_
    cases fetch p.key (n * blockSize) (min (n * blockSize + blockSize) p.size) answer.result with
    | ok b => exact .inl ⟨b, rfl, rfl⟩
    | error e => exact .inr ⟨e, rfl, rfl, _, rfl⟩

/-- A request leaves the cache as it is, or remembers its own block. -/
theorem block_forms (cache : Cache) (p : Pack objects) (n : ℕ) (answer : Answer) :
    (∃ result, block cache p n answer = (result, cache)) ∨
      ∃ b, block cache p n answer =
        (.ok b, Function.update cache (p.cacheKey, n) (some b)) := by
  unfold block
  split_ifs
  · exact .inl ⟨_, rfl⟩
  · cases cache (p.cacheKey, n) with
    | some b => exact .inl ⟨_, rfl⟩
    | none =>
      cases fetch p.key (blockStart n) (blockEnd n p.size) answer.result with
      | ok b => exact .inr ⟨b, rfl⟩
      | error e => exact .inl ⟨_, rfl⟩

theorem block_kept {place : Place} (hne : place ≠ (p.cacheKey, n)) :
    (block cache p n answer).2 place = cache place := by
  rcases block_forms cache p n answer with ⟨result, hblock⟩ | ⟨b, hblock⟩
  · rw [hblock]
  · rw [hblock]
    exact Function.update_of_ne hne _ _

theorem fetched_block (hn : n * blockSize < 2 ^ 64) (hanswer : Honest p n answer)
    (hfetch : fetch p.key (n * blockSize) (min (n * blockSize + blockSize) p.size)
      answer.result = .ok b) : b = Stripes.block blockSize (objects p.cacheKey) n := by
  obtain ⟨hlength, size, body, hresult, rfl⟩ := fetch_ok hfetch
  have hpart := hanswer size body hresult
  rw [blockStart_eq hn] at hpart
  rw [eq_slice_of_isPrefix hpart hlength, ← p.whole]
  exact slice_min _ _

theorem block_below (hn : n * blockSize < limit) (l : Bytes) :
    Stripes.block blockSize (l.take limit) n = Stripes.block blockSize l n := by
  have hend : n * blockSize + blockSize ≤ limit := by
    unfold limit blockSize at *
    omega
  rw [Stripes.block, slice_take, Nat.min_eq_left hend, Stripes.block]

theorem block_beyond (hn : limit ≤ n * blockSize ∨ p.size ≤ n * blockSize) :
    Stripes.block blockSize ((objects p.cacheKey).take limit) n = [] := by
  have hsize := p.whole
  refine block_eq_nil ?_
  rw [List.length_take, Pack.cacheKey]
  omega

/-- A request gets what the object has of the block below the limit, and only the block is
remembered. -/
theorem block_own (hcache : Sound objects cache) (hanswer : Honest p n answer)
    (hn : n * blockSize < 2 ^ 64) :
    (∀ b, (block cache p n answer).2 (p.cacheKey, n) = some b →
      b = Stripes.block blockSize (objects p.cacheKey) n) ∧
    ∀ b, (block cache p n answer).1 = .ok b →
      b = Stripes.block blockSize ((objects p.cacheKey).take limit) n := by
  have hold := fun b => hcache p.cacheKey n b hn
  rcases block_cases cache p answer hn with
    ⟨hbeyond, hblock⟩ | ⟨hbelow, ⟨b₀, hcached, hblock⟩ | ⟨b₀, hfetch, hblock⟩ |
      ⟨e, -, -, message, hblock⟩⟩
  · rw [hblock, block_beyond hbeyond]
    exact ⟨hold, fun b hb => (Except.ok.inj hb).symm⟩
  · rw [hblock, block_below hbelow]
    refine ⟨hold, fun b hb => ?_⟩
    rw [← Except.ok.inj hb]
    exact hold b₀ hcached
  · have hb₀ := fetched_block hn hanswer hfetch
    rw [hblock, block_below hbelow]
    constructor
    · intro b hb
      have hown : Function.update cache (p.cacheKey, n) (some b₀) (p.cacheKey, n) = some b₀ :=
        Function.update_self _ _ _
      rw [← Option.some.inj (hown.symm.trans hb)]
      exact hb₀
    · intro b hb
      rw [← Except.ok.inj hb]
      exact hb₀
  · rw [hblock]
    exact ⟨hold, fun b hb => nomatch hb⟩

theorem Sound.block (hcache : Sound objects cache) (hanswer : Honest p n answer) :
    Sound objects (block cache p n answer).2 := by
  intro k n' b hn' hb
  by_cases hplace : (k, n') = (p.cacheKey, n)
  · obtain ⟨rfl, rfl⟩ := Prod.mk.inj hplace
    exact (block_own hcache hanswer hn').1 b hb
  · rw [block_kept hplace] at hb
    exact hcache k n' b hn' hb

theorem Sound.evict (hcache : Sound objects cache) (place : Place) :
    Sound objects (Function.update cache place none) := by
  intro k n b hn hb
  rw [Function.update_apply] at hb
  split_ifs at hb
  exact hcache k n b hn hb

/-- In every cache that is reached, a block is remembered as it is. -/
theorem reached_sound (h : Reached objects cache) : Sound objects cache := by
  obtain ⟨actions, hrun, hok⟩ := h
  refine Runs.invariant (I := Sound objects) ?_ hrun hok ?_
  · intro s action t hs haction hstep
    cases action with
    | block p n answer =>
      rw [← Option.some.inj hstep]
      exact hs.block haction
    | evict place =>
      rw [← Option.some.inj hstep]
      exact hs.evict place
  · intro k n b _ hb
    cases hb

theorem Outcome.block (h : Outcome p n (.ok b)) (hn : n * blockSize < 2 ^ 64) :
    b = Stripes.block blockSize ((objects p.cacheKey).take limit) n := by
  obtain ⟨cache, answer, cache', hcache, hanswer, hblock⟩ := h
  exact (block_own (reached_sound hcache) hanswer hn).2 b (by rw [hblock])

end Blocks

section Reads

variable {packs : List RemotePack} {q : RemotePack} {pi off len : ℕ} {bs : List Bytes}
  {l : Bytes}

/-- Where all blocks that are there are those of one list, they come in its order. -/
theorem blocks_ok {first last : ℕ} (hblock : ∀ n ≤ last, ∀ b, q.block n = .ok b →
    b = Stripes.block blockSize l n) (h : Remote.blocks q first last = .ok bs) :
    bs = (List.range (last + 1 - first)).map fun i => Stripes.block blockSize l (first + i) := by
  have hall : ∀ i ∈ List.range (last + 1 - first),
      (q.block (first + i)).mapError Deltas.Fault.err =
        .ok (Stripes.block blockSize l (first + i)) := by
    intro i hi
    obtain ⟨b, hb⟩ := (Checks.mapM_ok h).2.1 i hi
    have hle : first + i ≤ last := by
      have := List.mem_range.mp hi
      omega
    rw [hb, hblock _ hle b (Remote.mapError_eq_ok.mp hb)]
  exact Except.ok.inj (h.symm.trans (Checks.mapM_eq_ok_map hall))

theorem blocks_error {first last : ℕ} {e : Deltas.Fault}
    (h : Remote.blocks q first last = .error e) : ∃ message, e = .err message := by
  obtain ⟨i, -, hi⟩ := Checks.mapM_error h
  cases hb : q.block (first + i) with
  | ok b =>
    rw [hb] at hi
    cases hi
  | error message =>
    rw [hb] at hi
    cases hi
    exact ⟨message, rfl⟩

variable {stop : ℕ} (hq : packs[pi]? = some q) (hsize : q.size < 2 ^ 64)
  (hstop : min (off + len) q.size = stop)

include hq hsize hstop

theorem readAt_empty (h : stop ≤ off) : readAt packs pi off len = .ok [] := by
  have hsame : min (min (off + len) (2 ^ 64 - 1)) q.size = stop := by omega
  simp only [readAt, Remote.pack, hq, Checks.ok_bind]
  rw [hsame, if_pos h]
  rfl

variable (h : off < stop)

include h

/-- What is done with the blocks of a range that is not empty. -/
theorem readAt_blocks : readAt packs pi off len =
    Remote.blocks q (off / blockSize) ((stop - 1) / blockSize) >>=
      assemble off stop (off / blockSize) := by
  have hsame : min (min (off + len) (2 ^ 64 - 1)) q.size = stop := by omega
  simp only [readAt, Remote.pack, hq, Checks.ok_bind]
  rw [hsame, if_neg (by omega)]

omit hq hsize hstop h in
theorem slice_ok {b out : Bytes} {start stop : ℕ} :
    Remote.slice b start stop = .ok out ↔
      start ≤ stop ∧ stop ≤ b.length ∧ out = slice b (start, stop) := by
  rw [Remote.slice, slice, List.drop_take]
  split_ifs with hinside
  · simp [hinside, eq_comm]
  · constructor
    · intro hok
      cases hok
    · intro hall
      exact absurd ⟨hall.1, hall.2.1⟩ hinside

omit hq hsize hstop h in
theorem slice_error {b : Bytes} {start stop : ℕ} {e : Deltas.Fault}
    (h : Remote.slice b start stop = .error e) : e = .err "short range block" := by
  rw [Remote.slice] at h
  split_ifs at h
  cases h
  rfl

/-- What is read within one block. -/
theorem readAt_single {b out : Bytes}
    (hblocks : Remote.blocks q (off / blockSize) ((stop - 1) / blockSize) = .ok [b])
    (hout : readAt packs pi off len = .ok out)
    (hb : b = Stripes.block blockSize l (off / blockSize)) :
    stop ≤ l.length ∧ out = slice l (off, stop) := by
  rw [readAt_blocks hq hsize hstop h, hblocks, Checks.ok_bind] at hout
  obtain ⟨-, hend, rfl⟩ := slice_ok.mp hout
  have hfirst := Nat.div_mul_le_self off blockSize
  rw [hb, length_block] at hend
  refine ⟨by omega, ?_⟩
  rw [hb, Stripes.block, slice_slice]
  congr 2 <;> omega

omit hq hsize hstop h in
theorem assemble_several {first : ℕ} (hbs : 1 < bs.length) :
    assemble off stop first bs =
      if isizeMax < stop - off then .error (.panic "capacity overflow")
      else (bs.zipIdx first).mapM (fun (b, n) =>
        Remote.slice b (off - n * blockSize) (min (stop - n * blockSize) b.length)) >>=
          fun parts => .ok parts.flatten := by
  match bs, hbs with
  | _ :: _ :: _, _ => rfl

omit hq hsize hstop h in
/-- The parts of the blocks that a range touches are its windows. -/
theorem parts_ok {step : ℕ} (hstep : 0 < step) (h : off < stop)
    (hmany : 1 < touched step off stop) (hlong : (stop - 1) / step * step ≤ l.length) :
    (((List.range (touched step off stop)).map fun i =>
        Stripes.block step l (off / step + i)).zipIdx (off / step)).mapM
      (fun (b, n) => Remote.slice b (off - n * step) (min (stop - n * step) b.length)) =
    .ok ((List.range (touched step off stop)).map fun i =>
      slice l (window step off stop (off / step + i))) := by
  have hindexed : (((List.range (touched step off stop)).map fun i =>
      Stripes.block step l (off / step + i)).zipIdx (off / step)) =
      (List.range (touched step off stop)).map fun i =>
        (Stripes.block step l (off / step + i), off / step + i) := by
    refine List.ext_getElem? fun i => ?_
    simp only [List.getElem?_zipIdx, List.getElem?_map, Option.map_map]
    cases hi : (List.range (touched step off stop))[i]? with
    | none => rfl
    | some j =>
      obtain ⟨hlt, rfl⟩ := List.getElem?_eq_some_iff.mp hi
      simp
  rw [hindexed, List.mapM_map]
  refine Checks.mapM_eq_ok_map fun i hi => slice_ok.mpr ?_
  have hi := List.mem_range.mp hi
  exact ⟨window_inside hstep h hi hmany hlong, Nat.min_le_right _ _,
    (slice_window hstep h hi).symm⟩

/-- What is read over several blocks of a list that is long enough. -/
theorem readAt_several (hmany : 1 < touched blockSize off stop)
    (hlong : (stop - 1) / blockSize * blockSize ≤ l.length)
    (hblocks : Remote.blocks q (off / blockSize) ((stop - 1) / blockSize) =
      .ok ((List.range (touched blockSize off stop)).map fun i =>
        Stripes.block blockSize l (off / blockSize + i))) :
    readAt packs pi off len =
      if isizeMax < stop - off then .error (.panic "capacity overflow")
      else .ok (slice l (off, stop)) := by
  have hpos := blockSize_pos
  rw [readAt_blocks hq hsize hstop h, hblocks, Checks.ok_bind, assemble_several (by simpa),
    parts_ok hpos h hmany hlong]
  split_ifs
  · rfl
  · rw [Checks.ok_bind, flatten_windows hpos h]

end Reads

section Exactness

variable {off len stop : ℕ}

theorem slice_of_le {l : Bytes} (h : stop ≤ off) : slice l (off, stop) = [] := by
  rw [← List.length_eq_zero_iff, length_slice]
  omega

/-- What lies below the limit is the object's. -/
theorem slice_below {l : Bytes} (h : stop ≤ limit) :
    slice (l.take limit) (off, stop) = slice l (off, stop) := by
  rw [slice_take, Nat.min_eq_left h]

/-- The last block of a range begins in the pack and not above the limit. -/
theorem last_block (p : Pack objects) (hstop : stop ≤ p.size) (h : off < stop) :
    (stop - 1) / blockSize * blockSize < p.size ∧ (stop - 1) / blockSize * blockSize ≤
      ((objects p.cacheKey).take limit).length := by
  have hbounded := p.bounded
  have hwhole : (objects p.cacheKey).length = p.size := p.whole
  have hle := Nat.div_mul_le_self (stop - 1) blockSize
  rw [List.length_take, hwhole]
  refine ⟨by omega, ?_⟩
  unfold limit blockSize at *
  omega

theorem touched_one_iff (h : off < stop) :
    1 < touched blockSize off stop ↔ off / blockSize ≠ (stop - 1) / blockSize := by
  have hle : off / blockSize ≤ (stop - 1) / blockSize := Nat.div_le_div_right (by omega)
  rw [touched]
  omega

/-- A read that is safe returns the bytes of its range or an error. -/
theorem readsExactly_of_safe {off len : UInt64} (hsafe : Safe p.size off.toNat len.toNat) :
    ReadsExactly p off len := by
  intro packs pi idx outcomes houtcomes hp
  generalize hstop : min (off.toNat + len.toNat) p.size = stop
  rw [Safe, hstop] at hsafe
  have hsize : (p.opened idx outcomes).size < 2 ^ 64 := p.bounded
  by_cases hempty : stop ≤ off.toNat
  · rw [readAt_empty hp hsize hstop hempty]
    exact (slice_of_le hempty).symm
  have h : off.toNat < stop := by omega
  have hbounded := p.bounded
  obtain ⟨hlast, hlong⟩ := last_block p (by omega) h
  have hblock : ∀ n ≤ (stop - 1) / blockSize, ∀ b, (p.opened idx outcomes).block n = .ok b →
      b = Stripes.block blockSize ((objects p.cacheKey).take limit) n := by
    intro n hn b hb
    have hle := Nat.mul_le_mul_right blockSize hn
    have houtcome := houtcomes n (by omega)
    rw [show outcomes n = .ok b from hb] at houtcome
    exact houtcome.block (by omega)
  cases hblocks : Remote.blocks (p.opened idx outcomes) (off.toNat / blockSize)
      ((stop - 1) / blockSize) with
  | error e =>
    obtain ⟨message, rfl⟩ := blocks_error hblocks
    rw [readAt_blocks hp hsize hstop h, hblocks]
    trivial
  | ok bs =>
    have hbs := blocks_ok hblock hblocks
    by_cases hmany : 1 < touched blockSize off.toNat stop
    · rw [hbs] at hblocks
      rw [readAt_several hp hsize hstop h hmany hlong hblocks]
      have hne := (touched_one_iff h).mp hmany
      obtain ⟨hend, hfits⟩ := (hsafe.resolve_left hempty).resolve_left hne
      rw [if_neg (Nat.not_lt.mpr hfits)]
      exact slice_below hend
    · have hone : (stop - 1) / blockSize + 1 - off.toNat / blockSize = 1 := by
        have hle : off.toNat / blockSize ≤ (stop - 1) / blockSize :=
          Nat.div_le_div_right (by omega)
        rw [touched] at hmany
        omega
      rw [hone] at hbs
      rw [hbs] at hblocks
      cases hread : readAt packs pi off.toNat len.toNat with
      | ok out =>
        obtain ⟨hend, hout⟩ := readAt_single hp hsize hstop h hblocks hread rfl
        rw [List.length_take] at hend
        exact hout.trans (slice_below (by omega))
      | error e =>
        rw [readAt_blocks hp hsize hstop h, hblocks, Checks.ok_bind] at hread
        obtain rfl := slice_error hread
        trivial

/-- A store that answers a range read in full. -/
def full (p : Pack objects) (n : ℕ) : Answer :=
  ⟨(StripedDownload.fullAnswers (objects p.cacheKey)).getRange
    (blockStart n, blockEnd n p.size), ""⟩

theorem full_honest (p : Pack objects) (n : ℕ) : Honest p n (full p n) :=
  (StripedDownload.honest_fullAnswers (objects p.cacheKey)).range (blockStart n, blockEnd n p.size)

theorem fetch_full {object : Bytes} {start stop : ℕ} (key : String) (h : stop ≤ object.length) :
    fetch key start stop ((StripedDownload.fullAnswers object).getRange (start, stop)) =
      .ok (slice object (start, stop)) := by
  have hlength : (slice object (start, stop)).length = stop - start := by
    rw [length_slice]
    omega
  simp [fetch, StripedDownload.fullAnswers, bodyOf, collect, hlength, Checks.ok_bind]

/-- What an empty cache and such a store give for a block. -/
def fullOutcome (p : Pack objects) (n : ℕ) : Except String Bytes :=
  .ok (Stripes.block blockSize ((objects p.cacheKey).take limit) n)

theorem fullOutcome_outcome (p : Pack objects) (hn : n * blockSize < p.size) :
    Outcome p n (fullOutcome p n) := by
  have hbounded := p.bounded
  have hwhole : (objects p.cacheKey).length = p.size := p.whole
  have hreached : Reached objects (fun _ => none) := ⟨[], rfl, trivial⟩
  have hok : ∃ b cache', block (fun _ => none) p n (full p n) = (.ok b, cache') := by
    rcases block_cases (fun _ => none) p (full p n) (n := n) (by omega) with
      ⟨-, hblock⟩ | ⟨hbelow, ⟨b, hcached, -⟩ | ⟨b, -, hblock⟩ | ⟨e, hfetch, -⟩⟩
    · exact ⟨_, _, hblock⟩
    · cases hcached
    · exact ⟨_, _, hblock⟩
    · have hstart := blockStart_eq (n := n) (by omega)
      have hend := blockEnd_eq (n := n) (by omega) p.size
      rw [if_neg (by omega)] at hend
      have hinside : min (n * blockSize + blockSize) p.size ≤ (objects p.cacheKey).length := by
        rw [hwhole]
        omega
      rw [full, hstart, hend, fetch_full p.key hinside] at hfetch
      cases hfetch
  obtain ⟨b, cache', hblock⟩ := hok
  have houtcome : Outcome p n (.ok b) := ⟨_, _, _, hreached, full_honest p n, hblock⟩
  rw [fullOutcome, ← houtcome.block (by omega)]
  exact houtcome

/-- What is read over several blocks from such a store. -/
theorem readAt_full (hstop : min (off + len) p.size = stop) (h : off < stop)
    (hmany : off / blockSize ≠ (stop - 1) / blockSize) :
    readAt [p.opened (fun _ => none) (fullOutcome p)] 0 off len =
      if isizeMax < stop - off then .error (.panic "capacity overflow")
      else .ok (slice ((objects p.cacheKey).take limit) (off, stop)) := by
  obtain ⟨hlast, hlong⟩ := last_block p (by omega) h
  refine readAt_several rfl p.bounded hstop h ((touched_one_iff h).mpr hmany) hlong ?_
  refine Checks.mapM_eq_ok_map fun i hi => ?_
  have hi := List.mem_range.mp hi
  have hle : (off / blockSize + i) * blockSize ≤ (stop - 1) / blockSize * blockSize :=
    Nat.mul_le_mul_right blockSize (by omega)
  rfl

/-- What is exact over several blocks fits into an allocation and lies below the limit. -/
theorem ReadsExactly.several {off len : UInt64} (hexact : ReadsExactly p off len)
    (hstop : min (off.toNat + len.toNat) p.size = stop) (h : off.toNat < stop)
    (hmany : off.toNat / blockSize ≠ (stop - 1) / blockSize) :
    stop ≤ limit ∧ stop - off.toNat ≤ isizeMax := by
  have hread := hexact [p.opened (fun _ => none) (fullOutcome p)] 0 (fun _ => none) (fullOutcome p)
    (fun n hn => fullOutcome_outcome p hn) rfl
  rw [readAt_full hstop h hmany, hstop] at hread
  split_ifs at hread with hfits
  · exact hread.elim
  · have hsame : slice ((objects p.cacheKey).take limit) (off.toNat, stop) =
        slice (objects p.cacheKey) (off.toNat, stop) := hread
    have hlength := congrArg List.length hsame
    have hwhole : (objects p.cacheKey).length = p.size := p.whole
    rw [length_slice, length_slice, List.length_take] at hlength
    omega

/-- Reads are exact just where they are safe. -/
theorem readsExactly_iff (p : Pack objects) (off len : UInt64) :
    ReadsExactly p off len ↔ Safe p.size off.toNat len.toNat := by
  refine ⟨fun hexact => ?_, readsExactly_of_safe⟩
  rw [Safe]
  by_cases hempty : min (off.toNat + len.toNat) p.size ≤ off.toNat
  · exact .inl hempty
  by_cases hone : off.toNat / blockSize =
      (min (off.toNat + len.toNat) p.size - 1) / blockSize
  · exact .inr (.inl hone)
  · exact .inr (.inr (hexact.several rfl (Nat.lt_of_not_le hempty) hone))

end Exactness

section Vast

/-- A pack up to the last byte that has an offset in 64 bits. -/
def vastPack : Pack (fun _ => List.replicate (2 ^ 64 - 1) 0) where
  root := "repos/acme/monorepo/"
  key := "wal/6f1ed002ab5595859014ebf0951522d9d0f1ab5c.pack"
  size := 2 ^ 64 - 1
  whole := List.length_replicate
  bounded := by decide

/-- Two bytes on both sides of the start of the last block are read as one. -/
theorem vast_short :
    readAt [vastPack.opened (fun _ => none) (fullOutcome vastPack)] 0 18446744073708503039 2 =
        .ok [0] ∧
      ¬ ReadsExactly vastPack 18446744073708503039 2 := by
  have hoff : (18446744073708503039 : UInt64).toNat = 18446744073708503039 := by decide
  have hlen : (2 : UInt64).toNat = 2 := by decide
  have hstop : min (18446744073708503039 + 2) vastPack.size = 18446744073708503041 := by decide
  constructor
  · rw [readAt_full hstop (by decide) (by decide), if_neg (by decide), List.take_replicate, slice,
      List.take_replicate, List.drop_replicate]
    rfl
  · intro hexact
    have hend : min ((18446744073708503039 : UInt64).toNat + (2 : UInt64).toNat) vastPack.size =
        18446744073708503041 := by
      rw [hoff, hlen]
      exact hstop
    have hlimit := (hexact.several hend (by rw [hoff]; decide) (by rw [hoff]; decide)).1
    exact absurd hlimit (by decide)

end Vast

end Walgit.BlockCache
