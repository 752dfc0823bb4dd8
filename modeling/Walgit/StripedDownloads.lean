import Walgit.Checks
import Walgit.Stripes

/-!
# Striped downloads

A large object comes down as ranges, read side by side and written to a file of the announced
size at their offsets, in the order in which the reads end. A small one comes down in one read.
-/
namespace Walgit.StripedDownload

open Stripes

/-- `CHUNK`. -/
def chunkBytes : ℕ := 32 * 1024 * 1024

inductive DownloadError where
  /-- The store's own errors, and those of a body that breaks off. -/
  | store
  | notFound (key : String)
  | corrupt (message : String)
  | io
  deriving DecidableEq, Repr

/-- The chunks of a body, and whether it ends in an error. -/
structure Body where
  chunks : List (List UInt8)
  broken : Bool

inductive GetResult where
  | object (size : ℕ) (body : Body)
  | notModified

/-- The answers of the store to the calls of one download. -/
structure Answers where
  head : Except DownloadError (Option ℕ)
  get : Except DownloadError GetResult
  getRange : ℕ × ℕ → Except DownloadError GetResult

def collect (body : Body) : Except DownloadError (List UInt8) :=
  if body.broken then .error .store else .ok body.chunks.flatten

def oversized (key : String) : DownloadError := .corrupt ("oversized body for " ++ key)

def shortBody (key : String) (size received : ℕ) : DownloadError :=
  .corrupt ("short body for " ++ key ++ ": expected " ++ toString size ++ ", got " ++
    toString received)

def sizeChanged (key : String) (size got : ℕ) : DownloadError :=
  .corrupt ("size changed for " ++ key ++ ": expected " ++ toString size ++ ", got " ++
    toString got)

def unexpected304 (key : String) : DownloadError := .corrupt ("unexpected 304 for " ++ key)

def shortRange (key : String) (r : ℕ × ℕ) (got : ℕ) : DownloadError :=
  .corrupt ("short range read for " ++ key ++ ": " ++ toString r.1 ++ ".." ++ toString r.2 ++
    " got " ++ toString got)

/-- The chunks are written one after the other; `file` is what was received so far. -/
def writeChunks (key : String) (size : ℕ) :
    List UInt8 → List (List UInt8) → Except DownloadError (List UInt8)
  | file, [] => .ok file
  | file, chunk :: chunks =>
    if size < file.length + chunk.length then .error (oversized key)
    else writeChunks key size (file ++ chunk) chunks

def writeCompleteBody (key : String) (body : Body) (size : ℕ) :
    Except DownloadError (List UInt8) := do
  let file ← writeChunks key size [] body.chunks
  if body.broken then .error .store
  else if file.length ≠ size then .error (shortBody key size file.length)
  else .ok file

/-- `File::set_len` on an empty file. -/
def setLen (size : ℕ) : Except DownloadError (List UInt8) :=
  if size < 2 ^ 63 then .ok (List.replicate size 0) else .error .io

/-- `write_all_at`. -/
def writeAllAt (file bytes : List UInt8) (start : ℕ) : List UInt8 :=
  file.take start ++ bytes ++ file.drop (start + bytes.length)

section Download

variable (answers : Answers) (key : String)

def bodyOf : GetResult → Except DownloadError (ℕ × Body)
  | .object size body => .ok (size, body)
  | .notModified => .error (unexpected304 key)

/-- One range, from its read to its write. -/
def fetchRange (file : List UInt8) (r : ℕ × ℕ) : Except DownloadError (List UInt8) := do
  let (_, body) ← bodyOf key (← answers.getRange r)
  let bytes ← collect body
  if bytes.length ≠ r.2 - r.1 then .error (shortRange key r bytes.length)
  else .ok (writeAllAt file bytes r.1)

def expectedSize (knownSize : Option ℕ) : Except DownloadError ℕ :=
  match knownSize with
  | some n => .ok n
  | none => do
    match ← answers.head with
    | some n => .ok n
    | none => .error (.notFound key)

/-- `order` tells in which order the reads of a size end. -/
def downloadObject (chunk : ℕ) (order : ℕ → List (ℕ × ℕ)) (knownSize : Option ℕ) :
    Except DownloadError (List UInt8) := do
  let size ← expectedSize answers key knownSize
  if size ≤ chunk then
    let (got, body) ← bodyOf key (← answers.get)
    if got ≠ size then .error (sizeChanged key size got)
    else writeCompleteBody key body size
  else (order size).foldlM (fetchRange answers key) (← setLen size)

end Download

/-- The answers are about one object: sizes are its size, a body agrees with it as far as both
go, and the body of a range is part of it from the start of the range on. -/
structure Honest (object : List UInt8) (answers : Answers) : Prop where
  head : ∀ n, answers.head = .ok (some n) → n = object.length
  size : ∀ n body, answers.get = .ok (.object n body) → n = object.length
  body : ∀ n body, answers.get = .ok (.object n body) →
    body.chunks.flatten <+: object ∨ object <+: body.chunks.flatten
  range : ∀ r n body, answers.getRange r = .ok (.object n body) →
    body.chunks.flatten <+: object.drop r.1

section Writes

variable {object file : List UInt8} {size chunk : ℕ}

theorem length_writeAllAt {bytes : List UInt8} {start : ℕ} (h : start + bytes.length ≤ file.length) :
    (writeAllAt file bytes start).length = file.length := by
  simp only [writeAllAt, List.length_append, List.length_take, List.length_drop]
  omega

/-- The range is written, everything else is kept. -/
theorem getElem?_writeAllAt {bytes : List UInt8} {start : ℕ}
    (h : start + bytes.length ≤ file.length) (i : ℕ) :
    (writeAllAt file bytes start)[i]? =
      if start ≤ i ∧ i < start + bytes.length then bytes[i - start]? else file[i]? := by
  simp only [writeAllAt, List.getElem?_append, List.length_append, List.length_take,
    List.getElem?_take, List.getElem?_drop]
  rw [Nat.min_eq_left (by omega)]
  by_cases hlow : i < start
  · rw [if_pos (by omega), if_pos hlow, if_pos hlow, if_neg (by omega)]
  · by_cases hhigh : i < start + bytes.length
    · rw [if_pos hhigh, if_neg hlow, if_pos (by omega)]
    · rw [if_neg hhigh, if_neg (by omega)]
      congr 1
      omega

theorem exists_stripe (hchunk : 0 < chunk) {i : ℕ} (hi : i < size) :
    ∃ r ∈ stripes size chunk, r.1 ≤ i ∧ i < r.2 := by
  have hmod := Nat.mod_lt i hchunk
  have hdiv : i / chunk * chunk + i % chunk = i := Nat.div_add_mod' i chunk
  refine ⟨(i / chunk * chunk, min (i / chunk * chunk + chunk) size), ?_, by dsimp only; omega,
    by dsimp only; omega⟩
  exact List.mem_map.mpr ⟨i / chunk, List.mem_range.mpr ((lt_count_iff hchunk).mpr (by omega)), rfl⟩

/-- A file that agrees with the object on the ranges written so far. -/
structure Written (object : List UInt8) (size : ℕ) (done : List (ℕ × ℕ)) (file : List UInt8) :
    Prop where
  length : file.length = size
  agrees : ∀ r ∈ done, ∀ i, r.1 ≤ i → i < r.2 → file[i]? = object[i]?

theorem Written.write {done : List (ℕ × ℕ)} (h : Written object size done file) {r : ℕ × ℕ}
    {bytes : List UInt8} (hr : r.1 < r.2 ∧ r.2 ≤ size) (hbytes : bytes <+: object.drop r.1)
    (hlength : bytes.length = r.2 - r.1) :
    Written object size (done ++ [r]) (writeAllAt file bytes r.1) := by
  have hfits : r.1 + bytes.length ≤ file.length := by
    rw [h.length, hlength]
    omega
  refine ⟨(length_writeAllAt hfits).trans h.length, fun r' hr' i hlow hhigh => ?_⟩
  rw [getElem?_writeAllAt hfits]
  split_ifs with hin
  · obtain ⟨rest, hrest⟩ := hbytes
    have hobject : object[i]? = (object.drop r.1)[i - r.1]? := by
      rw [List.getElem?_drop]
      congr 1
      omega
    rw [hobject, ← hrest, List.getElem?_append_left (by omega)]
  · rcases List.mem_append.mp hr' with hr' | hr'
    · exact h.agrees r' hr' i hlow hhigh
    · obtain rfl := List.mem_singleton.mp hr'
      omega

/-- A file that is written everywhere is the beginning of the object. -/
theorem Written.eq_take (hchunk : 0 < chunk) {done : List (ℕ × ℕ)}
    (h : Written object size done file) (hall : stripes size chunk ⊆ done) :
    file = object.take size := by
  refine List.ext_getElem? fun i => ?_
  rw [List.getElem?_take]
  split_ifs with hi
  · obtain ⟨r, hr, hlow, hhigh⟩ := exists_stripe hchunk hi
    exact h.agrees r (hall hr) i hlow hhigh
  · exact List.getElem?_eq_none (by have := h.length; omega)

end Writes

section Acceptance

variable {answers : Answers} {key : String} {object file file' : List UInt8} {size chunk : ℕ}

/-- What a range that was accepted brought. -/
theorem fetchRange_ok {r : ℕ × ℕ} (h : fetchRange answers key file r = .ok file') :
    ∃ n body, answers.getRange r = .ok (.object n body) ∧
      body.chunks.flatten.length = r.2 - r.1 ∧
      file' = writeAllAt file body.chunks.flatten r.1 := by
  simp only [fetchRange, Checks.bind_eq_ok] at h
  obtain ⟨got, hget, ⟨n, body⟩, hbody, bytes, hcollect, h⟩ := h
  cases got with
  | notModified => cases hbody
  | object m b =>
    cases hbody
    unfold collect at hcollect
    split_ifs at hcollect
    cases hcollect
    split_ifs at h with hlength
    cases h
    exact ⟨n, body, hget, not_not.mp hlength, rfl⟩

theorem foldlM_fetchRange (hanswers : Honest object answers) {order done : List (ℕ × ℕ)}
    (horder : ∀ r ∈ order, r.1 < r.2 ∧ r.2 ≤ size) (hfile : Written object size done file)
    (h : order.foldlM (fetchRange answers key) file = .ok file') :
    Written object size (done ++ order) file' ∧ ∀ r ∈ order, r.2 ≤ object.length := by
  induction order generalizing file done with
  | nil =>
    cases h
    rw [List.append_nil]
    exact ⟨hfile, by simp⟩
  | cons r order ih =>
    rw [List.foldlM_cons, Checks.bind_eq_ok] at h
    obtain ⟨file₁, hfirst, hrest⟩ := h
    rw [List.forall_mem_cons] at horder
    obtain ⟨n, body, hget, hlength, rfl⟩ := fetchRange_ok hfirst
    have hprefix := hanswers.range r n body hget
    have hbound := hprefix.length_le
    rw [List.length_drop] at hbound
    obtain ⟨hwritten, hall⟩ := ih horder.2 (hfile.write horder.1 hprefix hlength) hrest
    rw [List.append_assoc, List.singleton_append] at hwritten
    exact ⟨hwritten, List.forall_mem_cons.mpr ⟨by omega, hall⟩⟩

/-- What a striped download accepts is the beginning of the object. -/
theorem striped_ok (hchunk : 0 < chunk) (hanswers : Honest object answers)
    {order : List (ℕ × ℕ)} (horder : order.Perm (stripes size chunk))
    (h : order.foldlM (fetchRange answers key) (List.replicate size 0) = .ok file) :
    file = object.take size ∧ size ≤ object.length := by
  have hranges : ∀ r ∈ order, r.1 < r.2 ∧ r.2 ≤ size := fun r hr =>
    have hmem := mem_stripes hchunk (horder.mem_iff.mp hr)
    ⟨hmem.1, hmem.2.1⟩
  obtain ⟨hwritten, hbounds⟩ := foldlM_fetchRange hanswers hranges
    (⟨List.length_replicate, by simp⟩ : Written object size [] (List.replicate size 0)) h
  refine ⟨hwritten.eq_take hchunk fun r hr => by simpa using horder.mem_iff.mpr hr, ?_⟩
  cases size with
  | zero => omega
  | succ size =>
    obtain ⟨r, hr, -, hhigh⟩ := exists_stripe hchunk (Nat.lt_succ_self size)
    have hbound := hbounds r (horder.mem_iff.mpr hr)
    omega

theorem writeChunks_ok {chunks : List (List UInt8)}
    (h : writeChunks key size file chunks = .ok file') : file' = file ++ chunks.flatten := by
  induction chunks generalizing file with
  | nil =>
    cases h
    simp
  | cons chunk chunks ih =>
    rw [writeChunks] at h
    split_ifs at h
    rw [ih h, List.flatten_cons, List.append_assoc]

theorem writeCompleteBody_ok {body : Body} (h : writeCompleteBody key body size = .ok file) :
    file = body.chunks.flatten ∧ file.length = size := by
  simp only [writeCompleteBody, Checks.bind_eq_ok] at h
  obtain ⟨written, hwritten, h⟩ := h
  split_ifs at h with hbroken hlength
  cases h
  exact ⟨by simpa using writeChunks_ok hwritten, not_not.mp hlength⟩

end Acceptance

section Exactness

variable {object file : List UInt8} {key : String} {size chunk : ℕ}

/-- A store that answers every read in full. -/
def fullAnswers (object : List UInt8) : Answers where
  head := .ok (some object.length)
  get := .ok (.object object.length ⟨[object], false⟩)
  getRange r := .ok (.object object.length ⟨[slice object r], false⟩)

theorem honest_fullAnswers (object : List UInt8) : Honest object (fullAnswers object) where
  head n h := by
    cases h
    rfl
  size n body h := by
    cases h
    rfl
  body n body h := by
    cases h
    simp
  range r n body h := by
    cases h
    rw [List.flatten_singleton, slice, List.drop_take]
    exact List.take_prefix _ _

variable (key file) in
theorem foldlM_fullAnswers {order : List (ℕ × ℕ)} (horder : ∀ r ∈ order, r.2 ≤ object.length) :
    ∃ file', order.foldlM (fetchRange (fullAnswers object) key) file = .ok file' := by
  induction order generalizing file with
  | nil => exact ⟨file, rfl⟩
  | cons r order ih =>
    rw [List.forall_mem_cons] at horder
    obtain ⟨file', hfile'⟩ := ih (writeAllAt file (slice object r) r.1) horder.2
    refine ⟨file', ?_⟩
    have hlength : (slice object r).length = r.2 - r.1 := by
      rw [length_slice]
      omega
    have hfirst : fetchRange (fullAnswers object) key file r =
        .ok (writeAllAt file (slice object r) r.1) := by
      simp [fetchRange, fullAnswers, bodyOf, collect, hlength, Checks.ok_bind]
    rw [List.foldlM_cons, hfirst, Checks.ok_bind]
    exact hfile'

/-- A size that is too small, and still larger than a chunk, cuts the object off. -/
theorem downloadObject_truncates (hchunk : 0 < chunk) (hlarge : chunk < size)
    (hsmall : size < object.length) (hlimit : size < 2 ^ 63) :
    downloadObject (fullAnswers object) key chunk (fun n => stripes n chunk) (some size) =
      .ok (object.take size) := by
  have hbound : ∀ r ∈ stripes size chunk, r.2 ≤ object.length := fun r hr =>
    Nat.le_trans (mem_stripes hchunk hr).2.1 (Nat.le_of_lt hsmall)
  obtain ⟨file', hfile'⟩ := foldlM_fullAnswers (List.replicate size 0) key hbound
  obtain ⟨rfl, -⟩ := striped_ok hchunk (honest_fullAnswers object) (List.Perm.refl _) hfile'
  simp only [downloadObject, expectedSize, Checks.ok_bind]
  rw [if_neg (by omega), setLen, if_pos hlimit, Checks.ok_bind]
  exact hfile'

end Exactness

end Walgit.StripedDownload
