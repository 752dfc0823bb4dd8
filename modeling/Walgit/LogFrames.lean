import Walgit.Wire

/-!
# Frames of a log object

A log object grows by frames, a length and the bytes of one entry. Readers take every complete
frame and leave an incomplete one at the end, which an append may still be writing.
-/
namespace Walgit.LogFrames

variable {α ε : Type}

/-- Entries as messages that fit in memory. -/
structure Entries (α ε : Type) extends Wire.Codec α ε where
  length_lt : ∀ a, (encode a).length < 2 ^ 64

variable (varint : Wire.Varint) (codec : Entries α ε)

def encodeEntry (e : α) : List UInt8 :=
  varint.encode (codec.encode e).length ++ codec.encode e

def encodeEntries (es : List α) : List UInt8 := es.flatMap (encodeEntry varint codec)

/-- One round of the loop from a position: the entry of the frame there and where it ends, or
nothing when the frame is not complete. -/
def decodeFrame (buf : List UInt8) (pos : ℕ) : Except ε (Option (α × ℕ)) :=
  match varint.decode (buf.drop pos) with
  | none => .ok none
  | some (len, probe) =>
    if len ≤ probe.length then
      (codec.decode (probe.take len)).map fun e => some (e, buf.length - probe.length + len)
    else .ok none

/-- The loop; `none` when it runs out of rounds. -/
def decodeFrom (buf : List UInt8) : ℕ → ℕ → List α → Option (Except ε (List α × ℕ))
  | 0, _, _ => none
  | rounds + 1, pos, out =>
    match decodeFrame varint codec buf pos with
    | .error e => some (.error e)
    | .ok none => some (.ok (out, pos))
    | .ok (some (e, pos)) => decodeFrom buf rounds pos (out ++ [e])

def decodeEntries (buf : List UInt8) : Option (Except ε (List α × ℕ)) :=
  decodeFrom varint codec buf (buf.length + 1) 0 []

/-- A complete frame is read, and the next one begins where it ends. -/
theorem decodeFrame_encodeEntry (before rest : List UInt8) (e : α) :
    decodeFrame varint codec (before ++ (encodeEntry varint codec e ++ rest)) before.length =
      .ok (some (e, before.length + (encodeEntry varint codec e).length)) := by
  have hlength : (before ++ (encodeEntry varint codec e ++ rest)).length -
      (codec.encode e ++ rest).length + (codec.encode e).length =
        before.length + (encodeEntry varint codec e).length := by
    simp only [encodeEntry, List.length_append]
    omega
  have hvarint := varint.decode_encode _ (codec.length_lt e) (codec.encode e ++ rest)
  rw [decodeFrame, List.drop_left]
  nth_rewrite 1 [encodeEntry]
  rw [List.append_assoc, hvarint]
  simp only [List.take_left, codec.decode_encode, Except.map, hlength]
  exact if_pos (by simp)

/-- A frame that is cut off is left. -/
theorem decodeFrame_cut (before : List UInt8) {e : α} {k : ℕ}
    (h : k < (encodeEntry varint codec e).length) :
    decodeFrame varint codec (before ++ (encodeEntry varint codec e).take k) before.length =
      .ok none := by
  have hlt := codec.length_lt e
  rw [decodeFrame, List.drop_left]
  rcases Nat.lt_or_ge k (varint.encode (codec.encode e).length).length with hk | hk
  · rw [encodeEntry, List.take_append_of_le_length (Nat.le_of_lt hk),
      varint.decode_cut _ hlt k hk]
  · rw [encodeEntry, List.take_append, List.take_of_length_le hk, varint.decode_encode _ hlt]
    rw [encodeEntry, List.length_append] at h
    refine if_neg ?_
    rw [List.length_take]
    omega

variable {varint codec} in
/-- A round that reads a frame goes on behind it, inside the buffer. -/
theorem decodeFrame_progress {buf : List UInt8} {pos pos' : ℕ} {e : α}
    (h : decodeFrame varint codec buf pos = .ok (some (e, pos'))) :
    pos < pos' ∧ pos' ≤ buf.length := by
  rw [decodeFrame] at h
  cases hvarint : varint.decode (buf.drop pos) with
  | none =>
    rw [hvarint] at h
    cases h
  | some p =>
    obtain ⟨len, probe⟩ := p
    rw [hvarint] at h
    obtain ⟨head, hne, hdrop⟩ := varint.consumes _ _ _ hvarint
    have hhead : 0 < head.length := List.length_pos_of_ne_nil hne
    have hlength := congrArg List.length hdrop
    rw [List.length_drop, List.length_append] at hlength
    simp only at h
    split_ifs at h with hlen
    · cases hentry : codec.decode (probe.take len) with
      | error x =>
        rw [hentry] at h
        cases h
      | ok a =>
        rw [hentry] at h
        cases h
        omega
    · cases h

theorem decodeFrame_end (buf : List UInt8) :
    decodeFrame varint codec buf buf.length = .ok none := by
  rw [decodeFrame, List.drop_length]
  cases hvarint : varint.decode [] with
  | none => rfl
  | some p =>
    obtain ⟨head, hne, hnil⟩ := varint.consumes _ _ _ hvarint
    exact absurd (List.append_eq_nil_iff.mp hnil.symm).1 hne

variable {varint codec} in
/-- The rounds suffice: each one that goes on leaves less of the buffer. -/
theorem decodeFrom_some {buf : List UInt8} {rounds pos : ℕ} {out : List α}
    (hpos : pos ≤ buf.length) (h : buf.length < pos + rounds) :
    ∃ result, decodeFrom varint codec buf rounds pos out = some result := by
  induction rounds generalizing pos out with
  | zero => omega
  | succ rounds ih =>
    rw [decodeFrom]
    cases hframe : decodeFrame varint codec buf pos with
    | error x => exact ⟨_, rfl⟩
    | ok next =>
      cases next with
      | none => exact ⟨_, rfl⟩
      | some p =>
        have hprogress := decodeFrame_progress hframe
        exact ih hprogress.2 (by omega)

variable {varint codec} in
/-- A round that does not fail ends the loop, or reads one more entry. -/
theorem decodeFrom_cases {buf : List UInt8} {rounds pos n : ℕ} {out es : List α}
    (h : decodeFrom varint codec buf (rounds + 1) pos out = some (.ok (es, n))) :
    out = es ∧ pos = n ∨ ∃ e next, decodeFrame varint codec buf pos = .ok (some (e, next)) ∧
      decodeFrom varint codec buf rounds next (out ++ [e]) = some (.ok (es, n)) := by
  rw [decodeFrom] at h
  split at h
  · cases h
  · cases h
    exact Or.inl ⟨rfl, rfl⟩
  · exact Or.inr ⟨_, _, ‹_›, h⟩

variable {varint codec} in
/-- Every entry takes at least one byte. -/
theorem decodeFrom_length {buf : List UInt8} {rounds pos n : ℕ} {out es : List α}
    (hpos : pos ≤ buf.length)
    (h : decodeFrom varint codec buf rounds pos out = some (.ok (es, n))) :
    es.length + pos ≤ out.length + n ∧ n ≤ buf.length := by
  induction rounds generalizing pos out with
  | zero => cases h
  | succ rounds ih =>
    obtain ⟨rfl, rfl⟩ | ⟨e, next, hframe, h⟩ := decodeFrom_cases h
    · exact ⟨Nat.le_refl _, hpos⟩
    · have hprogress := decodeFrame_progress hframe
      have hrest := ih hprogress.2 h
      rw [List.length_append, List.length_singleton] at hrest
      omega

theorem encodeEntries_append (es es' : List α) : encodeEntries varint codec (es ++ es') =
    encodeEntries varint codec es ++ encodeEntries varint codec es' := List.flatMap_append

theorem encodeEntries_cons (e : α) (es : List α) : encodeEntries varint codec (e :: es) =
    encodeEntry varint codec e ++ encodeEntries varint codec es := List.flatMap_cons

theorem length_encodeEntry_pos (e : α) : 0 < (encodeEntry varint codec e).length := by
  have hread := varint.decode_encode _ (codec.length_lt e) []
  obtain ⟨head, hne, hbytes⟩ := varint.consumes _ _ _ hread
  rw [encodeEntry, List.append_cancel_right hbytes, List.length_append]
  exact Nat.add_pos_left (List.length_pos_of_ne_nil hne) _

theorem length_le_encodeEntries (es : List α) :
    es.length ≤ (encodeEntries varint codec es).length := by
  induction es with
  | nil => exact Nat.le_refl 0
  | cons e es ih =>
    have := length_encodeEntry_pos varint codec e
    rw [encodeEntries_cons, List.length_append, List.length_cons]
    omega

/-- The loop reads complete frames one after the other. -/
theorem decodeFrom_frames (es : List α) (before tail : List UInt8) (out : List α) (rounds : ℕ) :
    decodeFrom varint codec (before ++ encodeEntries varint codec es ++ tail)
        (es.length + rounds) before.length out =
      decodeFrom varint codec (before ++ encodeEntries varint codec es ++ tail) rounds
        (before ++ encodeEntries varint codec es).length (out ++ es) := by
  induction es generalizing before out with
  | nil => simp [encodeEntries]
  | cons e es ih =>
    have hbuf : before ++ encodeEntries varint codec (e :: es) =
        (before ++ encodeEntry varint codec e) ++ encodeEntries varint codec es := by
      rw [encodeEntries_cons, List.append_assoc]
    have hframe := decodeFrame_encodeEntry varint codec before
      (encodeEntries varint codec es ++ tail) e
    rw [← List.append_assoc, ← List.append_assoc, ← List.length_append] at hframe
    rw [hbuf, List.length_cons, Nat.add_right_comm, decodeFrom, hframe, ← List.singleton_append,
      ← List.append_assoc out]
    exact ih _ _

variable {varint codec} in
/-- The loop keeps what it has read. -/
theorem decodeFrom_prefix {buf : List UInt8} {rounds pos n : ℕ} {out es : List α}
    (h : decodeFrom varint codec buf rounds pos out = some (.ok (es, n))) : out <+: es := by
  induction rounds generalizing pos out with
  | zero => cases h
  | succ rounds ih =>
    obtain ⟨rfl, -⟩ | ⟨e, next, -, h⟩ := decodeFrom_cases h
    · exact List.prefix_rfl
    · exact (List.prefix_append out [e]).trans (ih h)

variable {varint codec} in
/-- Where a cut falls. -/
theorem exists_cut {es : List α} {k : ℕ} (h : k < (encodeEntries varint codec es).length) :
    ∃ done e later, es = done ++ e :: later ∧ (encodeEntries varint codec done).length ≤ k ∧
      k < (encodeEntries varint codec done).length + (encodeEntry varint codec e).length := by
  induction es generalizing k with
  | nil => cases h
  | cons e es ih =>
    rw [encodeEntries_cons, List.length_append] at h
    rcases Nat.lt_or_ge k (encodeEntry varint codec e).length with hk | hk
    · exact ⟨[], e, es, rfl, Nat.zero_le k, by simpa [encodeEntries] using hk⟩
    · obtain ⟨done, e', later, rfl, hle, hlt⟩ :=
        ih (by omega : k - (encodeEntry varint codec e).length < _)
      refine ⟨e :: done, e', later, rfl, ?_, ?_⟩
      · rw [encodeEntries_cons, List.length_append]
        omega
      · rw [encodeEntries_cons, List.length_append]
        omega

variable {varint codec} in
/-- Complete frames give their entries, if what follows gives none. -/
theorem decodeEntries_stop {es : List α} {tail : List UInt8}
    (h : decodeFrame varint codec (encodeEntries varint codec es ++ tail)
      (encodeEntries varint codec es).length = .ok none) :
    decodeEntries varint codec (encodeEntries varint codec es ++ tail) =
      some (.ok (es, (encodeEntries varint codec es).length)) := by
  have hlength := length_le_encodeEntries varint codec es
  obtain ⟨k, hk⟩ := Nat.exists_eq_add_of_le
    (by simp; omega : es.length ≤ (encodeEntries varint codec es ++ tail).length)
  have hread := decodeFrom_frames varint codec es [] tail [] (k + 1)
  simp only [List.nil_append, List.length_nil] at hread
  rw [decodeEntries, hk, Nat.add_assoc, hread, decodeFrom, h]

theorem decodeEntries_encodeEntries (es : List α) :
    decodeEntries varint codec (encodeEntries varint codec es) =
      some (.ok (es, (encodeEntries varint codec es).length)) := by
  have hstop : decodeFrame varint codec (encodeEntries varint codec es ++ [])
      (encodeEntries varint codec es).length = .ok none := by
    simpa using decodeFrame_end varint codec (encodeEntries varint codec es)
  simpa using decodeEntries_stop hstop

/-- Frames that are cut off give the entries before the cut. -/
theorem decodeEntries_take (es : List α) {k : ℕ} (hk : k < (encodeEntries varint codec es).length) :
    ∃ done e later, es = done ++ e :: later ∧ (encodeEntries varint codec done).length ≤ k ∧
      k < (encodeEntries varint codec (done ++ [e])).length ∧
      decodeEntries varint codec ((encodeEntries varint codec es).take k) =
        some (.ok (done, (encodeEntries varint codec done).length)) := by
  obtain ⟨done, e, later, rfl, hle, hlt⟩ := exists_cut hk
  refine ⟨done, e, later, rfl, hle, ?_, ?_⟩
  · rw [encodeEntries_append, List.length_append]
    simpa [encodeEntries] using hlt
  · set cut := k - (encodeEntries varint codec done).length with hcut
    have htake : (encodeEntries varint codec (done ++ e :: later)).take k =
        encodeEntries varint codec done ++ (encodeEntry varint codec e).take cut := by
      rw [encodeEntries_append, List.take_append, List.take_of_length_le hle,
        encodeEntries_cons, List.take_append_of_le_length (by omega)]
    rw [htake]
    exact decodeEntries_stop (decodeFrame_cut varint codec _ (by omega))

/-- Any bytes are read to an end. -/
theorem decodeEntries_some (buf : List UInt8) :
    ∃ result, decodeEntries varint codec buf = some result :=
  decodeFrom_some (Nat.zero_le _) (by omega)

/-- What the decoder gives of a buffer. -/
def decoded (buf : List UInt8) : Except ε (List α × ℕ) :=
  (decodeEntries varint codec buf).get
    (Option.isSome_iff_exists.mpr (decodeEntries_some varint codec buf))

variable {varint codec} in
theorem decoded_iff {buf : List UInt8} {result : Except ε (List α × ℕ)} :
    decoded varint codec buf = result ↔ decodeEntries varint codec buf = some result := by
  obtain ⟨r, hr⟩ := decodeEntries_some varint codec buf
  simp [decoded, hr]

variable {varint codec} in
/-- Complete frames are read, whatever follows them. -/
theorem decodeEntries_prefix {es read : List α} {buf : List UInt8} {n : ℕ}
    (hbuf : encodeEntries varint codec es <+: buf)
    (h : decodeEntries varint codec buf = some (.ok (read, n))) : es <+: read := by
  obtain ⟨tail, rfl⟩ := hbuf
  have hlength := length_le_encodeEntries varint codec es
  obtain ⟨k, hk⟩ := Nat.exists_eq_add_of_le
    (by simp; omega : es.length ≤ (encodeEntries varint codec es ++ tail).length)
  have hread := decodeFrom_frames varint codec es [] tail [] (k + 1)
  simp only [List.nil_append, List.length_nil] at hread
  rw [decodeEntries, hk, Nat.add_assoc, hread] at h
  exact decodeFrom_prefix h

/-- Frames that are all there give their entries. Cut anywhere, they give the entries whose frames
are complete. Any bytes are read to an end, with at least one byte for every entry. -/
theorem decodeEntries_frames (es : List α) :
    decodeEntries varint codec (encodeEntries varint codec es) =
        some (.ok (es, (encodeEntries varint codec es).length)) ∧
    (∀ k < (encodeEntries varint codec es).length, ∃ done e later, es = done ++ e :: later ∧
      (encodeEntries varint codec done).length ≤ k ∧
      k < (encodeEntries varint codec (done ++ [e])).length ∧
      decodeEntries varint codec ((encodeEntries varint codec es).take k) =
        some (.ok (done, (encodeEntries varint codec done).length))) ∧
    ∀ buf, ∃ result, decodeEntries varint codec buf = some result ∧
      ∀ read n, result = .ok (read, n) → read.length ≤ n ∧ n ≤ buf.length := by
  refine ⟨decodeEntries_encodeEntries varint codec es,
    fun k hk => decodeEntries_take varint codec es hk, fun buf => ?_⟩
  obtain ⟨result, hresult⟩ := decodeEntries_some varint codec buf
  refine ⟨result, hresult, fun read n hread => ?_⟩
  rw [hread] at hresult
  simpa using decodeFrom_length (Nat.zero_le _) hresult

/-- Entries with a sequence number and nothing else. -/
def bareEntries : Entries UInt64 String where
  encode seq := if seq = 0 then [] else 8 :: Wire.leb128.encode seq.toNat
  decode
    | [] => .ok 0
    | _ :: bytes =>
      match Wire.leb128.decode bytes with
      | some (n, _) => .ok (UInt64.ofNat n)
      | none => .error "failed to decode Protobuf message"
  decode_encode seq := by
    have hread := Wire.leb128.decode_encode seq.toNat seq.toNat_lt []
    rw [List.append_nil] at hread
    split_ifs with hzero
    · rw [hzero]
    · simp [hread]
  length_lt seq := by
    have hlength : (Wire.leb128.encode seq.toNat).length ≤ 10 := Wire.length_lebEncode 10 _
    split_ifs
    · decide
    · rw [List.length_cons]
      omega

/-- The second of two frames is cut off behind its length. -/
theorem decodeEntries_torn :
    decodeEntries Wire.leb128 bareEntries [2, 8, 1, 3, 8, 172, 2] =
        some (.ok ([1, 300], 7)) ∧
      decodeEntries Wire.leb128 bareEntries [2, 8, 1, 3, 8] = some (.ok ([1], 3)) := by
  have hbytes : encodeEntries Wire.leb128 bareEntries [1, 300] = [2, 8, 1, 3, 8, 172, 2] := by
    decide
  have hwhole := (decodeEntries_frames Wire.leb128 bareEntries [1, 300]).1
  rw [hbytes] at hwhole
  exact ⟨hwhole, by rfl⟩

end Walgit.LogFrames
