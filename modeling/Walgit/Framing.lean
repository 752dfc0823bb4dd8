import Mathlib.Data.List.Basic
import Mathlib.Data.Nat.Notation
import Mathlib.Tactic.SplitIfs

/-!
# Frames on a stream

A stream is delivered in pieces of any size. What is read from it depends on its content alone,
and a reader that gives back what a writer wrote, and takes nothing behind it, gives back a whole
sequence.
-/
namespace Framing

variable {β : Type}

/-- One read of at most `n` symbols: what is left of the next piece; nothing at the end. -/
def read (n : ℕ) : List (List β) → List β × List (List β)
  | [] => ([], [])
  | [] :: pieces => read n pieces
  | (b :: piece) :: pieces => ((b :: piece).take n, (b :: piece).drop n :: pieces)

/-- Reads until there are `n` symbols or the stream ends. -/
def fillFor : ℕ → ℕ → List (List β) → List β × List (List β)
  | 0, _, stream => ([], stream)
  | fuel + 1, n, stream =>
    if n = 0 then ([], stream)
    else
      let (part, stream) := read n stream
      if part.isEmpty then ([], stream)
      else
        let (rest, stream) := fillFor fuel (n - part.length) stream
        (part ++ rest, stream)

/-- Every read that is not the last gives a symbol, so `n` reads are enough. -/
def fill (n : ℕ) (stream : List (List β)) : List β × List (List β) := fillFor n n stream

theorem read_spec (n : ℕ) (stream : List (List β)) :
    (read n stream).1 ++ (read n stream).2.flatten = stream.flatten ∧
      (read n stream).1.length ≤ n ∧
      (0 < n → (read n stream).1 = [] → stream.flatten = []) := by
  induction stream with
  | nil => simp [read]
  | cons piece pieces ih =>
    cases piece with
    | nil => simpa [read] using ih
    | cons b piece =>
      refine ⟨?_, List.length_take_le _ _, fun hn hnil => ?_⟩
      · rw [read, List.flatten_cons, List.flatten_cons, ← List.append_assoc, List.take_append_drop]
      · rw [read, List.take_eq_nil_iff] at hnil
        rcases hnil with hnil | hnil
        · omega
        · cases hnil

theorem fillFor_spec {fuel n : ℕ} (h : n ≤ fuel) (stream : List (List β)) :
    (fillFor fuel n stream).1 = stream.flatten.take n ∧
      (fillFor fuel n stream).2.flatten = stream.flatten.drop n := by
  induction fuel generalizing n stream with
  | zero =>
    obtain rfl : n = 0 := by omega
    simp [fillFor]
  | succ fuel ih =>
    rw [fillFor]
    split_ifs with hzero
    · simp [hzero]
    · obtain ⟨happend, hlength, hend⟩ := read_spec n stream
      cases hread : read n stream with
      | mk part rest =>
        rw [hread] at happend hlength hend
        dsimp only at happend hlength hend ⊢
        by_cases hpart : part = []
        · have hnil := hend (by omega) hpart
          rw [hpart, List.nil_append] at happend
          simp [hpart, happend, hnil]
        · have hpos : 0 < part.length := List.length_pos_iff.mpr hpart
          obtain ⟨hfirst, hrest⟩ := ih (n := n - part.length) (by omega) rest
          simp only [List.isEmpty_iff, hpart, if_false, hfirst, hrest, ← happend]
          constructor
          · rw [List.take_append, List.take_of_length_le hlength]
          · rw [List.drop_append, List.drop_of_length_le hlength, List.nil_append]

/-- However the stream is cut, the same symbols are read and the same are left. -/
theorem fill_spec (n : ℕ) (stream : List (List β)) :
    (fill n stream).1 = stream.flatten.take n ∧
      (fill n stream).2.flatten = stream.flatten.drop n :=
  fillFor_spec (Nat.le_refl n) stream

/-- Nothing is lost between what is read and what is left. -/
theorem fill_split (n : ℕ) (stream : List (List β)) :
    ∃ part stream', fill n stream = (part, stream') ∧ stream.flatten = part ++ stream'.flatten ∧
      part.length ≤ n := by
  obtain ⟨hfirst, hrest⟩ := fill_spec n stream
  refine ⟨(fill n stream).1, (fill n stream).2, rfl, ?_, ?_⟩
  · rw [hfirst, hrest, List.take_append_drop]
  · rw [hfirst]
    exact List.length_take_le _ _

theorem fill_append {part rest : List β} {stream : List (List β)}
    (h : stream.flatten = part ++ rest) :
    ∃ stream', fill part.length stream = (part, stream') ∧ stream'.flatten = rest := by
  obtain ⟨hfirst, hrest⟩ := fill_spec part.length stream
  rw [h, List.take_left] at hfirst
  rw [h, List.drop_left] at hrest
  exact ⟨_, Prod.ext hfirst rfl, hrest⟩

theorem fill_end (n : ℕ) {stream : List (List β)} (h : stream.flatten = []) :
    ∃ stream', fill n stream = ([], stream') ∧ stream'.flatten = [] := by
  obtain ⟨hfirst, hrest⟩ := fill_spec n stream
  rw [h, List.take_nil] at hfirst
  rw [h, List.drop_nil] at hrest
  exact ⟨_, Prod.ext hfirst rfl, hrest⟩

section Chunks

/-- Consecutive parts of at most `n` symbols. -/
def chunksFor (n : ℕ) : ℕ → List β → List (List β)
  | 0, _ => []
  | fuel + 1, data => if data.isEmpty then [] else data.take n :: chunksFor n fuel (data.drop n)

/-- Each chunk takes a symbol, so there are at most as many. -/
def chunks (n : ℕ) (data : List β) : List (List β) := chunksFor n data.length data

theorem chunksFor_spec {n fuel : ℕ} (hn : 0 < n) {data : List β} (h : data.length ≤ fuel) :
    (chunksFor n fuel data).flatten = data ∧
      ∀ chunk ∈ chunksFor n fuel data, 0 < chunk.length ∧ chunk.length ≤ n := by
  induction fuel generalizing data with
  | zero => simp_all [chunksFor]
  | succ fuel ih =>
    rw [chunksFor]
    by_cases hnil : data = []
    · simp [hnil]
    · have hpos : 0 < data.length := List.length_pos_iff.mpr hnil
      have hdrop : (data.drop n).length ≤ fuel := by rw [List.length_drop]; omega
      obtain ⟨hflatten, hchunks⟩ := ih hdrop
      rw [if_neg (by simpa using hnil), List.flatten_cons, hflatten, List.take_append_drop,
        List.forall_mem_cons, List.length_take]
      exact ⟨rfl, by omega, hchunks⟩

theorem flatten_chunks {n : ℕ} (hn : 0 < n) (data : List β) : (chunks n data).flatten = data :=
  (chunksFor_spec hn (Nat.le_refl _)).1

theorem mem_chunks {n : ℕ} (hn : 0 < n) {data chunk : List β} (h : chunk ∈ chunks n data) :
    0 < chunk.length ∧ chunk.length ≤ n :=
  (chunksFor_spec hn (Nat.le_refl _)).2 chunk h

/-- What fits in one chunk is one. -/
theorem chunks_of_le {n : ℕ} {data : List β} (hne : data ≠ []) (h : data.length ≤ n) :
    chunks n data = [data] := by
  cases data with
  | nil => exact absurd rfl hne
  | cons b data =>
    rw [chunks, List.length_cons, chunksFor, if_neg (by simp), List.take_of_length_le h,
      List.drop_of_length_le h]
    cases data <;> rfl

/-- What fits in two chunks is two. -/
theorem chunks_two {n : ℕ} {data : List β} (hn : n < data.length) (h : data.length ≤ n + n) :
    chunks n data = [data.take n, data.drop n] := by
  have hpos : 0 < n := by omega
  have hrest : data.drop n ≠ [] := by
    rw [Ne, List.drop_eq_nil_iff]
    omega
  have hlast : chunksFor n (data.length - 1) (data.drop n) = [data.drop n] := by
    obtain ⟨fuel, hfuel⟩ : ∃ fuel, data.length - 1 = fuel + 1 := ⟨data.length - 2, by omega⟩
    have hlength : (data.drop n).length ≤ n := by
      rw [List.length_drop]
      omega
    rw [hfuel, chunksFor, if_neg (by simpa using hrest), List.take_of_length_le hlength,
      List.drop_of_length_le hlength]
    cases fuel <;> rfl
  obtain ⟨fuel, hfuel⟩ : ∃ fuel, data.length = fuel + 1 := ⟨data.length - 1, by omega⟩
  rw [hfuel, Nat.add_sub_cancel] at hlast
  rw [chunks, hfuel, chunksFor, hlast, if_neg]
  rw [List.isEmpty_iff]
  rintro rfl
  exact absurd hfuel (by simp)

end Chunks

section Sequences

variable {σ α τ ε : Type} (read : σ → Except ε (Option α × σ)) (step : τ → α → Except ε τ)
  (content : σ → List β) (write : α → List β)

/-- Reads at most `n` frames, up to where reading stops, and takes each one into account. -/
def foldFrames : ℕ → τ → σ → Except ε (τ × σ)
  | 0, t, s => .ok (t, s)
  | n + 1, t, s =>
    match read s with
    | .error e => .error e
    | .ok (none, s) => .ok (t, s)
    | .ok (some a, s) =>
      match step t a with
      | .error e => .error e
      | .ok t => foldFrames n t s

def readFrames (n : ℕ) (s : σ) : Except ε (List α × σ) :=
  foldFrames read (fun as a => .ok (as ++ [a])) n [] s

/-- A frame is read back and what follows it is left. -/
def ReadsBack (a : α) : Prop :=
  ∀ s rest, content s = write a ++ rest → ∃ s', read s = .ok (some a, s') ∧ content s' = rest

/-- Reading stops there, and leaves what follows. -/
def Stops (mark : List β) : Prop :=
  ∀ s rest, content s = mark ++ rest → ∃ s', read s = .ok (none, s') ∧ content s' = rest

variable {read content write}

/-- What was written is taken into account in its order, and then it goes on behind it. -/
theorem foldFrames_write {as : List α} (h : ∀ a ∈ as, ReadsBack read content write a) {s : σ}
    {rest : List β} (hs : content s = as.flatMap write ++ rest) :
    ∃ s', content s' = rest ∧ ∀ n t, foldFrames read step (as.length + n) t s =
      (as.foldlM step t).bind fun t => foldFrames read step n t s' := by
  induction as generalizing s with
  | nil => exact ⟨s, hs, fun n t => by simp only [List.length_nil, Nat.zero_add]; rfl⟩
  | cons a as ih =>
    rw [List.forall_mem_cons] at h
    rw [List.flatMap_cons, List.append_assoc] at hs
    obtain ⟨s₁, hread, hs₁⟩ := h.1 s _ hs
    obtain ⟨s', hs', hfold⟩ := ih h.2 hs₁
    refine ⟨s', hs', fun n t => ?_⟩
    rw [List.length_cons, Nat.add_right_comm, foldFrames, hread, List.foldlM_cons]
    dsimp only
    cases step t a with
    | error e => rfl
    | ok t => exact hfold n t

theorem foldFrames_stops {as : List α} (h : ∀ a ∈ as, ReadsBack read content write a)
    {mark : List β} (hmark : Stops read content mark) {n : ℕ} (hn : as.length < n) {s : σ}
    {rest : List β} (hs : content s = as.flatMap write ++ (mark ++ rest)) (t : τ) :
    ∃ s', content s' = rest ∧
      foldFrames read step n t s = (as.foldlM step t).map fun t => (t, s') := by
  obtain ⟨s₁, hs₁, hfold⟩ := foldFrames_write step h hs
  obtain ⟨s', hread, hs'⟩ := hmark s₁ rest hs₁
  refine ⟨s', hs', ?_⟩
  obtain ⟨m, rfl⟩ : ∃ m, n = as.length + (m + 1) := ⟨n - as.length - 1, by omega⟩
  rw [hfold]
  simp only [foldFrames, hread]
  cases as.foldlM step t <;> rfl

theorem foldlM_collect (as bs : List α) :
    as.foldlM (fun as a => (.ok (as ++ [a]) : Except ε (List α))) bs = .ok (bs ++ as) := by
  induction as generalizing bs with
  | nil => simp; rfl
  | cons a as ih =>
    rw [List.foldlM_cons]
    exact (ih (bs ++ [a])).trans (by rw [List.append_assoc, List.singleton_append])

theorem readFrames_write {as : List α} (h : ∀ a ∈ as, ReadsBack read content write a) {s : σ}
    {rest : List β} (hs : content s = as.flatMap write ++ rest) :
    ∃ s', readFrames read as.length s = .ok (as, s') ∧ content s' = rest := by
  obtain ⟨s', hs', hfold⟩ := foldFrames_write (fun as a => .ok (as ++ [a])) h hs
  refine ⟨s', ?_, hs'⟩
  have := hfold 0 []
  rwa [foldlM_collect] at this

theorem readFrames_stops {as : List α} (h : ∀ a ∈ as, ReadsBack read content write a)
    {mark : List β} (hmark : Stops read content mark) {n : ℕ} (hn : as.length < n) {s : σ}
    {rest : List β} (hs : content s = as.flatMap write ++ (mark ++ rest)) :
    ∃ s', readFrames read n s = .ok (as, s') ∧ content s' = rest := by
  obtain ⟨s', hs', hfold⟩ := foldFrames_stops (fun as a => .ok (as ++ [a])) h hmark hn hs []
  rw [foldlM_collect] at hfold
  exact ⟨s', hfold, hs'⟩

theorem foldFrames_collect (n : ℕ) (acc : List α) (s : σ) :
    foldFrames read (fun as a => .ok (as ++ [a])) n acc s =
      (readFrames read n s).map fun p => (acc ++ p.1, p.2) := by
  induction n generalizing acc s with
  | zero => simp [readFrames, foldFrames, Except.map]
  | succ n ih =>
    rw [readFrames, foldFrames, foldFrames]
    cases read s with
    | error e => rfl
    | ok p =>
      obtain ⟨a, s₁⟩ := p
      cases a with
      | none => simp [Except.map]
      | some a =>
        dsimp only
        rw [ih (acc ++ [a]), ih ([] ++ [a]) s₁]
        cases readFrames read n s₁ with
        | error e => rfl
        | ok p => simp [Except.map]

theorem readFrames_succ (n : ℕ) (s : σ) : readFrames read (n + 1) s =
    match read s with
    | .error e => .error e
    | .ok (none, s) => .ok ([], s)
    | .ok (some a, s) => (readFrames read n s).map fun p => (a :: p.1, p.2) := by
  rw [readFrames, foldFrames]
  cases read s with
  | error e => rfl
  | ok p =>
    obtain ⟨a, s₁⟩ := p
    cases a with
    | none => rfl
    | some a => exact foldFrames_collect n [a] s₁

/-- Without failures, the frames are read first and taken into account after. -/
theorem foldFrames_pure (f : τ → α → τ) (n : ℕ) (t : τ) (s : σ) :
    foldFrames read (fun t a => .ok (f t a)) n t s =
      (readFrames read n s).map fun p => (p.1.foldl f t, p.2) := by
  induction n generalizing t s with
  | zero => rfl
  | succ n ih =>
    rw [foldFrames, readFrames_succ]
    cases read s with
    | error e => rfl
    | ok p =>
      obtain ⟨a, s₁⟩ := p
      cases a with
      | none => rfl
      | some a =>
        dsimp only
        rw [ih]
        cases readFrames read n s₁ <;> rfl

/-- The first frame, if there is one. -/
theorem readFrames_cons {n : ℕ} {s s' : σ} {a : α} {as : List α}
    (h : readFrames read n s = .ok (a :: as, s')) :
    ∃ m s₁, read s = .ok (some a, s₁) ∧ readFrames read m s₁ = .ok (as, s') := by
  cases n with
  | zero => cases h
  | succ n =>
    rw [readFrames_succ] at h
    split at h
    · cases h
    · cases h
    · rename_i b s₁ hread
      cases hrest : readFrames read n s₁ with
      | error e =>
        rw [hrest] at h
        cases h
      | ok p =>
        rw [hrest] at h
        cases h
        exact ⟨n, s₁, hread, hrest⟩

/-- What holds of every frame that can be read holds of all that were. -/
theorem forall_mem_readFrames {P : α → Prop}
    (hread : ∀ s a s', read s = .ok (some a, s') → P a) {n : ℕ} {s s' : σ} {as : List α}
    (h : readFrames read n s = .ok (as, s')) : ∀ a ∈ as, P a := by
  induction as generalizing n s with
  | nil => simp
  | cons a as ih =>
    obtain ⟨m, s₁, ha, has⟩ := readFrames_cons h
    exact List.forall_mem_cons.mpr ⟨hread s a s₁ ha, ih has⟩

/-- What was read is what reading took, frame by frame. -/
theorem readFrames_consumes {P : List β → α → Prop}
    (hread : ∀ s a s', read s = .ok (some a, s') → ∃ b, content s = b ++ content s' ∧ P b a)
    (hstop : ∀ s s', read s = .ok (none, s') → content s' = content s) {n : ℕ} {s s' : σ}
    {as : List α} (h : readFrames read n s = .ok (as, s')) :
    ∃ bs, content s = bs.flatten ++ content s' ∧ List.Forall₂ P bs as := by
  induction as generalizing n s with
  | nil =>
    refine ⟨[], ?_, .nil⟩
    cases n with
    | zero => cases h; rfl
    | succ n =>
      rw [readFrames_succ] at h
      split at h
      · cases h
      · rename_i s₁ hs₁
        cases h
        exact (hstop _ _ hs₁).symm
      · rename_i a s₁ hs₁
        cases hrest : readFrames read n s₁ with
        | error e =>
          rw [hrest] at h
          cases h
        | ok p =>
          rw [hrest] at h
          cases h
  | cons a as ih =>
    obtain ⟨m, s₁, hs₁, hrest⟩ := readFrames_cons h
    obtain ⟨b, hb, hP⟩ := hread _ _ _ hs₁
    obtain ⟨bs, hbs, hall⟩ := ih hrest
    exact ⟨b :: bs, by rw [hb, hbs, List.flatten_cons, List.append_assoc], .cons hP hall⟩

end Sequences

end Framing
