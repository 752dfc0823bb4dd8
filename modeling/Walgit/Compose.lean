import Mathlib.Algebra.Ring.Nat
import Mathlib.Data.List.Basic
import Mathlib.Data.Nat.Notation
import Mathlib.Tactic.Common
import Mathlib.Tactic.SplitIfs

/-!
# Composing objects

S3 joins objects by a multipart upload whose parts it copies itself, but a part other than the
last has to be of a minimal size. A small source is therefore read and uploaded together with the
beginning of the next ones.
-/
namespace Walgit.Compose

def minPart : ℕ := 5 * 1024 * 1024

def copyPart : ℕ := 1024 * 1024 * 1024

inductive ComposeError where
  /-- "compose needs at least one source" -/
  | noSources
  /-- "compose size overflow" -/
  | sizeOverflow
  /-- "compose source offset out of bounds" -/
  | offset
  deriving DecidableEq, Repr

/-- A source and the range of the concatenation it fills. -/
structure Span where
  start : ℕ
  stop : ℕ
  source : String
  deriving DecidableEq, Repr

/-- The layout of the sources from an offset on, and the size of the whole. -/
def layoutFrom (total : ℕ) : List (String × ℕ) → Except ComposeError (List Span × ℕ)
  | [] => .ok ([], total)
  | (source, size) :: sources =>
    if total + size < 2 ^ 64 then
      (layoutFrom (total + size) sources).map fun rest =>
        (⟨total, total + size, source⟩ :: rest.1, rest.2)
    else .error .sizeOverflow

def sourceAt (layout : List Span) (position : ℕ) : Except ComposeError Span :=
  match layout.find? fun span => decide (position < span.stop) with
  | some span => .ok span
  | none => .error .offset

/-- A range of one source. -/
structure Piece where
  span : Span
  offset : ℕ
  length : ℕ
  deriving DecidableEq, Repr

/-- A part of the upload; its number is its place. -/
inductive Part where
  | copy (piece : Piece)
  | upload (pieces : List Piece)
  deriving DecidableEq, Repr

namespace Part

def pieces : Part → List Piece
  | copy piece => [piece]
  | upload pieces => pieces

def length (part : Part) : ℕ := (part.pieces.map Piece.length).sum

end Part

/-- Reads `want` bytes across the sources; `none` when the rounds run out. -/
def fill (layout : List Span) (want : ℕ) :
    ℕ → ℕ → List Piece → Option (Except ComposeError (List Piece))
  | 0, _, _ => none
  | rounds + 1, p, buf =>
    let got := (buf.map Piece.length).sum
    if got < want then
      match sourceAt layout p with
      | .error e => some (.error e)
      | .ok span =>
        let take := min (span.stop - p) (want - got)
        fill layout want rounds (p + take) (buf ++ [⟨span, p - span.start, take⟩])
    else some (.ok buf)

/-- The part at a position. -/
def nextPart (layout : List Span) (total pos : ℕ) : Option (Except ComposeError Part) :=
  match sourceAt layout pos with
  | .error e => some (.error e)
  | .ok span =>
    let run := span.stop - pos
    if minPart ≤ run ∨ span.stop = total then
      some (.ok (.copy ⟨span, pos - span.start, min run copyPart⟩))
    else
      let want := min minPart (total - pos)
      (fill layout want (want + 1) pos []).map fun pieces => pieces.map Part.upload

/-- The loop over the parts. -/
def planFrom (layout : List Span) (total : ℕ) :
    ℕ → ℕ → List Part → Option (Except ComposeError (List Part))
  | 0, _, _ => none
  | rounds + 1, pos, parts =>
    if pos < total then
      match nextPart layout total pos with
      | none => none
      | some (.error e) => some (.error e)
      | some (.ok part) => planFrom layout total rounds (pos + part.length) (parts ++ [part])
    else some (.ok parts)

/-- The parts `compose` uploads for sources of these sizes. -/
def plan (sources : List (String × ℕ)) : Option (Except ComposeError (List Part)) :=
  if sources.isEmpty then some (.error .noSources)
  else
    match layoutFrom 0 sources with
    | .error e => some (.error e)
    | .ok (layout, total) => planFrom layout total (total + 1) 0 []

section Layout

/-- Spans that follow one another up to an end. -/
inductive Laid : ℕ → List Span → ℕ → Prop
  | nil (total : ℕ) : Laid total [] total
  | cons {span : Span} {layout : List Span} {total : ℕ} (le : span.start ≤ span.stop)
      (rest : Laid span.stop layout total) : Laid span.start (span :: layout) total

theorem Laid.le {start total : ℕ} {layout : List Span} (h : Laid start layout total) :
    start ≤ total := by
  induction h with
  | nil => exact Nat.le_refl _
  | cons le _ ih => exact Nat.le_trans le ih

theorem layoutFrom_laid {start total : ℕ} {sources : List (String × ℕ)} {layout : List Span}
    (h : layoutFrom start sources = .ok (layout, total)) :
    Laid start layout total ∧ total = start + (sources.map Prod.snd).sum := by
  induction sources generalizing start layout total with
  | nil =>
    cases h
    exact ⟨.nil _, rfl⟩
  | cons s sources ih =>
    obtain ⟨source, size⟩ := s
    rw [layoutFrom] at h
    split_ifs at h
    cases hrest : layoutFrom (start + size) sources with
    | error e =>
      rw [hrest] at h
      cases h
    | ok rest =>
      rw [hrest] at h
      cases h
      obtain ⟨hlaid, htotal⟩ := ih hrest
      refine ⟨@Laid.cons ⟨start, start + size, source⟩ _ _ (Nat.le_add_right _ _) hlaid, ?_⟩
      rw [htotal, List.map_cons, List.sum_cons]
      omega

/-- The layout fails exactly when the whole does not fit in 64 bits. -/
theorem layoutFrom_error (sources : List (String × ℕ)) {start : ℕ} (hstart : start < 2 ^ 64) :
    (2 ^ 64 ≤ start + (sources.map Prod.snd).sum ∧
        layoutFrom start sources = .error .sizeOverflow) ∨
      (start + (sources.map Prod.snd).sum < 2 ^ 64 ∧
        ∃ layout, layoutFrom start sources =
          .ok (layout, start + (sources.map Prod.snd).sum)) := by
  induction sources generalizing start with
  | nil => exact .inr ⟨hstart, [], rfl⟩
  | cons s sources ih =>
    obtain ⟨source, size⟩ := s
    simp only [layoutFrom, List.map_cons, List.sum_cons, ← Nat.add_assoc]
    split_ifs with hsize
    · rcases ih hsize with ⟨hlarge, herror⟩ | ⟨hsmall, layout, hlayout⟩
      · exact .inl ⟨hlarge, by rw [herror]; rfl⟩
      · exact .inr ⟨hsmall, _, by rw [hlayout]; rfl⟩
    · exact .inl ⟨by omega, rfl⟩

/-- Every position before the end lies in one source. -/
theorem sourceAt_laid {start total p : ℕ} {layout : List Span} (h : Laid start layout total)
    (hstart : start ≤ p) (hp : p < total) :
    ∃ span ∈ layout, sourceAt layout p = .ok span ∧ span.start ≤ p ∧ p < span.stop ∧
      span.stop ≤ total := by
  induction h with
  | nil => omega
  | @cons span layout total le rest ih =>
    by_cases hin : p < span.stop
    · exact ⟨span, List.mem_cons_self, by simp [sourceAt, hin], hstart, hin, rest.le⟩
    · obtain ⟨found, hmem, hat, hfound⟩ := ih (by omega) hp
      refine ⟨found, List.mem_cons_of_mem _ hmem, ?_, hfound⟩
      simpa [sourceAt, hin] using hat

end Layout

section Chains

/-- Pieces that follow one another from one position to another, each inside its source. -/
inductive Chain (layout : List Span) : ℕ → List Piece → ℕ → Prop
  | nil (pos : ℕ) : Chain layout pos [] pos
  | cons {piece : Piece} {pieces : List Piece} {stop : ℕ} (mem : piece.span ∈ layout)
      (inside : piece.span.start + piece.offset + piece.length ≤ piece.span.stop)
      (rest : Chain layout (piece.span.start + piece.offset + piece.length) pieces stop) :
      Chain layout (piece.span.start + piece.offset) (piece :: pieces) stop

variable {layout : List Span}

theorem Chain.append {a b c : ℕ} {ps qs : List Piece} (h : Chain layout a ps b)
    (h' : Chain layout b qs c) : Chain layout a (ps ++ qs) c := by
  induction h with
  | nil => exact h'
  | cons mem inside _ ih => exact .cons mem inside (ih h')

theorem Chain.length {a b : ℕ} {ps : List Piece} (h : Chain layout a ps b) :
    a + (ps.map Piece.length).sum = b := by
  induction h with
  | nil => rfl
  | cons _ _ _ ih =>
    rw [List.map_cons, List.sum_cons, ← ih]
    omega

theorem chain_piece {span : Span} {p length : ℕ} (hmem : span ∈ layout) (hstart : span.start ≤ p)
    (hstop : p + length ≤ span.stop) :
    Chain layout p [⟨span, p - span.start, length⟩] (p + length) := by
  have hp : p = span.start + (p - span.start) := by omega
  have h := @Chain.cons layout ⟨span, p - span.start, length⟩ [] _ hmem (by simp only; omega)
    (.nil _)
  simpa only [← hp] using h

end Chains

section Plan

variable {layout : List Span} {total : ℕ}

/-- The buffer is filled from the position on. -/
theorem fill_chain (hlaid : Laid 0 layout total) {want rounds a p : ℕ} {buf : List Piece}
    (hbuf : Chain layout a buf p) (hp : p ≤ a + want) (hwant : a + want ≤ total)
    (hrounds : a + want < p + rounds) :
    ∃ pieces, fill layout want rounds p buf = some (.ok pieces) ∧
      Chain layout a pieces (a + want) := by
  induction rounds generalizing p buf with
  | zero => omega
  | succ rounds ih =>
    have hgot := hbuf.length
    rw [fill]
    dsimp only
    split_ifs with hmore
    · obtain ⟨span, hmem, hat, hstart, hin, -⟩ := sourceAt_laid hlaid (Nat.zero_le p) (by omega)
      rw [hat]
      have hpiece := chain_piece hmem hstart (by omega :
        p + min (span.stop - p) (want - (buf.map Piece.length).sum) ≤ span.stop)
      exact ih (hbuf.append hpiece) (by omega) (by omega)
    · obtain rfl : p = a + want := by omega
      exact ⟨buf, rfl, hbuf⟩

/-- A part begins at the position, stays in the whole and is long enough unless it ends it. -/
theorem nextPart_ok (hlaid : Laid 0 layout total) {pos : ℕ} (hpos : pos < total) :
    ∃ part, nextPart layout total pos = some (.ok part) ∧
      Chain layout pos part.pieces (pos + part.length) ∧ 0 < part.length ∧
      pos + part.length ≤ total ∧ (minPart ≤ part.length ∨ pos + part.length = total) ∧
      ∀ piece, part = .copy piece → piece.length ≤ copyPart := by
  have hmin : 0 < minPart := by decide
  have hsizes : minPart ≤ copyPart := by decide
  obtain ⟨span, hmem, hat, hstart, hin, hstop⟩ := sourceAt_laid hlaid (Nat.zero_le pos) hpos
  rw [nextPart, hat]
  dsimp only
  split_ifs with hcopy
  · have hlength : (Part.copy ⟨span, pos - span.start, min (span.stop - pos) copyPart⟩).length =
        min (span.stop - pos) copyPart := List.sum_singleton
    refine ⟨_, rfl, ?_, ?_, ?_, ?_, ?_⟩
    · rw [hlength]
      exact chain_piece hmem hstart (by omega)
    · omega
    · omega
    · omega
    · intro piece hpiece
      cases hpiece
      exact Nat.min_le_right _ _
  · obtain ⟨pieces, hfill, hchain⟩ := fill_chain hlaid (.nil pos)
      (by omega : pos ≤ pos + min minPart (total - pos)) (by omega)
      (by omega : _ < pos + (min minPart (total - pos) + 1))
    have hlength := hchain.length
    have hpart : (Part.upload pieces).length = (pieces.map Piece.length).sum := rfl
    rw [hfill]
    refine ⟨.upload pieces, rfl, ?_, ?_, ?_, ?_, ?_⟩
    · rw [hpart, hlength]
      exact hchain
    · omega
    · omega
    · omega
    · intro piece hpiece
      cases hpiece

/-- Parts up to a position: only the last may be short, and only if it ends the whole. -/
structure Planned (layout : List Span) (total pos : ℕ) (parts : List Part) : Prop where
  chain : Chain layout 0 (parts.flatMap Part.pieces) pos
  le : pos ≤ total
  long : ∀ part ∈ parts.dropLast, minPart ≤ part.length
  last : pos < total → ∀ part ∈ parts, minPart ≤ part.length
  copies : ∀ piece, Part.copy piece ∈ parts → piece.length ≤ copyPart

theorem planFrom_planned (hlaid : Laid 0 layout total) {rounds pos : ℕ} {parts : List Part}
    (h : Planned layout total pos parts) (hrounds : total < pos + rounds) :
    ∃ parts', planFrom layout total rounds pos parts = some (.ok parts') ∧
      Planned layout total total parts' := by
  induction rounds generalizing pos parts with
  | zero =>
    have := h.le
    omega
  | succ rounds ih =>
    rw [planFrom]
    split_ifs with hpos
    · obtain ⟨part, hpart, hchain, hlength, hle, hlong, hcopy⟩ := nextPart_ok hlaid hpos
      rw [hpart]
      refine ih ⟨?_, hle, ?_, fun hmore part' hpart' => ?_, fun piece hpiece => ?_⟩ (by omega)
      · rw [List.flatMap_append, List.flatMap_singleton]
        exact h.chain.append hchain
      · rw [List.dropLast_concat]
        exact h.last hpos
      · rcases List.mem_append.mp hpart' with hold | hnew
        · exact h.last hpos part' hold
        · rw [List.mem_singleton.mp hnew]
          exact hlong.resolve_right (by omega)
      · rcases List.mem_append.mp hpiece with hold | hnew
        · exact h.copies piece hold
        · exact hcopy piece (List.mem_singleton.mp hnew).symm
    · obtain rfl : pos = total := Nat.le_antisymm h.le (Nat.le_of_not_lt hpos)
      exact ⟨parts, rfl, h⟩

end Plan

section Contents

variable {β : Type} (data : String → List β)

/-- What a piece takes of its source. -/
def Piece.read (piece : Piece) : List β :=
  ((data piece.span.source).drop piece.offset).take piece.length

variable {data}

/-- Where the layout puts a source, the concatenation has its contents. -/
theorem layoutFrom_data (before : List β) {sources : List (String × ℕ)} {layout : List Span}
    {total : ℕ} (h : layoutFrom before.length sources = .ok (layout, total))
    (hsizes : ∀ s ∈ sources, (data s.1).length = s.2) :
    ∀ span ∈ layout, ((before ++ sources.flatMap fun s => data s.1).take span.stop).drop
      span.start = data span.source := by
  induction sources generalizing before layout total with
  | nil =>
    cases h
    intro span hspan
    cases hspan
  | cons s sources ih =>
    obtain ⟨source, size⟩ := s
    obtain ⟨hsize, hrest⟩ := List.forall_mem_cons.mp hsizes
    simp only at hsize
    rw [layoutFrom] at h
    split_ifs at h
    cases hlayout : layoutFrom (before.length + size) sources with
    | error e =>
      rw [hlayout] at h
      cases h
    | ok rest =>
      rw [hlayout] at h
      cases h
      rw [← hsize, ← List.length_append] at hlayout
      rw [List.flatMap_cons, ← List.append_assoc]
      intro span hspan
      rcases List.mem_cons.mp hspan with rfl | hlater
      · simp only [← hsize, ← List.length_append, List.take_left, List.drop_left]
      · exact ih _ hlayout hrest span hlater

/-- A chain reads the concatenation from its start to its end. -/
theorem Chain.read {layout : List Span} {whole : List β}
    (hdata : ∀ span ∈ layout, (whole.take span.stop).drop span.start = data span.source) {a b : ℕ}
    {ps : List Piece} (h : Chain layout a ps b) :
    ps.flatMap (Piece.read data) = (whole.take b).drop a := by
  induction h with
  | nil pos => simp
  | @cons piece pieces stop mem inside rest ih =>
    have hle := rest.length
    have hread : piece.read data =
        ((whole.take stop).drop (piece.span.start + piece.offset)).take piece.length := by
      rw [Piece.read, ← hdata piece.span mem, List.drop_drop, List.drop_take, List.take_take,
        List.drop_take, List.take_take, Nat.min_eq_left (by omega), Nat.min_eq_left (by omega)]
    have hrest : (whole.take stop).drop (piece.span.start + piece.offset + piece.length) =
        ((whole.take stop).drop (piece.span.start + piece.offset)).drop piece.length :=
      List.drop_drop.symm
    rw [List.flatMap_cons, ih, hread, hrest, List.take_append_drop]

end Contents

/-- Sources that fit in 64 bits are composed of parts that read their concatenation from its start
to its end. Every part but the last is at least 5 MiB long, and what is copied is at most 1 GiB. -/
theorem plan_valid (sources : List (String × ℕ)) :
    (sources = [] ∧ plan sources = some (.error .noSources)) ∨
    (2 ^ 64 ≤ (sources.map Prod.snd).sum ∧ plan sources = some (.error .sizeOverflow)) ∨
    ∃ layout parts, layoutFrom 0 sources = .ok (layout, (sources.map Prod.snd).sum) ∧
      plan sources = some (.ok parts) ∧
      Chain layout 0 (parts.flatMap Part.pieces) (sources.map Prod.snd).sum ∧
      (∀ part ∈ parts.dropLast, minPart ≤ part.length) ∧
      (∀ piece, Part.copy piece ∈ parts → piece.length ≤ copyPart) ∧
      ∀ (β : Type) (data : String → List β), (∀ s ∈ sources, (data s.1).length = s.2) →
        (parts.flatMap Part.pieces).flatMap (Piece.read data) =
          sources.flatMap fun s => data s.1 := by
  rw [plan]
  split_ifs with hempty
  · exact .inl ⟨List.isEmpty_iff.mp hempty, rfl⟩
  · refine .inr ((layoutFrom_error sources (by decide : 0 < 2 ^ 64)).imp ?_ ?_)
    · rintro ⟨hlarge, herror⟩
      rw [Nat.zero_add] at hlarge
      exact ⟨hlarge, by rw [herror]⟩
    · rintro ⟨-, layout, hlayout⟩
      rw [Nat.zero_add] at hlayout
      have hlaid := (layoutFrom_laid hlayout).1
      rw [hlayout]
      obtain ⟨parts, hparts, hplanned⟩ := planFrom_planned hlaid
        (⟨.nil 0, Nat.zero_le _, by simp, by simp, by simp⟩ : Planned layout _ 0 [])
        (by omega : _ < 0 + ((sources.map Prod.snd).sum + 1))
      refine ⟨layout, parts, rfl, hparts, hplanned.chain, hplanned.long, hplanned.copies,
        fun β data hsizes => ?_⟩
      have hspans := layoutFrom_data [] hlayout hsizes
      have hlength : (sources.flatMap fun s => data s.1).length = (sources.map Prod.snd).sum := by
        rw [List.length_flatMap]
        exact congrArg List.sum (List.map_congr_left hsizes)
      rw [hplanned.chain.read hspans, List.nil_append, ← hlength, List.take_length, List.drop_zero]

/-- A header in front of a pack is uploaded with the beginning of the pack. -/
example : plan [("header", 100), ("pack", 2 * copyPart)] =
    some (.ok [.upload [⟨⟨0, 100, "header"⟩, 0, 100⟩,
        ⟨⟨100, 100 + 2 * copyPart, "pack"⟩, 0, minPart - 100⟩],
      .copy ⟨⟨100, 100 + 2 * copyPart, "pack"⟩, minPart - 100, copyPart⟩,
      .copy ⟨⟨100, 100 + 2 * copyPart, "pack"⟩, minPart - 100 + copyPart,
        copyPart - (minPart - 100)⟩]) := by
  decide

end Walgit.Compose
