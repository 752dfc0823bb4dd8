import Walgit.LogFrames
import Walgit.Machines

/-!
# Replays of log objects

`replay_log` reads the segments a manifest lists from their objects and applies the entries in
its range. An object that ends within a frame gives the entries before that frame, and the copy
records the head all the same.
-/
namespace Walgit

/-- What a GET of an object gives. -/
inductive GetResult where
  | object (body : List UInt8)
  | notModified
  deriving DecidableEq

/-- The log objects of a store. `entry` is the entry of a message. -/
structure LogObjects (α : Type) where
  varint : Wire.Varint
  codec : LogFrames.Entries α String
  entry : α → LogEntry
  get : Key → Except WalError GetResult

/-- The segments that overlap `(from_seq, to_seq]`. -/
def Manifest.overlapping (m : Manifest) (after last : ℕ) : List LogSegmentRef :=
  m.logSegments.filter fun s => after < s.lastSeq && s.firstSeq ≤ last

namespace LogObjects

variable {α : Type} (o : LogObjects α)

def fetch (s : LogSegmentRef) : Except WalError (Option (List UInt8)) := do
  match ← o.get s.key with
  | .object body => pure (some body)
  | .notModified => pure none

/-- The entries of a fetched segment; how far the decoder came is dropped. -/
def decode : Option (List UInt8) → Except WalError (List α)
  | none => .ok []
  | some body =>
    match LogFrames.decoded o.varint o.codec body with
    | .ok (entries, _) => .ok entries
    | .error e => .error (.corrupt ("log segment decode: " ++ e))

/-- The entries that `replay_log` applies. -/
def wanted (m : Manifest) (after last : ℕ) : Except WalError (List LogEntry) := do
  let fetched ← (m.overlapping after last).mapM o.fetch
  let decoded ← fetched.mapM o.decode
  pure (sortByKey LogEntry.seq
    ((decoded.flatten.map o.entry).filter fun e => after < e.seq && e.seq ≤ last))

def read (m : Manifest) (after last : ℕ) : Option (List LogEntry) :=
  (o.wanted m after last).toOption

/-- The entries of one segment. -/
def entries (s : LogSegmentRef) : Except WalError (List α) := o.fetch s >>= o.decode

/-- The decoded entries of a segment do not reach its end. -/
def Short (s : LogSegmentRef) : Prop :=
  ∃ es, o.entries s = .ok es ∧ ∀ a ∈ es, (o.entry a).seq < s.lastSeq

variable {o : LogObjects α} {m : Manifest} {after last : ℕ}

theorem entries_ok {s : LogSegmentRef} {es : List α} :
    o.entries s = .ok es ↔ ∃ body, o.fetch s = .ok body ∧ o.decode body = .ok es :=
  Checks.bind_eq_ok

theorem wanted_ok {es : List LogEntry} : o.wanted m after last = .ok es ↔
    ∃ fetched, (m.overlapping after last).mapM o.fetch = .ok fetched ∧
      ∃ decoded, fetched.mapM o.decode = .ok decoded ∧
        sortByKey LogEntry.seq
          ((decoded.flatten.map o.entry).filter fun e => after < e.seq && e.seq ≤ last) = es := by
  simp only [wanted, Checks.bind_eq_ok, pure, Except.pure, Except.ok.injEq]

/-- The log is read if every segment is. -/
theorem wanted_ok_iff : (∃ es, o.wanted m after last = .ok es) ↔
    ∀ s ∈ m.overlapping after last, ∃ es, o.entries s = .ok es := by
  constructor
  · rintro ⟨es, h⟩ s hs
    obtain ⟨fetched, hfetched, decoded, hdecoded, -⟩ := wanted_ok.mp h
    obtain ⟨body, hbody, hfetch⟩ := Checks.mapM_ok_mem hfetched hs
    obtain ⟨ds, -, hdecode⟩ := Checks.mapM_ok_mem hdecoded hbody
    exact ⟨ds, entries_ok.mpr ⟨body, hfetch, hdecode⟩⟩
  · intro h
    have hfetch : ∀ s ∈ m.overlapping after last, ∃ body, o.fetch s = .ok body := by
      intro s hs
      obtain ⟨es, hes⟩ := h s hs
      obtain ⟨body, hbody, -⟩ := entries_ok.mp hes
      exact ⟨body, hbody⟩
    obtain ⟨fetched, hfetched⟩ := Checks.mapM_ok_iff.mpr hfetch
    have hdecode : ∀ body ∈ fetched, ∃ es, o.decode body = .ok es := by
      intro body hbody
      obtain ⟨s, hs, hfetch⟩ := (Checks.mapM_ok hfetched).2.2 body hbody
      obtain ⟨es, hes⟩ := h s hs
      obtain ⟨body', hbody', hes⟩ := entries_ok.mp hes
      cases hfetch.symm.trans hbody'
      exact ⟨es, hes⟩
    obtain ⟨decoded, hdecoded⟩ := Checks.mapM_ok_iff.mpr hdecode
    exact ⟨_, wanted_ok.mpr ⟨fetched, hfetched, decoded, hdecoded, rfl⟩⟩

/-- The entries in the range, of every segment that overlaps it. -/
theorem mem_wanted {es : List LogEntry} (h : o.wanted m after last = .ok es) {s : LogSegmentRef}
    (hs : s ∈ m.overlapping after last) {ds : List α} (hds : o.entries s = .ok ds) {a : α}
    (ha : a ∈ ds) (hafter : after < (o.entry a).seq) (hlast : (o.entry a).seq ≤ last) :
    o.entry a ∈ es := by
  obtain ⟨fetched, hfetched, decoded, hdecoded, rfl⟩ := wanted_ok.mp h
  obtain ⟨body, hbody, hfetch⟩ := Checks.mapM_ok_mem hfetched hs
  obtain ⟨ds', hds', hdecode⟩ := Checks.mapM_ok_mem hdecoded hbody
  cases hds.symm.trans (entries_ok.mpr ⟨body, hfetch, hdecode⟩)
  refine mem_sortByKey.mpr (List.mem_filter.mpr ⟨?_, by simp [hafter, hlast]⟩)
  exact List.mem_map_of_mem (List.mem_flatten_of_mem hds' ha)

theorem of_mem_wanted {es : List LogEntry} (h : o.wanted m after last = .ok es) {e : LogEntry}
    (he : e ∈ es) : after < e.seq ∧ e.seq ≤ last ∧
      ∃ s ∈ m.overlapping after last, ∃ ds, o.entries s = .ok ds ∧ ∃ a ∈ ds, o.entry a = e := by
  obtain ⟨fetched, hfetched, decoded, hdecoded, rfl⟩ := wanted_ok.mp h
  obtain ⟨hmem, hrange⟩ := List.mem_filter.mp (mem_sortByKey.mp he)
  obtain ⟨a, ha, rfl⟩ := List.mem_map.mp hmem
  obtain ⟨ds, hds, ha⟩ := List.mem_flatten.mp ha
  obtain ⟨body, hbody, hdecode⟩ := (Checks.mapM_ok hdecoded).2.2 ds hds
  obtain ⟨s, hs, hfetch⟩ := (Checks.mapM_ok hfetched).2.2 body hbody
  simp only [Bool.and_eq_true, decide_eq_true_eq] at hrange
  exact ⟨hrange.1, hrange.2, s, hs, ds, entries_ok.mpr ⟨body, hfetch, hdecode⟩, a, ha, rfl⟩

end LogObjects

section Chars

variable [Text.CharTables]

namespace RefState

/-- Refs are written offline exactly if every transaction is valid. -/
theorem applyRefTxnsOffline_ok_iff {s : RefState} {ts : List RefTransaction} :
    (∃ r, s.applyRefTxnsOffline ts = .ok r) ↔ ∀ t ∈ ts, t.valid := by
  constructor
  · rintro ⟨r, h⟩ t ht
    obtain ⟨snapshot, hfold, -⟩ := Checks.bind_eq_ok.mp h
    refine List.all_eq_true.mpr fun u hu => ?_
    have hstep : ∀ (s : RefState) (u : RefUpdate), True →
        ((∃ s', offlineUpdate s u = .ok s') ↔ (validateRefUpdate u).isOk) := by
      intro s u _
      cases hv : validateRefUpdate u with
      | ok v =>
        have hok : (validateRefUpdate u).isOk := by simp [hv, Except.isOk, Except.toBool]
        simp [offlineUpdate_eq s hok, Except.isOk, Except.toBool]
      | error e => simp [offlineUpdate, hv, bind, Except.bind, Except.isOk, Except.toBool]
    have hall := (Checks.foldlM_ok (I := fun _ => True) (fun _ _ _ _ _ => trivial) hstep
      trivial).mp ⟨snapshot, hfold⟩
    exact hall u (List.mem_flatMap.mpr ⟨t, ht, hu⟩)
  · exact fun h => ⟨_, applyRefTxnsOffline_eq s h⟩

end RefState

/-- `apply_delta` behind the checkpoint: the replay, and the head it records. -/
def Copy.catchUp (c : Copy) (read : ℕ → ℕ → Option (List LogEntry)) (m : Manifest)
    (fault : Option Fault) : Copy × Bool :=
  let after := c.handle.state.appliedSeq
  let r := if after < m.headSeq then c.replayLog read after m.headSeq fault else (c, true)
  if !r.2 then r
  else
    (r.1.record ⟨m.headSeq, m.revision⟩ (fault ≠ some .save),
      fault ≠ some .save && fault ≠ some .refresh)

namespace LogObjects

variable {α : Type} (o : LogObjects α) (c : Copy) (m : Manifest) (fault : Option Fault)

/-- The local copy or the log stops the replay. -/
inductive Refused : Prop where
  | fetch (h : fault = some .fetch)
  | write (head : Bool) (h : fault = some (.replay head))
  | segment (s : LogSegmentRef) (hs : s ∈ m.overlapping c.handle.state.appliedSeq m.headSeq)
      (e : WalError) (h : o.entries s = .error e)
  | invalid (s : LogSegmentRef) (hs : s ∈ m.overlapping c.handle.state.appliedSeq m.headSeq)
      (es : List α) (h : o.entries s = .ok es) (a : α) (ha : a ∈ es)
      (hafter : c.handle.state.appliedSeq < (o.entry a).seq) (hlast : (o.entry a).seq ≤ m.headSeq)
      (t : RefTransaction) (ht : (o.entry a).refTxn = some t) (hinvalid : ¬t.valid)

/-- What was committed with a segment, and what its object still says of it: the frames may be cut
off, or more may follow them. -/
structure Holds (s : LogSegmentRef) (committed : List α) : Prop where
  sorted : committed.Pairwise fun a b => (o.entry a).seq < (o.entry b).seq
  last : committed.getLast?.map (fun a => (o.entry a).seq) = some s.lastSeq
  object : ∀ body, o.get s.key = .ok (.object body) →
    body <+: LogFrames.encodeEntries o.varint o.codec committed ∨
      LogFrames.encodeEntries o.varint o.codec committed <+: body

/-- A replay that lets the copy record the head has applied every committed entry on the way, and
a segment that falls short stops it. -/
structure NeverSkips (committed : LogSegmentRef → List α) : Prop where
  applied : (c.catchUp (o.read m) m fault).1.handle.state.appliedSeq = m.headSeq →
    ∃ es, o.wanted m c.handle.state.appliedSeq m.headSeq = .ok es ∧
      c.disk.refs.applyRefTxnsOffline (es.filterMap LogEntry.refTxn) =
        .ok (c.catchUp (o.read m) m fault).1.disk.refs ∧
      (c.catchUp (o.read m) m fault).1.handle.forge =
        c.handle.forge.map (fun s => s.foldEntries c.handle.state.appliedSeq es) ∧
      ∀ s ∈ m.overlapping c.handle.state.appliedSeq m.headSeq, ∀ a ∈ committed s,
        c.handle.state.appliedSeq < (o.entry a).seq → (o.entry a).seq ≤ m.headSeq → o.entry a ∈ es
  short : (∃ s ∈ m.overlapping c.handle.state.appliedSeq m.headSeq, o.Short s) →
    (c.catchUp (o.read m) m fault).2 = false ∧
      (c.catchUp (o.read m) m fault).1.handle.state.appliedSeq = c.handle.state.appliedSeq

variable {o c m fault} {committed : LogSegmentRef → List α}

section Runs

variable (hbehind : c.handle.state.appliedSeq < m.headSeq)
include hbehind

/-- A replay that is stopped leaves the position. -/
theorem catchUp_refused (h : o.Refused c m fault) :
    (c.catchUp (o.read m) m fault).2 = false ∧
      (c.catchUp (o.read m) m fault).1.handle.state = c.handle.state := by
  have hreplay : (c.replayLog (o.read m) c.handle.state.appliedSeq m.headSeq fault).2 = false ∧
      (c.replayLog (o.read m) c.handle.state.appliedSeq m.headSeq fault).1.handle =
        c.handle := by
    unfold Copy.replayLog
    cases hread : o.read m c.handle.state.appliedSeq m.headSeq with
    | none => exact ⟨rfl, rfl⟩
    | some es =>
      have hwanted := Checks.toOption_eq_some.mp hread
      simp only
      split_ifs with hfetch
      · exact ⟨rfl, rfl⟩
      · cases hrefs : c.disk.refs.applyRefTxnsOffline (es.filterMap LogEntry.refTxn) with
        | error e => exact ⟨rfl, rfl⟩
        | ok refs =>
          cases h with
          | fetch h => exact absurd h hfetch
          | write head h =>
            subst h
            exact ⟨rfl, rfl⟩
          | segment s hs e h =>
            obtain ⟨ds, hds⟩ := wanted_ok_iff.mp ⟨es, hwanted⟩ s hs
            cases h.symm.trans hds
          | invalid s hs ds h a ha hafter hlast t ht hinvalid =>
            have hmem := mem_wanted hwanted hs h ha hafter hlast
            have hvalid := RefState.applyRefTxnsOffline_ok_iff.mp ⟨refs, hrefs⟩ t
              (List.mem_filterMap.mpr ⟨_, hmem, ht⟩)
            exact absurd hvalid hinvalid
  simp only [Copy.catchUp, if_pos hbehind, hreplay.1, Bool.not_false, if_true, true_and]
  rw [hreplay.2]

/-- Any other replay applies what it read, and the copy records the head. -/
theorem catchUp_applied (h : ¬o.Refused c m fault) :
    ∃ es, o.wanted m c.handle.state.appliedSeq m.headSeq = .ok es ∧
      c.disk.refs.applyRefTxnsOffline (es.filterMap LogEntry.refTxn) =
        .ok (c.catchUp (o.read m) m fault).1.disk.refs ∧
      (c.catchUp (o.read m) m fault).1.handle.forge =
        c.handle.forge.map (fun s => s.foldEntries c.handle.state.appliedSeq es) ∧
      (c.catchUp (o.read m) m fault).1.handle.state.appliedSeq = m.headSeq := by
  have hentries : ∀ s ∈ m.overlapping c.handle.state.appliedSeq m.headSeq,
      ∃ es, o.entries s = .ok es := by
    intro s hs
    cases hes : o.entries s with
    | ok es => exact ⟨es, rfl⟩
    | error e => exact absurd (.segment s hs e hes) h
  obtain ⟨es, hwanted⟩ := wanted_ok_iff.mpr hentries
  have hvalid : ∀ t ∈ es.filterMap LogEntry.refTxn, t.valid := by
    intro t ht
    obtain ⟨e, he, ht⟩ := List.mem_filterMap.mp ht
    obtain ⟨hafter, hlast, s, hs, ds, hds, a, ha, rfl⟩ := of_mem_wanted hwanted he
    by_contra hinvalid
    exact h (.invalid s hs ds hds a ha hafter hlast t ht hinvalid)
  obtain ⟨refs, hrefs⟩ :=
    RefState.applyRefTxnsOffline_ok_iff (s := c.disk.refs) |>.mpr hvalid
  have hread : o.read m c.handle.state.appliedSeq m.headSeq = some es :=
    Checks.toOption_eq_some.mpr hwanted
  have hfetch : fault ≠ some .fetch := fun hf => h (.fetch hf)
  have hreplay : c.replayLog (o.read m) c.handle.state.appliedSeq m.headSeq fault =
      ((c.setRefs refs).setForge (c.handle.forge.map fun s =>
        s.foldEntries c.handle.state.appliedSeq es), true) := by
    simp only [Copy.replayLog, hread, hrefs, if_neg hfetch]
    split
    · rename_i head
      exact absurd (.write head rfl) h
    · rfl
  refine ⟨es, hwanted, ?_⟩
  simp only [Copy.catchUp, if_pos hbehind, hreplay, Bool.not_true, Bool.false_eq_true, if_false]
  exact ⟨hrefs, rfl, rfl⟩

end Runs

omit [Text.CharTables] in
/-- An object whose entries reach the end of its segment holds all that was committed with it. -/
theorem Holds.mem {s : LogSegmentRef} {es : List α} (h : o.Holds s (committed s))
    (hes : o.entries s = .ok es) (hreach : ¬o.Short s) {a : α} (ha : a ∈ committed s) :
    a ∈ es := by
  obtain ⟨body, hbody, hdecode⟩ := entries_ok.mp hes
  obtain ⟨e, he, hlast⟩ : ∃ e ∈ es, s.lastSeq ≤ (o.entry e).seq := by
    by_contra hnone
    exact hreach ⟨es, hes, fun e he => not_le.mp fun hle => hnone ⟨e, he, hle⟩⟩
  cases body with
  | none =>
    cases hdecode
    cases he
  | some body =>
    have hget : o.get s.key = .ok (.object body) := by
      unfold fetch at hbody
      cases hg : o.get s.key with
      | error x => simp [hg, bind, Except.bind] at hbody
      | ok r => cases r <;> simp_all [bind, Except.bind, pure, Except.pure]
    obtain ⟨n, hdecoded⟩ :
        ∃ n, LogFrames.decodeEntries o.varint o.codec body = some (.ok (es, n)) := by
      cases hd : LogFrames.decoded o.varint o.codec body with
      | error e => simp [decode, hd] at hdecode
      | ok p =>
        simp only [decode, hd, Except.ok.injEq] at hdecode
        exact ⟨p.2, hdecode ▸ LogFrames.decoded_iff.mp hd⟩
    rcases h.object body hget with hcut | hmore
    · rcases Nat.lt_or_ge body.length
        (LogFrames.encodeEntries o.varint o.codec (committed s)).length with hlt | hge
      · obtain ⟨done, e', later, hcommitted, -, -, hdone⟩ :=
          LogFrames.decodeEntries_take o.varint o.codec (committed s) hlt
        rw [← List.prefix_iff_eq_take.mp hcut, hdecoded] at hdone
        cases hdone
        -- The last committed entry is among those that are cut off.
        have hsorted := h.sorted
        have hend := h.last
        rw [hcommitted] at hsorted hend
        rw [List.getLast?_append_of_ne_nil _ (List.cons_ne_nil e' later),
          List.getLast?_eq_some_getLast (List.cons_ne_nil e' later)] at hend
        have hbelow := (List.pairwise_append.mp hsorted).2.2 e he _
          (List.getLast_mem (List.cons_ne_nil e' later))
        simp only [Option.map_some, Option.some.injEq] at hend
        omega
      · rw [hcut.eq_of_length_le hge, LogFrames.decodeEntries_encodeEntries] at hdecoded
        cases hdecoded
        exact ha
    · exact (LogFrames.decodeEntries_prefix hmore hdecoded).subset ha

/-- Replays never skip exactly as long as every segment they read reaches its end, unless they
are stopped for another reason. -/
theorem neverSkips_iff (hbehind : c.handle.state.appliedSeq < m.headSeq)
    (hcommitted : ∀ s ∈ m.logSegments, o.Holds s (committed s)) :
    o.NeverSkips c m fault committed ↔ o.Refused c m fault ∨
      ∀ s ∈ m.overlapping c.handle.state.appliedSeq m.headSeq, ¬o.Short s := by
  constructor
  · intro h
    by_cases hrefused : o.Refused c m fault
    · exact Or.inl hrefused
    · refine Or.inr fun s hs hshort => ?_
      obtain ⟨es, -, -, -, hhead⟩ := catchUp_applied hbehind hrefused
      have hkept := (h.short ⟨s, hs, hshort⟩).2
      omega
  · rintro (hrefused | hreach)
    · obtain ⟨hfailed, hstate⟩ := catchUp_refused hbehind hrefused
      refine ⟨fun hhead => ?_, fun _ => ⟨hfailed, by rw [hstate]⟩⟩
      rw [hstate] at hhead
      omega
    · refine ⟨fun hhead => ?_, fun ⟨s, hs, hshort⟩ => absurd hshort (hreach s hs)⟩
      by_cases hrefused : o.Refused c m fault
      · rw [(catchUp_refused hbehind hrefused).2] at hhead
        omega
      · obtain ⟨es, hwanted, hrefs, hforge, -⟩ := catchUp_applied hbehind hrefused
        refine ⟨es, hwanted, hrefs, hforge, fun s hs a ha hafter hlast => ?_⟩
        obtain ⟨ds, hds⟩ := wanted_ok_iff.mp ⟨es, hwanted⟩ s hs
        have hmem := (hcommitted s (List.mem_of_mem_filter hs)).mem hds (hreach s hs) ha
        exact mem_wanted hwanted hs hds hmem hafter hlast

end LogObjects

end Chars

namespace LogObjects

variable {α : Type} {o : LogObjects α} {w : World} {m : Manifest}

/-- Two readers that agree on every segment. -/
theorem mapM_fetchSegment {segments : List LogSegmentRef}
    (h : ∀ s ∈ segments, ∃ es, o.entries s = .ok es ∧
      w.fetchSegment s = some (es.map o.entry)) :
    ∃ fetched decoded, segments.mapM o.fetch = .ok fetched ∧
      fetched.mapM o.decode = .ok decoded ∧
      segments.mapM w.fetchSegment = some (decoded.map fun es => es.map o.entry) := by
  induction segments with
  | nil => exact ⟨[], [], rfl, rfl, rfl⟩
  | cons s segments ih =>
    rw [List.forall_mem_cons] at h
    obtain ⟨⟨es, hes, hstore⟩, hrest⟩ := h
    obtain ⟨body, hfetch, hdecode⟩ := entries_ok.mp hes
    obtain ⟨fetched, decoded, hfetched, hdecoded, hstored⟩ := ih hrest
    refine ⟨body :: fetched, es :: decoded, ?_, ?_, ?_⟩
    · simp only [List.mapM_cons, hfetch, hfetched, bind, Except.bind, pure, Except.pure]
    · simp only [List.mapM_cons, hdecode, hdecoded, bind, Except.bind, pure, Except.pure]
    · simp only [List.mapM_cons, hstore, hstored, List.map_cons, bind, Option.bind, pure]

/-- Where every object holds whole frames, its bytes are read as the entries of a store. -/
theorem read_eq_readLog (h : ∀ s ∈ m.logSegments, ∃ es,
      o.get s.key = .ok (.object (LogFrames.encodeEntries o.varint o.codec es)) ∧
        w.fetchSegment s = some (es.map o.entry)) (after last : ℕ) :
    o.read m after last = w.readLog m after last := by
  have hentries : ∀ s ∈ m.overlapping after last, ∃ es, o.entries s = .ok es ∧
      w.fetchSegment s = some (es.map o.entry) := by
    intro s hs
    obtain ⟨es, hget, hstore⟩ := h s (List.mem_of_mem_filter hs)
    have hdecoded := LogFrames.decoded_iff.mpr
      (LogFrames.decodeEntries_encodeEntries o.varint o.codec es)
    have hfetch : o.fetch s = .ok (some (LogFrames.encodeEntries o.varint o.codec es)) := by
      simp only [fetch, hget, bind, Except.bind, pure, Except.pure]
    exact ⟨es, entries_ok.mpr ⟨_, hfetch, by simp only [decode, hdecoded]⟩, hstore⟩
  obtain ⟨fetched, decoded, hfetched, hdecoded, hstored⟩ := mapM_fetchSegment hentries
  have hwanted := wanted_ok.mpr ⟨fetched, hfetched, decoded, hdecoded, rfl⟩
  rw [Manifest.overlapping] at hstored
  rw [read, hwanted, World.readLog, hstored, List.map_flatten]
  rfl

section Runs

attribute [local instance] Text.asciiTables

/-- A store with one object, whose messages are the numbers of pushes. -/
def pushes (body : List UInt8) : LogObjects UInt64 where
  varint := Wire.leb128
  codec := LogFrames.bareEntries
  entry n := { seq := n.toNat, kind := .push }
  get _ := .ok (.object body)

/-- Two pushes in one segment. -/
def twoPushes : Manifest where
  headSeq := 2
  minSeq := 1
  logSegments := [⟨.log 1, 1, 2, 6, true⟩]

def blankCopy : Copy := ⟨.init, ⟨0, {}, none, ⟨0, 0⟩, none⟩⟩

theorem pushes_holds {body : List UInt8} (h : body <+: [2, 8, 1, 2, 8, 2]) :
    ∀ s ∈ twoPushes.logSegments, (pushes body).Holds s [1, 2] := by
  intro s hs
  cases List.mem_singleton.mp hs
  have hframes : LogFrames.encodeEntries Wire.leb128 LogFrames.bareEntries [1, 2] =
      [2, 8, 1, 2, 8, 2] := by decide
  refine ⟨List.pairwise_pair.mpr (Nat.lt_succ_self 1), by rfl, fun _ hbody => Or.inl ?_⟩
  cases hbody
  exact hframes ▸ h

/-- Both frames are there. -/
theorem neverSkips_whole :
    (pushes [2, 8, 1, 2, 8, 2]).NeverSkips blankCopy twoPushes none fun _ => [1, 2] := by
  refine (neverSkips_iff (by decide) (pushes_holds List.prefix_rfl)).mpr (Or.inr fun s hs => ?_)
  rintro ⟨es, hes, hshort⟩
  cases List.mem_singleton.mp (List.mem_of_mem_filter hs)
  have hwhole : (pushes [2, 8, 1, 2, 8, 2]).entries ⟨.log 1, 1, 2, 6, true⟩ = .ok [1, 2] := by rfl
  cases hes.symm.trans hwhole
  exact absurd (hshort 2 (by decide)) (by decide)

/-- The second frame is cut off: the copy records the head without the second push. -/
theorem neverSkips_torn :
    (∀ s ∈ twoPushes.logSegments, (pushes [2, 8, 1, 2, 8]).Holds s [1, 2]) ∧
      ¬(pushes [2, 8, 1, 2, 8]).NeverSkips blankCopy twoPushes none fun _ => [1, 2] := by
  refine ⟨pushes_holds (by decide), fun h => ?_⟩
  have htorn : (pushes [2, 8, 1, 2, 8]).entries ⟨.log 1, 1, 2, 6, true⟩ = .ok [1] := by rfl
  have hbelow : ∀ a ∈ [(1 : UInt64)], ((pushes [2, 8, 1, 2, 8]).entry a).seq < 2 :=
    List.forall_mem_singleton.mpr (by decide)
  have hfailed := (h.short ⟨⟨.log 1, 1, 2, 6, true⟩, by decide, [1], htorn, hbelow⟩).1
  exact absurd hfailed (by decide)

end Runs

end LogObjects

end Walgit
