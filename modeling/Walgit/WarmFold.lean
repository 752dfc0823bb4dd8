import Walgit.ForgeInvariant

/-!
# The publisher's own fold

`process_batch` builds its entries again once the slot is claimed and folds that second
build into its forge state and its newest entry time. The builds read the clock
separately, so they agree only as far as the reads do.
-/
namespace Walgit

open ForgeState (ofLog)

/-- The entry without the mark that makes its segment unique. -/
def LogEntry.dropNonce (e : LogEntry) : LogEntry :=
  { e with metadata := e.metadata.erase publicationNonce }

theorem dropNonce_withNonce (uuid : String) (es : List LogEntry) :
    (withNonce uuid es).map LogEntry.dropNonce = es.map LogEntry.dropNonce := by
  cases es with
  | nil => rfl
  | cons e es =>
    simp only [withNonce, List.map_cons, List.cons.injEq, and_true, LogEntry.dropNonce,
      LogEntry.mk.injEq, true_and]
    refine SortedMap.ext_find? fun k => ?_
    simp only [SortedMap.find?_erase, SortedMap.find?_insert]
    split_ifs <;> rfl

theorem foldl_dropNonce {σ : Type} {f : σ → LogEntry → σ} (h : ∀ s e, f s e.dropNonce = f s e)
    (s : σ) (es : List LogEntry) : (es.map LogEntry.dropNonce).foldl f s = es.foldl f s := by
  rw [List.foldl_map]
  exact congrArg (fun g => es.foldl g s) (funext fun s => funext fun e => h s e)

/-- Two builds at one slot differ exactly where a request leaves its time to the clock. -/
theorem buildEntries_eq_iff {writer : String} {publishedAt : Timestamp} {c c' : ℕ → Timestamp}
    {seq : ℕ} {members : List (PublishRequest × List ForgeEvent)} :
    (buildEntries writer publishedAt c seq members).map LogEntry.dropNonce =
        (buildEntries writer publishedAt c' seq members).map LogEntry.dropNonce ↔
      ∀ k m, members[k]? = some m → m.1.createdAt = none → c (seq + k) = c' (seq + k) := by
  constructor
  · intro h k m hm hnone
    have hk := congrArg (fun l => l[k]?.map LogEntry.createdAt) h
    simpa [buildEntries_getElem?, hm, buildEntry, hnone, LogEntry.dropNonce] using hk
  · intro h
    refine List.ext_getElem? fun k => ?_
    rw [List.getElem?_map, List.getElem?_map, buildEntries_getElem?, buildEntries_getElem?]
    cases hm : members[k]? with
    | none => rfl
    | some m =>
      cases hcreated : m.1.createdAt with
      | none => rw [h k m hm hcreated]
      | some ts => simp [buildEntry, hcreated]

section Fold

variable [Text.CharTables]

/-- What one publisher folds when it commits a batch: a build with its own clock reads. -/
def Origin.rebuilt (o : Origin) (reqs : List PublishRequest) (clock : ℕ → Timestamp) :
    List LogEntry :=
  buildEntries o.attempt.writer o.attempt.startedAt clock o.slot.firstSeq
    (accepted reqs (verifyBatch o.attempt.basis reqs).1)

/-- The entries a warm publisher has folded; `reads` gives the clock reads of the second build
for the batches it committed itself, the others it reads from the log. -/
def foldedEntries (reads : ℕ → Option (ℕ → Timestamp)) : List Generation → List LogEntry
  | [] => []
  | g :: gens => foldedEntries reads gens ++
      match g.origin with
      | none => []
      | some o =>
        match o.job, reads g.version with
        | .batch reqs, some clock => o.rebuilt reqs clock
        | _, _ => o.slot.bytes

/-- Two lists of entries a publisher cannot tell apart, nor anyone its state. -/
structure SameFold (es fs : List LogEntry) : Prop where
  entries : es.map LogEntry.dropNonce = fs.map LogEntry.dropNonce
  forge : ofLog es = ofLog fs
  refs : foldRefs .fresh es = foldRefs .fresh fs
  lastEntryTime : es.foldl noteEntryTime none = fs.foldl noteEntryTime none

/-- No fold reads the mark. -/
theorem sameFold_iff {es fs : List LogEntry} :
    SameFold es fs ↔ es.map LogEntry.dropNonce = fs.map LogEntry.dropNonce := by
  refine ⟨SameFold.entries, fun h => ⟨h, ?_, ?_, ?_⟩⟩
  · have hfold := foldl_dropNonce (f := ForgeState.foldEntry) (fun _ _ => rfl) ForgeState.empty
    rw [ofLog, ofLog, ← hfold, h, hfold]
  · have htxns : ∀ es : List LogEntry,
        es.filterMap LogEntry.txn = (es.map LogEntry.dropNonce).filterMap LogEntry.txn := by
      intro es
      rw [List.filterMap_map]
      rfl
    rw [foldRefs, foldRefs, htxns, h, ← htxns]
  · have hfold := foldl_dropNonce (f := noteEntryTime) (fun _ _ => rfl) none
    rw [← hfold, h, hfold]

/-- The durable entry of each accepted request without a time of its own has the time that the
second build reads. -/
def Origin.TimesAgree (o : Origin) (reqs : List PublishRequest) (clock : ℕ → Timestamp) : Prop :=
  ∀ k m e, (accepted reqs (verifyBatch o.attempt.basis reqs).1)[k]? = some m →
    m.1.createdAt = none → o.slot.bytes[k]? = some e →
      e.createdAt = some (clock (o.slot.firstSeq + k))

theorem Origin.Wrote.rebuilt_iff {o : Origin} (h : o.Wrote) {reqs : List PublishRequest}
    (hjob : o.job = .batch reqs) (clock : ℕ → Timestamp) :
    (o.rebuilt reqs clock).map LogEntry.dropNonce = o.slot.bytes.map LogEntry.dropNonce ↔
      o.TimesAgree reqs clock := by
  obtain ⟨written, es, hes, -, hbytes⟩ := h
  rw [hjob] at hes
  cases hes
  rw [hbytes, dropNonce_withNonce, Origin.rebuilt, buildEntries_eq_iff]
  have htime : ∀ k m e, (accepted reqs (verifyBatch o.attempt.basis reqs).1)[k]? = some m →
      m.1.createdAt = none → o.slot.bytes[k]? = some e →
        e.createdAt = some (written (o.slot.firstSeq + k)) := by
    intro k m e hm hnone he
    rw [hbytes, withNonce_getElem?_map, buildEntries_getElem?, hm, Option.map_some,
      Option.map_some, Option.some.injEq] at he
    subst he
    split_ifs <;> simp [buildEntry, hnone]
  constructor
  · intro hsame k m e hm hnone he
    rw [htime k m e hm hnone he, hsame k m hm hnone]
  · intro hagree k m hm hnone
    have hlength : k < o.slot.bytes.length := by
      rw [hbytes, withNonce_length, buildEntries_length]
      exact (List.getElem?_eq_some_iff.mp hm).1
    have he := List.getElem?_eq_getElem hlength
    have heq := (hagree k m _ hm hnone he).symm.trans (htime k m _ hm hnone he)
    exact Option.some.inj heq

theorem Origin.Wrote.rebuilt_length {o : Origin} (h : o.Wrote) {reqs : List PublishRequest}
    (hjob : o.job = .batch reqs) (clock : ℕ → Timestamp) :
    (o.rebuilt reqs clock).length = o.slot.bytes.length := by
  obtain ⟨written, es, hes, -, hbytes⟩ := h
  rw [hjob] at hes
  cases hes
  simp [hbytes, Origin.rebuilt]

/-- Every batch the publisher committed itself was folded with the times it made durable. -/
def ReadsAgree (reads : ℕ → Option (ℕ → Timestamp)) (gens : List Generation) : Prop :=
  ∀ g ∈ gens, ∀ o ∈ g.origin, ∀ reqs clock, o.job = .batch reqs → reads g.version = some clock →
    o.TimesAgree reqs clock

theorem readsAgree_cons {reads : ℕ → Option (ℕ → Timestamp)} {g : Generation}
    {gens : List Generation} : ReadsAgree reads (g :: gens) ↔ ReadsAgree reads [g] ∧
      ReadsAgree reads gens := by
  simp [ReadsAgree]

theorem foldedEntries_rewrite (reads : ℕ → Option (ℕ → Timestamp)) (m : Manifest) (version : ℕ)
    (gens : List Generation) :
    foldedEntries reads (⟨m, version, none⟩ :: gens) = foldedEntries reads gens :=
  List.append_nil _

/-- What a commit adds to the fold, and when it is what it added to the log. -/
theorem foldedEntries_append {o : Origin} (h : o.Wrote) (reads : ℕ → Option (ℕ → Timestamp))
    (m : Manifest) (version : ℕ) (gens : List Generation) :
    ∃ es, foldedEntries reads (⟨m, version, some o⟩ :: gens) = foldedEntries reads gens ++ es ∧
      es.length = o.slot.bytes.length ∧
      (es.map LogEntry.dropNonce = o.slot.bytes.map LogEntry.dropNonce ↔
        ReadsAgree reads [⟨m, version, some o⟩]) := by
  by_cases hown : ∃ reqs clock, o.job = .batch reqs ∧ reads version = some clock
  · obtain ⟨reqs, clock, hjob, hclock⟩ := hown
    refine ⟨o.rebuilt reqs clock, ?_, h.rebuilt_length hjob clock, ?_⟩
    · simp only [foldedEntries, hjob, hclock]
    · rw [h.rebuilt_iff hjob clock]
      simp [ReadsAgree, hjob, hclock]
  · refine ⟨o.slot.bytes, ?_, rfl, iff_of_true rfl fun g hg o' ho' reqs clock hjob hclock => ?_⟩
    · simp only [foldedEntries]
      split
      · rename_i hjob hclock
        exact absurd ⟨_, _, hjob, hclock⟩ hown
      · rfl
    · rw [List.mem_singleton.mp hg] at ho' hclock
      cases ho'
      exact absurd ⟨reqs, clock, hjob, hclock⟩ hown

theorem Chain.foldedEntries_eq_iff {cfg : Config} {gens : List Generation} (h : Chain cfg gens)
    (reads : ℕ → Option (ℕ → Timestamp)) :
    (foldedEntries reads gens).length = (committedEntries gens).length ∧
      ((foldedEntries reads gens).map LogEntry.dropNonce =
        (committedEntries gens).map LogEntry.dropNonce ↔ ReadsAgree reads gens) := by
  induction h with
  | created access now writer version =>
    exact ⟨rfl, iff_of_true rfl fun g hg o ho => by simp [List.mem_singleton.mp hg] at ho⟩
  | append older o now m version basis wrote burned edit newer ih =>
    obtain ⟨es, hfolded, hlength, hsame⟩ := foldedEntries_append wrote reads m version (_ :: _)
    rw [hfolded, committedEntries, List.length_append, List.length_append, List.map_append,
      List.map_append, readsAgree_cons, ← hsame, ← ih.2, hlength, ih.1]
    refine ⟨rfl, fun heq => ?_, fun hboth => ?_⟩
    · exact (List.append_inj heq (by simp [ih.1])).symm
    · rw [hboth.1, hboth.2]
      rfl
  | rewrite older job policy writer now m version edit folded newer ih =>
    rw [foldedEntries_rewrite, committedEntries, readsAgree_cons]
    simp only [Option.map_none, Option.getD_none, List.append_nil]
    refine ⟨ih.1, ih.2.trans ⟨fun hold => ⟨fun g hg o ho => ?_, hold⟩, And.right⟩⟩
    simp [List.mem_singleton.mp hg] at ho

/-- A warm publisher has folded what the log holds, and has the forge state, the refs and the
newest entry time that a replay of the log gives, exactly if its second builds read the
times it made durable. -/
theorem warm_fold_durable_iff {cfg : Config} {access : Option RepoAccess} {now : Timestamp}
    {writer : String} {w : World} {actions : List Action}
    (hrun : Runs.run (step cfg) (World.created (createdManifest access now writer)) actions =
      some w) (reads : ℕ → Option (ℕ → Timestamp)) :
    SameFold (foldedEntries reads w.gens) (committedEntries w.gens) ↔ ReadsAgree reads w.gens := by
  rw [sameFold_iff]
  exact ((inv_run hrun).chain.foldedEntries_eq_iff reads).2

end Fold

section Clock

attribute [local instance] Text.asciiTables

/-- One issue is opened; the segment is built at second 2. -/
def openIssue : List Action :=
  forgeBatch 1 "a" (createdManifest (some sharedAccess) ⟨1, 0⟩ "w") 0 .empty
    [forgeRequest 0 (.opened ⟨.issue, "crash", "on start", [], [], "", "", "", "", false⟩)]

/-- The second build reads the clock within the same second and nanosecond. -/
theorem warm_fold_durable_instant :
    ∃ w : World, (committedEntries w.gens).length = 1 ∧
      SameFold (foldedEntries (fun _ => some fun _ => ⟨2, 0⟩) w.gens) (committedEntries w.gens) := by
  have hsome : ((Runs.run (step ⟨3, List.length⟩)
      (World.created (createdManifest (some sharedAccess) ⟨1, 0⟩ "w")) openIssue).map fun w =>
        ((committedEntries w.gens).length, w.gens.map fun g => g.origin.map fun o =>
          o.slot.bytes.map LogEntry.createdAt)) = some (1, [some [some ⟨2, 0⟩], none]) := by
    decide
  obtain ⟨w, hrun, heq⟩ := Option.map_eq_some_iff.mp hsome
  obtain ⟨hlength, hgens⟩ := Prod.mk.inj heq
  refine ⟨w, hlength, (warm_fold_durable_iff hrun _).mpr fun g hg o ho reqs clock _ hclock => ?_⟩
  intro k m e _ _ he
  have htimes : g.origin.map (fun o => o.slot.bytes.map LogEntry.createdAt) ∈
      [some [some ⟨2, 0⟩], none] := hgens ▸ List.mem_map_of_mem hg
  have htime : e.createdAt ∈ o.slot.bytes.map LogEntry.createdAt :=
    List.mem_map_of_mem (List.mem_of_getElem? he)
  rw [Option.mem_def.mp ho, Option.map_some] at htimes
  simp only [List.mem_cons, Option.some.injEq, reduceCtorEq, List.not_mem_nil, or_false] at htimes
  rw [htimes, List.mem_singleton] at htime
  rw [htime, ← Option.some.inj hclock]

/-- A second later the issue has another time in the publisher's state than in the log. -/
theorem warm_fold_not_durable :
    ∃ w : World, Runs.run (step ⟨3, List.length⟩)
        (World.created (createdManifest (some sharedAccess) ⟨1, 0⟩ "w")) openIssue = some w ∧
      ofLog (foldedEntries (fun _ => some fun _ => ⟨3, 0⟩) w.gens) ≠
        ofLog (committedEntries w.gens) := by
  have hsome : ((Runs.run (step ⟨3, List.length⟩)
      (World.created (createdManifest (some sharedAccess) ⟨1, 0⟩ "w")) openIssue).map fun w =>
        decide (ofLog (foldedEntries (fun _ => some fun _ => ⟨3, 0⟩) w.gens) =
          ofLog (committedEntries w.gens))) = some false := by decide
  obtain ⟨w, hrun, hne⟩ := Option.map_eq_some_iff.mp hsome
  exact ⟨w, hrun, of_decide_eq_false hne⟩

end Clock

end Walgit
