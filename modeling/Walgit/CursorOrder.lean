import Walgit.Deliveries

/-!
# The order of the cursor

The durable cursor only moves forward as long as no call reads it when it is already past the
head that the call has seen.
-/
namespace Walgit.Bridges

/-- The cursor that a call reads is not past the head of the manifest it holds. -/
def inOrder (s : Bridges) : BridgeEvent → Bool
  | .locate k =>
    match s.calls k with
    | some (.opened m) => s.cursor.all fun c => c.1 ≤ m.headSeq
    | _ => true
  | _ => true

/-- The published number is there and has not become smaller. -/
def NotBehind (s t : Bridges) : Prop := ∀ c ∈ s.cursor, ∃ c' ∈ t.cursor, c.1 ≤ c'.1

/-- The subtraction of the start of a call from its head is not negative. -/
def NoUnderflow (s : Bridges) : Prop :=
  ∀ k head start cursor, s.calls k = some (.located head start cursor) → start ≤ head

/-- In all of a run the cursor moves forward and no subtraction is negative. -/
structure Forward (step : Bridges → BridgeEvent → Option Bridges) (init : Bridges)
    (events : List BridgeEvent) : Prop where
  cursor : ∀ as bs s t, as ++ bs <+: events → Runs.run step init as = some s →
    Runs.run step s bs = some t → s.NotBehind t
  lag : ∀ as s, as <+: events → Runs.run step init as = some s → s.NoUnderflow

/-- What a call has read of the cursor, against the head it will write. -/
def CallOrdered (s : Bridges) : CatchUp → Prop
  | .opened m => ∃ g ∈ s.world.gens, g.manifest = m
  | .located head start cursor =>
    start ≤ head ∧ s.Known cursor ∧ ∀ c ∈ cursor, c.1 ≤ head
  | .delivering head _ cursor _ _ => s.Known cursor ∧ ∀ c ∈ cursor, c.1 ≤ head

theorem NotBehind.refl (s : Bridges) : s.NotBehind s := fun c hc => ⟨c, hc, Nat.le_refl _⟩

theorem NotBehind.trans {s t u : Bridges} (h : s.NotBehind t) (h' : t.NotBehind u) :
    s.NotBehind u := by
  intro c hc
  obtain ⟨c', hc', hle⟩ := h c hc
  obtain ⟨c'', hc'', hle'⟩ := h' c' hc'
  exact ⟨c'', hc'', Nat.le_trans hle hle'⟩

section Proofs

variable [Text.CharTables] {cfg : Config} {repo : String} {sinks : List ℕ} {s s' : Bridges}

structure Ordered (cfg : Config) (s : Bridges) : Prop where
  world : Walgit.Inv cfg s.world
  versions : ∀ c ∈ s.cursor, c.2 < s.nextVersion
  calls : ∀ k call, s.calls k = some call → s.CallOrdered call

theorem Ordered.noUnderflow (h : Ordered cfg s) : s.NoUnderflow :=
  fun k _ _ _ hk => (h.calls k _ hk).1

omit [Text.CharTables] in
theorem Extends.callOrdered (h : s.Extends s') {call : CatchUp} (hc : s.CallOrdered call) :
    s'.CallOrdered call := by
  cases call with
  | opened m =>
    obtain ⟨g, hg, hm⟩ := hc
    exact ⟨g, h.grows.gens hg, hm⟩
  | located head start cursor => exact ⟨hc.1, h.known hc.2.1, hc.2.2⟩
  | delivering head start cursor batch pending => exact ⟨h.known hc.1, hc.2⟩

/-- A step that leaves the cursor alone. -/
theorem Ordered.extend (h : Ordered cfg s) (hext : s.Extends s')
    (hworld : Walgit.Inv cfg s'.world) (hcursor : s'.cursor = s.cursor)
    (hcalls : ∀ k call, s'.calls k = some call → s.calls k = some call ∨
      s'.CallOrdered call) : Ordered cfg s' ∧ s.NotBehind s' := by
  refine ⟨⟨hworld, fun c hc => ?_, fun k call hk => ?_⟩, fun c hc => ⟨c, hcursor ▸ hc, le_rfl⟩⟩
  · exact (h.versions c (hcursor ▸ hc)).trans_le hext.versions
  · rcases hcalls k call hk with hold | hnew
    · exact hext.callOrdered (h.calls k call hold)
    · exact hnew

theorem Ordered.setCall (h : Ordered cfg s) (k : ℕ) (call : Option CatchUp)
    (hcall : ∀ c, call = some c → s.CallOrdered c) :
    Ordered cfg (s.setCall k call) ∧ s.NotBehind (s.setCall k call) := by
  have hext := extends_setCall s k call
  refine h.extend hext h.world rfl fun k' c hc => ?_
  simp only [Bridges.setCall, Function.update_apply] at hc
  split_ifs at hc
  · exact Or.inr (hext.callOrdered (hcall c hc))
  · exact Or.inl hc

/-- What is folded away ends at or below the head. -/
theorem readable_le_head {w : World} (h : Walgit.Inv cfg w) {m : Manifest}
    (hm : ∃ g ∈ w.gens, g.manifest = m) : m.minSeq - 1 ≤ m.headSeq := by
  obtain ⟨g, hg, rfl⟩ := hm
  obtain ⟨newer, older, hsplit⟩ := List.append_of_mem hg
  have hspec := (h.chain.suffix ⟨newer, hsplit.symm⟩).logSpec
  have hle := hspec.checkpoint_le_head
  have hmin := hspec.minSeq
  split_ifs at hmin <;> omega

omit [Text.CharTables] in
/-- Where a call starts that reads the cursor in order. -/
theorem start_le_head {m : Manifest} (hreadable : m.minSeq - 1 ≤ m.headSeq)
    (hok : ∀ c ∈ s.cursor, c.1 ≤ m.headSeq) :
    (s.cursor.map Prod.fst).getD (m.minSeq - 1) ≤ m.headSeq := by
  cases hcursor : s.cursor with
  | none => exact hreadable
  | some c => exact hok c hcursor

theorem Ordered.locate (h : Ordered cfg s) {k : ℕ} {m : Manifest}
    (hm : ∃ g ∈ s.world.gens, g.manifest = m) (hok : ∀ c ∈ s.cursor, c.1 ≤ m.headSeq) :
    Ordered cfg (s.locate k m) ∧ s.NotBehind (s.locate k m) := by
  have hreadable := readable_le_head h.world hm
  have hstart := start_le_head hreadable hok
  have hknown : s.Known s.cursor := by
    intro c v hc
    refine ⟨h.versions (c, v) hc, fun c' hc' => ?_⟩
    rw [hc] at hc'
    exact (congrArg Prod.fst (Option.some.inj hc')).symm
  unfold Bridges.locate
  dsimp only
  split_ifs with hgap
  · obtain ⟨hset, -⟩ := h.setCall k
      (some (.located m.headSeq (m.minSeq - 1) s.cursor)) fun call hcall => by
        rw [← Option.some.inj hcall]
        exact ⟨hreadable, hknown, hok⟩
    exact ⟨⟨hset.world, hset.versions, hset.calls⟩, fun c hc => ⟨c, hc, le_rfl⟩⟩
  · refine h.setCall k _ fun call hcall => ?_
    rw [← Option.some.inj hcall]
    exact ⟨hstart, hknown, hok⟩

/-- What is read of the log does not change what the call knows of the cursor. -/
theorem Ordered.readLog (h : Ordered cfg s) {k head start : ℕ} {cursor : Option (ℕ × ℕ)}
    (hcall : s.CallOrdered (.located head start cursor))
    (hstep : s.readLog repo sinks k head start cursor = some s') :
    Ordered cfg s' ∧ s.NotBehind s' := by
  have hnext (batch : List RefEvent) (pending : List ℕ) :
      Ordered cfg (s.setCall k (some (.delivering head start cursor batch pending))) ∧
        s.NotBehind (s.setCall k (some (.delivering head start cursor batch pending))) := by
    refine h.setCall k _ fun call heq => ?_
    rw [← Option.some.inj heq]
    exact hcall.2
  unfold Bridges.readLog at hstep
  split_ifs at hstep
  · obtain ⟨⟨m, v⟩, -, hstep⟩ := Option.bind_eq_some_iff.mp hstep
    dsimp only at hstep
    split at hstep
    · cases hstep
      exact h.setCall k _ fun call heq => by cases heq
    · cases hstep
      exact hnext _ _
  · cases hstep
    exact hnext _ _

theorem Ordered.deliver (h : Ordered cfg s) {k head start sink : ℕ}
    {cursor : Option (ℕ × ℕ)} {batch : List RefEvent} {pending : List ℕ}
    (hcall : s.CallOrdered (.delivering head start cursor batch (sink :: pending)))
    (accepted : Bool) (delivered : List (ℕ × RefEvent)) :
    Ordered cfg { s.setCall k (if accepted then
        some (.delivering head start cursor batch pending) else none) with
      delivered := delivered } ∧
    s.NotBehind { s.setCall k (if accepted then
        some (.delivering head start cursor batch pending) else none) with
      delivered := delivered } := by
  obtain ⟨hset, hbehind⟩ := h.setCall k (if accepted then
      some (.delivering head start cursor batch pending) else none) fun call heq => by
    split_ifs at heq
    rw [← Option.some.inj heq]
    exact hcall
  exact ⟨⟨hset.world, hset.versions, hset.calls⟩, hbehind⟩

/-- The write succeeds only on the version that was read, whose number is not past the head. -/
theorem Ordered.put (h : Ordered cfg s) {k head start : ℕ} {cursor : Option (ℕ × ℕ)}
    {batch : List RefEvent} {pending : List ℕ}
    (hcall : s.CallOrdered (.delivering head start cursor batch pending)) (arrives : Bool) :
    Ordered cfg (s.put k head start cursor arrives) ∧
      s.NotBehind (s.put k head start cursor arrives) := by
  have hdone := h.setCall k none fun call heq => by cases heq
  obtain ⟨hknown, hhead⟩ := hcall
  unfold Bridges.put
  by_cases hsame : cursor.map Prod.fst = some head
  · rw [if_pos hsame]
    exact hdone
  rw [if_neg hsame]
  by_cases hwrite : (arrives && s.cursor.map Prod.snd = cursor.map Prod.snd) = true
  · rw [if_pos hwrite]
    simp only [Bool.and_eq_true, decide_eq_true_eq] at hwrite
    set s' : Bridges := { s.setCall k none with
      cursor := some (head, s.nextVersion)
      nextVersion := s.nextVersion + 1
      origin := if s.cursor.isNone then some start else s.origin } with hs'
    have hext : s.Extends s' := extends_cursor s _ head _
    refine ⟨⟨h.world, fun c hc => ?_, fun k' call hk =>
      hext.callOrdered (hdone.1.calls k' call hk)⟩, fun c hc => ⟨_, rfl, ?_⟩⟩
    · cases hc
      exact Nat.lt_succ_self _
    · obtain ⟨n, v⟩ := c
      have hversion := hwrite.2.symm.trans (congrArg (Option.map Prod.snd) hc)
      obtain ⟨⟨n', v'⟩, hcursor, rfl⟩ := Option.map_eq_some_iff.mp hversion
      have hsameNumber : n = n' := (hknown n' v' hcursor).2 n hc
      exact hsameNumber ▸ hhead (n', v') hcursor
  · rw [if_neg hwrite]
    exact hdone

theorem Ordered.step (h : Ordered cfg s) {e : BridgeEvent} (hok : inOrder s e = true)
    (hstep : Bridges.step cfg repo sinks s e = some s') : Ordered cfg s' ∧ s.NotBehind s' := by
  cases e with
  | wal a =>
    obtain ⟨w, hw, rfl⟩ := Option.map_eq_some_iff.mp hstep
    have hext : s.Extends { s with world := w } :=
      ⟨step_grows h.world hw, List.Subset.refl _, List.Subset.refl _, le_rfl, fun _ _ hc _ => hc⟩
    exact h.extend hext (h.world.step a hw) rfl fun _ _ hk => Or.inl hk
  | opened k i =>
    obtain ⟨g, hg, rfl⟩ := Option.map_eq_some_iff.mp hstep
    refine h.setCall k _ fun call hcall => ?_
    rw [← Option.some.inj hcall]
    exact ⟨g, List.mem_of_getElem? hg, rfl⟩
  | locate k =>
    obtain ⟨m, hcall, rfl⟩ := step_locate hstep
    simp only [inOrder, hcall, Option.all_eq_true, decide_eq_true_eq] at hok
    exact h.locate (h.calls k _ hcall) hok
  | readLog k =>
    obtain ⟨_, _, _, hcall, hread⟩ := step_readLog hstep
    exact h.readLog (h.calls k _ hcall) hread
  | deliver k received accepted =>
    obtain ⟨_, _, _, _, _, _, hcall, rfl⟩ := step_deliver hstep
    exact h.deliver (h.calls k _ hcall) accepted _
  | put k arrives =>
    obtain ⟨_, _, _, _, hcall, rfl⟩ := step_put hstep
    exact h.put (h.calls k _ hcall) arrives
  | crash k =>
    rw [← Option.some.inj hstep]
    exact h.setCall k _ fun call heq => by cases heq

/-- A cursor that is read out of order shows in the subtraction. -/
theorem Ordered.inOrder_of_noUnderflow (h : Ordered cfg s) {e : BridgeEvent}
    (hstep : Bridges.step cfg repo sinks s e = some s') (hlag : s'.NoUnderflow) :
    inOrder s e = true := by
  cases e with
  | locate k =>
    obtain ⟨m, hcall, rfl⟩ := step_locate hstep
    have hreadable := readable_le_head h.world (h.calls k _ hcall)
    simp only [inOrder, hcall, Option.all_eq_true, decide_eq_true_eq]
    intro c hc
    unfold Bridges.locate at hlag
    rw [hc] at hlag
    dsimp only [Option.map_some, Option.getD_some] at hlag
    split_ifs at hlag with hgap
    · omega
    · exact hlag k m.headSeq c.1 (some c) (by simp [Bridges.setCall])
  | wal _ | opened _ _ | readLog _ | deliver _ _ _ | put _ _ | crash _ => rfl

theorem ordered_created (access : Option RepoAccess) (now : Timestamp) (writer : String) :
    Ordered cfg (created (createdManifest access now writer)) where
  world := Walgit.inv_created access now writer
  versions := by simp [created]
  calls := by simp [created]

/-- The cursor moves forward and no subtraction is negative in exactly the runs in which every
call reads the cursor in order. -/
theorem forward_iff {access : Option RepoAccess} {now : Timestamp} {writer : String}
    {events : List BridgeEvent} (hrun : Runs.run (Bridges.step cfg repo sinks)
      (created (createdManifest access now writer)) events = some s) :
    Forward (Bridges.step cfg repo sinks) (created (createdManifest access now writer)) events ↔
      Runs.AllSteps (Bridges.step cfg repo sinks) (fun s e => inOrder s e = true)
        (created (createdManifest access now writer)) events := by
  have hinit : Ordered cfg (created (createdManifest access now writer)) :=
    ordered_created access now writer
  constructor
  · intro h
    exact Runs.allSteps_of_states (fun _ _ _ hs hok hstep => (hs.step hok hstep).1)
      (fun _ _ _ hs hstep hlag => hs.inOrder_of_noUnderflow hstep hlag) hinit hrun h.lag
  · intro hall
    refine ⟨fun as bs s t hprefix hs ht => ?_, fun as s hprefix hs => ?_⟩
    · obtain ⟨rest, rfl⟩ := hprefix
      rw [Runs.allSteps_append, Runs.allSteps_append] at hall
      have hordered := Runs.invariant (I := Ordered cfg)
        (fun _ _ _ h hok hstep => (h.step hok hstep).1) hs hall.1.1 hinit
      exact (Runs.invariant (I := fun u => Ordered cfg u ∧ s.NotBehind u)
        (fun u e v h hok hstep =>
          ⟨(h.1.step hok hstep).1, h.2.trans (h.1.step hok hstep).2⟩)
        ht (hall.1.2 s hs) ⟨hordered, .refl s⟩).2
    · obtain ⟨rest, rfl⟩ := hprefix
      rw [Runs.allSteps_append] at hall
      exact (Runs.invariant (I := Ordered cfg)
        (fun _ _ _ h hok hstep => (h.step hok hstep).1) hs hall.1 hinit).noUnderflow

end Proofs

section Runs

attribute [local instance] Text.asciiTables

theorem forward_iff_inTime : ∃ s, runBridges inTime = some s ∧
    Forward (Bridges.step ⟨3, List.length⟩ "o/r" [0]) (created (createdManifest none ⟨1, 0⟩ "w"))
      inTime := by
  have hrun : (runBridges inTime).isSome := by decide
  obtain ⟨s, hs⟩ := Option.isSome_iff_exists.mp hrun
  exact ⟨s, hs, (forward_iff hs).mpr (by decide)⟩

/-- A call holds the empty repository, and another one publishes the push. -/
def published : List BridgeEvent :=
  .opened 2 0 :: firstPush ++
    [.opened 1 0, .locate 1, .readLog 1, .deliver 1 true true, .put 1 true]

/-- The first call goes on. -/
def late : List BridgeEvent := [.locate 2, .readLog 2, .put 2 true]

/-- It writes its old head over the newer one. -/
theorem forward_overtaken : ∃ s t, runBridges published = some s ∧ s.cursor = some (1, 1) ∧
    Runs.run (Bridges.step ⟨3, List.length⟩ "o/r" [0]) s late = some t ∧ t.cursor = some (0, 2) ∧
    ¬ Forward (Bridges.step ⟨3, List.length⟩ "o/r" [0])
      (created (createdManifest none ⟨1, 0⟩ "w")) (published ++ late) := by
  have hrun : ((runBridges published).bind fun s =>
      (Runs.run (Bridges.step ⟨3, List.length⟩ "o/r" [0]) s late).map fun t =>
        (s.cursor, t.cursor)) = some (some (1, 1), some (0, 2)) := by decide
  obtain ⟨s, hs, hrest⟩ := Option.bind_eq_some_iff.mp hrun
  obtain ⟨t, ht, heq⟩ := Option.map_eq_some_iff.mp hrest
  obtain ⟨hbefore, hafter⟩ := Prod.mk.inj heq
  refine ⟨s, t, hs, hbefore, ht, hafter, fun h => ?_⟩
  obtain ⟨c, hc, hle⟩ := h.cursor published late s t List.prefix_rfl hs ht (1, 1) hbefore
  cases hafter.symm.trans hc
  exact absurd hle (by decide)

end Runs

end Walgit.Bridges
