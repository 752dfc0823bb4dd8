import Walgit.CopySteps

/-!
# The log while it grows

What is true of a copy, a checkpoint or a captured basis stays true while others commit:
new entries lie above every position reached so far. Only what was exact for the newest
manifest is no longer about the newest one.
-/
namespace Walgit

open Replay (upTo)

/-- The second world is the first with more committed. -/
structure World.Grows (w w' : World) : Prop where
  gens : w.gens ⊆ w'.gens
  log : ∃ new, committedEntries w'.gens = committedEntries w.gens ++ new ∧
    ∀ e ∈ new, ∀ n, w.Boundary n → n < e.seq
  latest : w'.gens = w.gens ∨ ∀ g', w'.gens.head? = some g' →
    ∀ g ∈ w.gens, g.manifest.revision < g'.manifest.revision

theorem World.Grows.refl (w : World) : w.Grows w :=
  ⟨List.Subset.refl _, ⟨[], (List.append_nil _).symm, by simp⟩, Or.inl rfl⟩

section Steps

variable [Text.CharTables] {cfg : Config} {w w' : World}

theorem step_grows {a : Action} (hinv : Inv cfg w) (h : step cfg w a = some w') : w.Grows w' := by
  have hinv' := hinv.step a h
  obtain ⟨current, gens, hgens, -⟩ := hinv.current
  rcases step_gens h with heq | ⟨g, heq⟩
  · refine ⟨heq ▸ List.Subset.refl _, ⟨[], ?_, by simp⟩, Or.inl heq⟩
    rw [heq, List.append_nil]
  · have hchain := hinv'.chain
    rw [heq, hgens] at hchain
    refine ⟨heq ▸ List.subset_cons_self _ _,
      ⟨(g.origin.map fun o => o.slot.bytes).getD [], by rw [heq]; rfl, fun e he n hn => ?_⟩,
      Or.inr fun g' hg' g₀ hg₀ => ?_⟩
    · have hnew := hchain.new_entries he
      rcases hn with rfl | ⟨g', hg', rfl⟩
      · omega
      · have := hchain.older.1.logSpec.heads g' (hgens ▸ hg')
        omega
    · rw [heq, List.head?_cons, Option.some.injEq] at hg'
      rw [← hg']
      exact hchain.revision_lt (hgens ▸ hg₀)

end Steps

namespace World.Grows

variable {w w' : World} {n : ℕ}

theorem boundary (h : w.Grows w') (hn : w.Boundary n) : w'.Boundary n := by
  rcases hn with h0 | ⟨g, hg, hhead⟩
  · exact Or.inl h0
  · exact Or.inr ⟨g, h.gens hg, hhead⟩

theorem applied (h : w.Grows w') {refs : RefState} (hn : w.Boundary n)
    (ha : refs.Applied (committedEntries w.gens) n) :
    refs.Applied (committedEntries w'.gens) n := by
  obtain ⟨new, hlog, hnew⟩ := h.log
  rw [hlog]
  exact ha.append fun e he => hnew e he n hn

theorem refsAt (h : w.Grows w') (hn : w.Boundary n) :
    refsAt (committedEntries w'.gens) n = refsAt (committedEntries w.gens) n := by
  obtain ⟨new, hlog, hnew⟩ := h.log
  rw [Walgit.refsAt, hlog, Replay.upTo_append fun e he => hnew e he n hn]
  rfl

theorem generated (h : w.Grows w') {m : Manifest} {v : ℕ} (hm : w.Generated m v) :
    w'.Generated m v := hm.mono h.gens

theorem held (h : w.Grows w') {handle : Handle} (hh : handle.Held w) : handle.Held w' := by
  obtain ⟨g, hg, hrest⟩ := hh
  exact ⟨g, h.gens hg, hrest⟩

theorem disk (h : w.Grows w') {d : Disk} (hd : d.Ok w) : d.Ok w' :=
  ⟨h.applied hd.boundary hd.applied, h.boundary hd.boundary⟩

theorem copy (h : w.Grows w') {c : Copy} (hc : c.Ok w) : c.Ok w' where
  applied := h.applied hc.boundary hc.applied
  boundary := h.boundary hc.boundary
  held := h.held hc.held
  head := hc.head
  saved := hc.saved
  savedBoundary := h.boundary hc.savedBoundary

/-- A basis that is not the newest any more never is again. -/
theorem exact (h : w.Grows w') {m : Manifest} {refs : RefState} (he : w.Exact m refs) :
    w'.Exact m refs := by
  obtain ⟨⟨g, hg, hm⟩, hexact⟩ := he
  rcases h.latest with heq | hnew
  · exact ⟨⟨g, h.gens hg, hm⟩, heq ▸ hexact⟩
  · refine ⟨⟨g, h.gens hg, hm⟩, fun g' hg' hm' => ?_⟩
    have hlt := hnew g' hg' g hg
    rw [hm, hm'] at hlt
    exact absurd hlt (lt_irrefl _)

end World.Grows

section Portable

variable [Text.CharTables]

/-- Every transaction of the job is valid and updates HEAD only symbolically. -/
def Job.portable : Job → Bool
  | .batch reqs => reqs.all fun r => r.txn.valid && !r.txn.plainHead
  | _ => true

variable {cfg : Config} {w w' : World}

theorem Origin.Wrote.portable {o : Origin} (h : o.Wrote) (hjob : o.job.portable) :
    ∀ e ∈ o.slot.bytes, e.Portable := by
  obtain ⟨clock, es, hes, -, hbytes⟩ := h
  intro e he
  rw [hbytes] at he
  obtain ⟨e₀, he₀, heq⟩ := mem_withNonce he
  cases hb : o.job.isBatch with
  | true =>
    cases hj : o.job with
    | batch reqs =>
      rw [hj] at hes hjob
      cases hes
      obtain ⟨m, hm, n, rfl⟩ := mem_buildEntries he₀
      have hreq := List.all_eq_true.mp hjob m.1 (accepted_subset m hm)
      simp only [Bool.and_eq_true, Bool.not_eq_true'] at hreq
      rw [heq]
      cases honly : m.1.forgeOnly with
      | true => exact ⟨by simp [LogEntry.refTxn, buildEntry, honly], by simp [buildEntry, honly]⟩
      | false =>
        refine ⟨by simp [LogEntry.refTxn, buildEntry, honly], fun t ht => ?_⟩
        simp only [buildEntry, honly, Bool.false_eq_true, if_false, Option.mem_def,
          Option.some.injEq] at ht
        exact ht ▸ hreq
    | _ =>
      rw [hj] at hb
      cases hb
  | false =>
    have hnone := (Job.entries_of_not_batch hes hb e₀ he₀).1
    rw [heq]
    refine ⟨?_, by simp [hnone]⟩
    simp only [LogEntry.refTxn, hnone]
    split <;> rfl

/-- What a run keeps of its publishers: their jobs are portable, what they know of their commits
is so, and checkpoints are folds of the log. -/
structure World.Portable (cfg : Config) (w : World) : Prop where
  inv : Inv cfg w
  seen : ∀ t task, w.tasks t = some task → task.Seen w
  jobs : ∀ t task, w.tasks t = some task → task.job.portable
  claims : ∀ o ∈ w.claims, o.job.portable
  checkpoints : ∀ cp, w.Checkpointed cp →
    cp.refs = refsAt (committedEntries w.gens) cp.seq ∧ w.Boundary cp.seq

theorem World.Portable.sound (h : w.Portable cfg) : w.Sound cfg where
  inv := h.inv
  portable := by
    intro e he
    rw [committedEntries_eq] at he
    obtain ⟨o, ho, hmem⟩ := List.mem_flatMap.mp he
    obtain ⟨g, hg, horigin⟩ := mem_committedOrigins.mp ho
    exact (h.inv.chain.ref_mem hg horigin).1.portable
      (h.claims o (h.inv.claimed o ⟨g, hg, horigin⟩)) e hmem
  checkpoints := fun g hg cp hcp => (h.checkpoints cp (Or.inl ⟨g, hg, hcp⟩)).1

theorem World.Portable.step (h : w.Portable cfg) {a : Action} (hstep : step cfg w a = some w')
    (hstart : ∀ t job, a = .start t job → job.portable)
    (hdraft : ∀ cp, a.Checkpoints cp →
      cp.refs = refsAt (committedEntries w.gens) cp.seq ∧ w.Boundary cp.seq) :
    w'.Portable cfg where
  inv := h.inv.step a hstep
  seen := step_seen h.inv hstep h.seen
  jobs := by
    intro t task htask
    rcases step_jobs hstep htask with rfl | ⟨task₀, htask₀, hjob⟩
    · exact hstart t task.job rfl
    · exact hjob ▸ h.jobs t task₀ htask₀
  claims := by
    intro o ho
    rcases step_claims hstep ho with ho | ⟨task, htask, hjob, -⟩
    · exact h.claims o ho
    · exact hjob ▸ h.jobs _ task htask
  checkpoints := by
    intro cp hcp
    have hgrows := step_grows h.inv hstep
    obtain ⟨hrefs, hboundary⟩ : cp.refs = refsAt (committedEntries w.gens) cp.seq ∧
        w.Boundary cp.seq := by
      rcases step_checkpointed h.inv hstep hcp with hold | hnew
      · exact h.checkpoints cp hold
      · exact hdraft cp hnew
    exact ⟨hrefs.trans (hgrows.refsAt hboundary).symm, hgrows.boundary hboundary⟩

end Portable

end Walgit
