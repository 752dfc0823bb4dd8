import Walgit.Leases

/-!
# At most one holder

Every version an earlier guard can name is older than any later acquisition of its key, and the
store holds no version older than that. Both survive every step, since versions are handed out
in order and a write is accepted over the current version only.
-/
namespace Walgit.Leasing

open ObjectStore (PutMode)

variable {κ : Type}

namespace State

/-- What is known of a version that guard `i` wrote or holds: no later acquisition of its key
precedes it. -/
structure Token (s : State κ) (key : κ) (i version : ℕ) : Prop where
  lt_next : version < s.store.next
  acquired : (key, i) ∈ s.acquired
  overtaken : ∀ n, (key, n) ∈ s.acquired → i < n → version < n

structure Inv (s : State κ) : Prop where
  bounded : s.store.Bounded
  acquired_lt : ∀ key n, (key, n) ∈ s.acquired → n < s.store.next
  acquired_key : ∀ key key' n, (key, n) ∈ s.acquired → (key', n) ∈ s.acquired → key = key'
  /-- No lease is older than the latest acquisition of its key. -/
  current : ∀ key version lease, s.store.objects key = some (version, lease) →
    ∀ n, (key, n) ∈ s.acquired → n ≤ version
  guard : ∀ i g, s.guards i = some g → s.Token g.key i g.version
  request : ∀ id c, s.calls id = some c → ∀ i, c.caller.guard = some i →
    ∃ version, c.request.condition = some version ∧ s.Token c.key i version
  reply : ∀ id c, s.calls id = some c → ∀ version, c.reply = some (.written version) →
    s.Token c.key (c.caller.guard.getD version) version

theorem inv_new {store : ObjectStore κ Lease} (h : store.Bounded) : (new store).Inv where
  bounded := h
  acquired_lt := by simp [new]
  acquired_key := by simp [new]
  current := by simp [new]
  guard := by simp [new]
  request := by simp [new]
  reply := by simp [new]

variable {s t : State κ}

/-- A token stays one while the store and the acquisitions stay. -/
theorem Token.congr {key : κ} {i version : ℕ} (h : s.Token key i version)
    (hstore : t.store = s.store) (hacquired : t.acquired = s.acquired) :
    t.Token key i version :=
  ⟨hstore ▸ h.lt_next, hacquired ▸ h.acquired, hacquired ▸ h.overtaken⟩

/-- A guard changes to one that holds a token of its own. -/
theorem Inv.setGuard (h : s.Inv) (i : ℕ) {g : Option (Guard κ)}
    (hg : ∀ g' ∈ g, s.Token g'.key i g'.version) : (s.setGuard i g).Inv where
  bounded := h.bounded
  acquired_lt := h.acquired_lt
  acquired_key := h.acquired_key
  current := h.current
  guard := by
    intro j g' hfind
    by_cases hj : j = i
    · subst hj
      simp only [State.setGuard, Function.update_self] at hfind
      exact (hg g' hfind).congr rfl rfl
    · simp only [State.setGuard, Function.update_of_ne hj] at hfind
      exact (h.guard j g' hfind).congr rfl rfl
  request := fun id c hc i hi => by
    obtain ⟨version, hcond, htoken⟩ := h.request id c hc i hi
    exact ⟨version, hcond, htoken.congr rfl rfl⟩
  reply := fun id c hc version hreply => (h.reply id c hc version hreply).congr rfl rfl

theorem Inv.setCall (h : s.Inv) (id : ℕ) {c : Option (Call κ)}
    (hrequest : ∀ c' ∈ c, ∀ i, c'.caller.guard = some i →
      ∃ version, c'.request.condition = some version ∧ s.Token c'.key i version)
    (hreply : ∀ c' ∈ c, ∀ version, c'.reply = some (.written version) →
      s.Token c'.key (c'.caller.guard.getD version) version) : (s.setCall id c).Inv where
  bounded := h.bounded
  acquired_lt := h.acquired_lt
  acquired_key := h.acquired_key
  current := h.current
  guard := fun i g hg => (h.guard i g hg).congr rfl rfl
  request := by
    intro j c' hfind i hi
    by_cases hj : j = id
    · subst hj
      simp only [State.setCall, Function.update_self] at hfind
      obtain ⟨version, hcond, htoken⟩ := hrequest c' hfind i hi
      exact ⟨version, hcond, htoken.congr rfl rfl⟩
    · simp only [State.setCall, Function.update_of_ne hj] at hfind
      obtain ⟨version, hcond, htoken⟩ := h.request j c' hfind i hi
      exact ⟨version, hcond, htoken.congr rfl rfl⟩
  reply := by
    intro j c' hfind version hwritten
    by_cases hj : j = id
    · subst hj
      simp only [State.setCall, Function.update_self] at hfind
      exact (hreply c' hfind version hwritten).congr rfl rfl
    · simp only [State.setCall, Function.update_of_ne hj] at hfind
      exact (h.reply j c' hfind version hwritten).congr rfl rfl

theorem Inv.send (h : s.Inv) {id : ℕ} {key : κ} {request : Request} {caller : Caller}
    (hrequest : ∀ i, caller.guard = some i →
      ∃ version, request.condition = some version ∧ s.Token key i version)
    (hsend : s.send id key request caller = some t) : t.Inv := by
  simp only [State.send] at hsend
  split_ifs at hsend
  cases hsend
  refine h.setCall id (fun c' hc' i hi => ?_) fun c' hc' version hwritten => ?_
  · cases hc'
    exact hrequest i hi
  · cases hc'
    cases hwritten

/-- A write over the current version is not overtaken. -/
theorem Token.latest (h : s.Inv) {key : κ} {i version : ℕ} (ht : s.Token key i version)
    (hcurrent : s.store.version key = some version) {n : ℕ} (hn : (key, n) ∈ s.acquired) :
    n ≤ i := by
  by_contra hlt
  have hover := ht.overtaken n hn (not_le.mp hlt)
  obtain ⟨⟨v, lease⟩, hfind, rfl⟩ := Option.map_eq_some_iff.mp hcurrent
  exact absurd (h.current key v lease hfind n hn) (not_le.mpr hover)

theorem Inv.deliver (h : s.Inv) {id : ℕ} {c : Call κ} {reply : Reply} (hc : s.calls id = some c)
    (hreply : c.reply = some reply) : (s.deliver c reply).Inv := by
  have hwritten := h.reply id c hc
  unfold State.deliver
  split
  · rename_i holder purpose now ttl epoch version hcaller
    refine h.setGuard version fun g hg => ?_
    cases hg
    simpa [hcaller, Caller.guard] using hwritten version hreply
  · rename_i i now ttl background version hcaller
    refine h.setGuard i fun g hg => ?_
    obtain ⟨g', hg', rfl⟩ := Option.map_eq_some_iff.mp hg
    have ht := hwritten version hreply
    simp only [hcaller, Caller.guard, Option.getD_some] at ht
    have hkey : c.key = g'.key :=
      h.acquired_key _ _ i ht.acquired (h.guard i g' hg').acquired
    exact hkey ▸ ht
  · rename_i i now ttl background hcaller
    refine h.setGuard i fun g hg => ?_
    obtain ⟨g', hg', rfl⟩ := Option.map_eq_some_iff.mp hg
    exact h.guard i g' hg'
  · exact h

variable [DecidableEq κ]

/-- The store, and what was acquired, after a write of version `next`. -/
theorem Inv.wrote (h : s.Inv) (key : κ) (lease : Lease) (acquired : List (κ × ℕ))
    (hacquired : acquired = s.acquired ∨ acquired = (key, s.store.next) :: s.acquired) :
    ({ s with store := s.store.write key lease, acquired := acquired } : State κ).Inv := by
  have hmem : ∀ {k n}, (k, n) ∈ acquired →
      (k, n) ∈ s.acquired ∨ (k = key ∧ n = s.store.next) := by
    rcases hacquired with rfl | rfl
    · exact fun hn => Or.inl hn
    · intro k n hn
      rcases List.mem_cons.mp hn with heq | hn
      · exact Or.inr (Prod.mk.inj heq)
      · exact Or.inl hn
  have hsub : ∀ {p}, p ∈ s.acquired → p ∈ acquired := by
    rcases hacquired with rfl | rfl
    · exact id
    · exact fun hp => List.mem_cons_of_mem _ hp
  have htoken : ∀ {k i version}, s.Token k i version →
      ({ s with store := s.store.write key lease, acquired := acquired } : State κ).Token k i
        version := by
    intro k i version htoken
    refine ⟨Nat.lt_succ_of_lt htoken.lt_next, hsub htoken.acquired, fun n hn hlt => ?_⟩
    rcases hmem hn with hold | ⟨-, rfl⟩
    · exact htoken.overtaken n hold hlt
    · exact htoken.lt_next
  refine ⟨h.bounded.write key lease, fun k n hn => ?_, fun k k' n hn hn' => ?_,
    fun k v x hfind n hn => ?_, fun i g hg => htoken (h.guard i g hg), fun id c hc i hi => ?_,
    fun id c hc version hreply => htoken (h.reply id c hc version hreply)⟩
  · rcases hmem hn with hold | ⟨-, rfl⟩
    · exact Nat.lt_succ_of_lt (h.acquired_lt k n hold)
    · exact Nat.lt_succ_self _
  · rcases hmem hn with hold | ⟨rfl, rfl⟩
    · rcases hmem hn' with hold' | ⟨rfl, rfl⟩
      · exact h.acquired_key k k' n hold hold'
      · exact absurd (h.acquired_lt k _ hold) (lt_irrefl _)
    · rcases hmem hn' with hold' | ⟨rfl, -⟩
      · exact absurd (h.acquired_lt k' _ hold') (lt_irrefl _)
      · rfl
  · simp only [ObjectStore.write_objects] at hfind
    split_ifs at hfind with hk
    · cases hfind
      rcases hmem hn with hold | ⟨-, rfl⟩
      · exact (h.acquired_lt k n hold).le
      · exact le_rfl
    · rcases hmem hn with hold | ⟨hk', -⟩
      · exact h.current k v x hfind n hold
      · exact absurd hk' hk
  · obtain ⟨version, hcond, ht⟩ := h.request id c hc i hi
    exact ⟨version, hcond, htoken ht⟩

theorem Inv.deleted (h : s.Inv) (key : κ) (version : ℕ) :
    ({ s with store := s.store.delete key version } : State κ).Inv := by
  have htoken : ∀ {k i v}, s.Token k i v →
      ({ s with store := s.store.delete key version } : State κ).Token k i v := by
    intro k i v ht
    exact ⟨(ObjectStore.delete_next s.store key version).symm ▸ ht.lt_next, ht.acquired,
      ht.overtaken⟩
  refine ⟨h.bounded.delete key version, fun k n hn => ?_, h.acquired_key, fun k v x hfind => ?_,
    fun i g hg => htoken (h.guard i g hg), fun id c hc i hi => ?_,
    fun id c hc v hreply => htoken (h.reply id c hc v hreply)⟩
  · rw [ObjectStore.delete_next]
    exact h.acquired_lt k n hn
  · exact h.current k v x (ObjectStore.delete_objects_eq_some hfind)
  · obtain ⟨v, hcond, ht⟩ := h.request id c hc i hi
    exact ⟨v, hcond, htoken ht⟩

theorem Inv.arrive (h : s.Inv) {id : ℕ} {c : Call κ} (hc : s.calls id = some c) :
    (s.arrive id c).Inv := by
  obtain ⟨key, request, caller, reply, waiting⟩ := c
  have hrequest := h.request id _ hc
  cases request with
  | put lease mode =>
    simp only [State.arrive]
    cases hput : s.store.put key lease mode with
    | none =>
      refine h.setCall id (fun c' hc' => ?_) fun c' hc' version hwritten => ?_
      · cases hc'
        exact hrequest
      · cases hc'
        cases hwritten
    | some store =>
      obtain ⟨haccepts, rfl⟩ := ObjectStore.put_eq_some hput
      have hwrote := h.wrote key lease
        (if caller.guard.isNone then (key, s.store.next) :: s.acquired else s.acquired)
        (by split_ifs <;> simp)
      refine hwrote.setCall id (fun c' hc' => ?_) fun c' hc' version hwritten => ?_
      · cases hc'
        exact hwrote.request id ⟨key, .put lease mode, caller, reply, waiting⟩ hc
      · cases hc'
        cases hwritten
        refine ⟨Nat.lt_succ_self _, ?_, fun n hn hlt => ?_⟩
        · cases hguard : caller.guard with
          | none => simp
          | some i =>
            obtain ⟨v, -, ht⟩ := hrequest i hguard
            exact ht.acquired
        · cases hguard : caller.guard with
          | none =>
            have hle := Nat.lt_succ_iff.mp (hwrote.acquired_lt key n hn)
            simp only [hguard, Option.getD_none] at hlt
            exact absurd hle (not_le.mpr hlt)
          | some i =>
            obtain ⟨v, hcond, ht⟩ := hrequest i hguard
            simp only [hguard, Option.getD_some, Option.isNone_some, Bool.false_eq_true,
              if_false] at hlt hn
            -- The write was accepted over the version it names, so nothing was acquired since.
            have hcurrent : s.store.version key = some v := by
              cases mode with
              | create => cases hcond
              | update w =>
                cases hcond
                simpa [ObjectStore.accepts] using haccepts
            exact absurd (ht.latest h hcurrent hn) (not_le.mpr hlt)
  | delete version =>
    have hdeleted := h.deleted key version
    refine hdeleted.setCall id (fun c' hc' => ?_) fun c' hc' v hwritten => ?_
    · cases hc'
      exact hdeleted.request id ⟨key, .delete version, caller, reply, waiting⟩ hc
    · cases hc'
      simp only [Option.some.injEq] at hwritten
      split_ifs at hwritten

theorem Inv.step (h : s.Inv) {a : Action κ} (hstep : step s a = some t) : t.Inv := by
  cases a with
  | acquire id key holder purpose now ttl =>
    simp only [State.step] at hstep
    split at hstep
    · cases hstep
      exact h
    · rename_i request caller hrequest
      refine h.send (fun i hi => ?_) hstep
      unfold acquireRequest at hrequest
      split at hrequest
      · cases hrequest
        cases hi
      · split_ifs at hrequest
        cases hrequest
        cases hi
  | heartbeat id i now ttl background =>
    simp only [State.step, Option.bind_eq_bind, Option.bind_eq_some_iff] at hstep
    obtain ⟨g, hg, hstep⟩ := hstep
    split_ifs at hstep
    have hbeat := h.setGuard i (g := some { g with epoch := g.epoch + 1 }) fun g' hg' => by
      cases hg'
      exact h.guard i g hg
    refine hbeat.send (fun j hj => ?_) hstep
    cases hj
    exact ⟨g.version, rfl, (h.guard i g hg).congr rfl rfl⟩
  | release id i =>
    simp only [State.step, Option.bind_eq_bind, Option.bind_eq_some_iff] at hstep
    obtain ⟨g, hg, hstep⟩ := hstep
    refine (h.setGuard i (g := none) (by simp)).send (fun j hj => ?_) hstep
    cases hj
    exact ⟨g.version, rfl, (h.guard i g hg).congr rfl rfl⟩
  | drop id i runtime =>
    simp only [State.step, Option.bind_eq_bind, Option.bind_eq_some_iff] at hstep
    obtain ⟨g, hg, hstep⟩ := hstep
    have hdropped := h.setGuard i (g := none) (by simp)
    split_ifs at hstep
    · cases hstep
      exact hdropped
    · refine hdropped.send (fun j hj => ?_) hstep
      cases hj
      exact ⟨g.version, rfl, (h.guard i g hg).congr rfl rfl⟩
  | arrive id =>
    simp only [State.step, Option.bind_eq_bind, Option.bind_eq_some_iff] at hstep
    obtain ⟨c, hc, hstep⟩ := hstep
    split_ifs at hstep
    cases hstep
    exact h.arrive hc
  | deliver id =>
    simp only [State.step, Option.bind_eq_bind, Option.bind_eq_some_iff] at hstep
    obtain ⟨c, hc, reply, hreply, hstep⟩ := hstep
    split_ifs at hstep
    cases hstep
    exact (h.deliver hc hreply).setCall id (by simp) (by simp)
  | abandon id =>
    simp only [State.step, Option.bind_eq_bind, Option.bind_eq_some_iff] at hstep
    obtain ⟨c, hc, hstep⟩ := hstep
    cases hstep
    refine h.setCall id (fun c' hc' => ?_) fun c' hc' => ?_
    · cases hc'
      exact h.request id c hc
    · cases hc'
      exact h.reply id c hc

theorem inv_run {store : ObjectStore κ Lease} (hstore : store.Bounded) {actions : List (Action κ)}
    (hrun : Runs.run step (new store) actions = some s) : s.Inv :=
  Runs.invariant (fun _ _ _ h _ hstep => h.step hstep) hrun (Runs.allSteps_true _ _)
    (inv_new hstore)

omit [DecidableEq κ] in
/-- A version that was overtaken is not the stored one. -/
theorem Token.stale (h : s.Inv) {key : κ} {i version n : ℕ} (ht : s.Token key i version)
    (hn : (key, n) ∈ s.acquired) (hlt : i < n) : s.store.version key ≠ some version :=
  fun hcurrent => absurd (ht.latest h hcurrent hn) (not_le.mpr hlt)

/-- A request of an overtaken guard is refused and changes nothing. -/
theorem Inv.refused (h : s.Inv) {id : ℕ} {c : Call κ} (hc : s.calls id = some c) {i n : ℕ}
    (hi : c.caller.guard = some i) (hn : (c.key, n) ∈ s.acquired) (hlt : i < n) :
    ∃ reply, (reply = .preconditionFailed ∨ reply = .notFound) ∧
      s.arrive id c = s.setCall id (some { c with reply := some reply }) := by
  obtain ⟨key, request, caller, old, waiting⟩ := c
  obtain ⟨version, hcond, ht⟩ := h.request id _ hc i hi
  have hstale := ht.stale h hn hlt
  cases request with
  | put lease mode =>
    cases mode with
    | create => cases hcond
    | update v =>
      cases hcond
      have hput : s.store.put key lease (.update version) = none := by
        simpa [ObjectStore.put, ObjectStore.accepts] using hstale
      exact ⟨.preconditionFailed, Or.inl rfl, by simp only [State.arrive, hput]⟩
  | delete v =>
    cases hcond
    have hdelete : s.store.delete key version = s.store := by
      rw [ObjectStore.delete, if_neg hstale]
    refine ⟨if s.store.version key = none then .notFound else .preconditionFailed, ?_, ?_⟩
    · split_ifs <;> simp
    · simp only [State.arrive, hdelete, if_neg hstale]

end State

/-- Whatever the order of the steps: two guards of one lease are never both able to extend it,
and from the moment the store accepts an acquisition no earlier guard can extend it, and no
request of an earlier guard, however long it was delayed, succeeds as a heartbeat or changes
the store. -/
theorem lease_exclusive [DecidableEq κ] {store : ObjectStore κ Lease} (hstore : store.Bounded)
    {actions : List (Action κ)} {s : State κ}
    (hrun : Runs.run State.step (.new store) actions = some s) :
    (∀ i j g g', s.guards i = some g → s.guards j = some g' → g.key = g'.key →
      s.extendable g = true → s.extendable g' = true → i = j) ∧
    ∀ key n, (key, n) ∈ s.acquired → ∀ i < n,
      (∀ g, s.guards i = some g → g.key = key → s.extendable g = false) ∧
      ∀ id c, s.calls id = some c → c.key = key → c.caller.guard = some i → c.reply = none →
        ∃ reply t, State.step s (.arrive id) = some t ∧
          t.calls id = some { c with reply := some reply } ∧ t.store = s.store ∧
          heartbeatResult reply ≠ .ok () := by
  have h := State.inv_run hstore hrun
  have hlatest : ∀ {i g n}, s.guards i = some g → s.extendable g = true →
      (g.key, n) ∈ s.acquired → n ≤ i := by
    intro i g n hg hextendable hn
    refine (h.guard i g hg).latest h ?_ hn
    simpa [State.extendable, ObjectStore.accepts] using hextendable
  refine ⟨fun i j g g' hg hg' hkey he he' => ?_, fun key n hn i hlt => ⟨?_, ?_⟩⟩
  · have hi := (h.guard i g hg).acquired
    have hj := (h.guard j g' hg').acquired
    exact le_antisymm (hlatest hg' he' (hkey ▸ hi)) (hlatest hg he (hkey ▸ hj))
  · rintro g hg rfl
    by_contra hextendable
    exact absurd (hlatest hg (by simpa using hextendable) hn) (not_le.mpr hlt)
  · rintro id c hc rfl hi hreply
    obtain ⟨reply, hkind, harrive⟩ := h.refused hc hi hn hlt
    refine ⟨reply, s.arrive id c, ?_, ?_, ?_, ?_⟩
    · simp [State.step, hc, hreply]
    · simp [harrive, State.setCall]
    · rw [harrive]
      rfl
    · rcases hkind with rfl | rfl <;> simp [heartbeatResult]

section Steal

/-- Guard 0 acquires, its lease expires, guard 1 takes it over, and then guard 0 extends and
releases. -/
def steal : List (Action Unit) :=
  [.acquire 0 () "a" "gc" 0 1000000000, .arrive 0, .deliver 0,
    .acquire 1 () "b" "gc" 3000000000 1000000000, .arrive 1, .deliver 1,
    .heartbeat 2 0 4000000000 1000000000 false, .release 3 0]

/-- The delayed release of guard 0 leaves the lease of guard 1 in the store. -/
theorem lease_exclusive_steal :
    ∃ s t : State Unit, s.store.version () = some 1 ∧ State.step s (.arrive 3) = some t ∧
      t.store = s.store := by
  have hsome : (Runs.run State.step (.new ⟨fun _ => none, 0⟩) steal).map (fun s =>
      (s.store.version (), s.acquired, s.calls 3)) = some (some 1, [((), 1), ((), 0)],
        some ⟨(), .delete 0, .release 0, none, true⟩) := by decide
  obtain ⟨s, hrun, heq⟩ := Option.map_eq_some_iff.mp hsome
  simp only [Prod.mk.injEq] at heq
  obtain ⟨hversion, hacquired, hcall⟩ := heq
  have hbounded : (⟨fun _ => none, 0⟩ : ObjectStore Unit Lease).Bounded := by
    simp [ObjectStore.Bounded]
  obtain ⟨reply, t, ht, -, hstore, -⟩ := ((lease_exclusive hbounded hrun).2 () 1
    (by simp [hacquired]) 0 Nat.zero_lt_one).2 3 _ hcall rfl rfl rfl
  exact ⟨s, t, hversion, ht, hstore⟩

/-- Guard 0 was robbed of its lease, and its release succeeds. -/
theorem release_succeeds_robbed :
    ∃ s : State Unit, Runs.run State.step (.new ⟨fun _ => none, 0⟩) (steal ++ [.arrive 3]) = some s ∧
      s.acquired = [((), 1), ((), 0)] ∧ s.store.version () = some 1 ∧
      ∃ c reply, s.calls 3 = some c ∧ c.caller = .release 0 ∧ c.reply = some reply ∧
        releaseResult reply = .ok () := by
  have hsome : (Runs.run State.step (.new ⟨fun _ => none, 0⟩) (steal ++ [.arrive 3])).map (fun s =>
      (s.store.version (), s.acquired, s.calls 3)) = some (some 1, [((), 1), ((), 0)],
        some ⟨(), .delete 0, .release 0, some .preconditionFailed, true⟩) := by decide
  obtain ⟨s, hrun, heq⟩ := Option.map_eq_some_iff.mp hsome
  simp only [Prod.mk.injEq] at heq
  obtain ⟨hversion, hacquired, hcall⟩ := heq
  exact ⟨s, hrun, hacquired, hversion, _, _, hcall, rfl, rfl, rfl⟩

end Steal

end Walgit.Leasing
