import Walgit.ObjectStore
import Walgit.Runs

/-!
# The compare-and-swap loop

Any number of `cas_update` calls on one key. A call reads the object, applies its function and
sends a conditional write; the write gets to the store at any later time, or never, and the
answer gets to the call. What the store says need not be all that happened: a write it answers
with `Retryable` may have been applied, or may still be applied later.
-/
namespace Walgit.CasUpdate

open ObjectStore (PutMode)

/-- How a message is stored. -/
structure Codec (T β : Type) where
  encode : T → β
  decode : β → Option T

inductive CoordError where
  | store
  | decode
  | aborted
  | leaseLost
  | retriesExhausted (attempts : UInt32)
  | other
  deriving DecidableEq, Repr

/-- A call: its function is given the values it was given before, so it may keep a state. -/
structure Caller (T : Type) where
  maxRetries : UInt32
  update : List (Option T) → Option T → Except CoordError (Option T)

inductive Phase (T : Type) where
  | reading
  | waiting (put : ℕ)
  | returned (result : Except CoordError (Option (ℕ × T)))

structure Call (T : Type) where
  attempts : UInt32
  /-- What the function was applied to, oldest first. -/
  seen : List (Option T)
  phase : Phase T

inductive Fate where
  | underway
  | refused
  | applied (version : ℕ)
  deriving DecidableEq, Repr

inductive Answer where
  | ok
  | preconditionFailed
  | retryable
  | failed
  deriving DecidableEq, Repr

/-- A conditional write of a call, with what the call had read. -/
structure Put (T β : Type) where
  caller : ℕ
  seen : List (Option T)
  basis : Option (ℕ × β)
  new : T
  fate : Fate
  answer : Option Answer

def Put.mode {T β : Type} (p : Put T β) : PutMode :=
  match p.basis with
  | some (version, _) => .update version
  | none => .create

/-- A value the store took, with the write it came from. -/
structure Link (T : Type) where
  put : ℕ
  caller : ℕ
  seen : List (Option T)
  new : T
  version : ℕ

structure State (κ T β : Type) where
  store : ObjectStore κ β
  calls : ℕ → Call T
  puts : ℕ → Option (Put T β)
  /-- Newest first. -/
  links : List (Link T)

inductive Event where
  /-- `get_message` and the caller's function; the write is sent under a fresh id. -/
  | read (call put : ℕ)
  | readFailed (call : ℕ)
  | arrive (put : ℕ)
  | answer (put : ℕ) (answer : Answer)
  deriving DecidableEq, Repr

section

variable {κ T β : Type} [DecidableEq κ] (codec : Codec T β) (callers : ℕ → Caller T) (key : κ)

/-- Nothing if there is no object, an error if its bytes are no message. -/
def Codec.message : Option β → Option (Option T)
  | none => some none
  | some bytes => (codec.decode bytes).map some

def start (store : ObjectStore κ β) : State κ T β :=
  ⟨store, fun _ => ⟨0, [], .reading⟩, fun _ => none, []⟩

namespace State

def setCall (s : State κ T β) (i : ℕ) (c : Call T) : State κ T β :=
  { s with calls := Function.update s.calls i c }

def setPut (s : State κ T β) (id : ℕ) (p : Put T β) : State κ T β :=
  { s with puts := Function.update s.puts id (some p) }

/-- Returns from a call. -/
def finish (s : State κ T β) (i : ℕ) (result : Except CoordError (Option (ℕ × T))) :
    State κ T β :=
  s.setCall i { s.calls i with phase := .returned result }

/-- One more attempt, unless they are used up. -/
def retry (s : State κ T β) (i : ℕ) : State κ T β :=
  let c := s.calls i
  let attempts := c.attempts + 1
  if (callers i).maxRetries < attempts then s.finish i (.error (.retriesExhausted attempts))
  else s.setCall i { c with attempts := attempts, phase := .reading }

/-- One round of the loop up to its `put_bytes`. -/
def read (s : State κ T β) (i id : ℕ) : State κ T β :=
  let c := s.calls i
  let basis := s.store.objects key
  match codec.message (basis.map Prod.snd) with
  | none => s.finish i (.error .decode)
  | some current =>
    match (callers i).update c.seen current with
    | .error e => s.finish i (.error e)
    | .ok none => s.finish i (.ok none)
    | .ok (some new) =>
      (s.setPut id ⟨i, c.seen, basis, new, .underway, none⟩).setCall i
        { c with seen := c.seen ++ [current], phase := .waiting id }

/-- The store takes a write or refuses it. -/
def arrive (s : State κ T β) (id : ℕ) (p : Put T β) : State κ T β :=
  match s.store.put key (codec.encode p.new) p.mode with
  | none => s.setPut id { p with fate := .refused }
  | some store =>
    { s with
      store := store
      links := ⟨id, p.caller, p.seen, p.new, s.store.next⟩ :: s.links }.setPut id
        { p with fate := .applied s.store.next }

/-- A call acts on an answer. Only a write that was applied is answered with success, and a
failed precondition says that it was not and will not be. -/
def answered (s : State κ T β) (id : ℕ) (p : Put T β) : Answer → Option (State κ T β)
  | .ok =>
    match p.fate with
    | .applied version => some ((s.setPut id { p with answer := some .ok }).finish p.caller
        (.ok (some (version, p.new))))
    | _ => none
  | .preconditionFailed =>
    match p.fate with
    | .applied _ => none
    | _ => some ((s.setPut id { p with
        answer := some .preconditionFailed
        fate := .refused }).retry callers p.caller)
  | .retryable =>
    some ((s.setPut id { p with answer := some .retryable }).retry callers p.caller)
  | .failed =>
    some ((s.setPut id { p with answer := some .failed }).finish p.caller (.error .store))

/-- The write was answered with `Retryable`: its call does not know what became of it. -/
def retried (s : State κ T β) (id : ℕ) : Bool :=
  (s.puts id).any fun p => p.answer == some .retryable

/-- The links of a call, less those of writes it was told to try again. -/
def contributed (s : State κ T β) (i : ℕ) : List (Link T) :=
  s.links.filter fun l => l.caller == i && !s.retried l.put

end State

def step (s : State κ T β) : Event → Option (State κ T β)
  | .read i id =>
    match (s.calls i).phase, s.puts id with
    | .reading, none => some (s.read codec callers key i id)
    | _, _ => none
  | .readFailed i =>
    match (s.calls i).phase with
    | .reading => some (s.finish i (.error .store))
    | _ => none
  | .arrive id => do
    let p ← s.puts id
    if p.fate = .underway then some (s.arrive codec key id p) else none
  | .answer id a => do
    let p ← s.puts id
    if p.answer = none then s.answered callers id p a else none

/-- The stored bytes after some links. -/
def stored (initial : Option β) : List (Link T) → Option β
  | [] => initial
  | l :: _ => some (codec.encode l.new)

/-- Each value is its caller's function applied to the value stored immediately before. -/
def Chain (initial : Option β) : List (Link T) → Prop
  | [] => True
  | l :: links => Chain initial links ∧
    ∃ current, codec.message (stored codec initial links) = some current ∧
      (callers l.caller).update l.seen current = .ok (some l.new)

end

namespace State

variable {κ T β : Type} {s t : State κ T β} {i j id : ℕ} {p : Put T β}

@[simp] theorem contributed_setCall (s : State κ T β) (j : ℕ) (c : Call T) (i : ℕ) :
    (s.setCall j c).contributed i = s.contributed i := rfl

theorem retried_setPut (s : State κ T β) (id : ℕ) (p : Put T β) (j : ℕ) :
    (s.setPut id p).retried j = if j = id then p.answer == some .retryable else s.retried j := by
  by_cases hj : j = id
  · subst hj
    simp [retried, setPut]
  · simp [retried, setPut, hj]

/-- A write counts as it did unless the answer to it is `Retryable`. -/
theorem contributed_setPut (h : (p.answer == some .retryable) = s.retried id) (i : ℕ) :
    (s.setPut id p).contributed i = s.contributed i := by
  refine List.filter_congr fun l _ => ?_
  rw [retried_setPut]
  split_ifs with hl
  · rw [hl, h]
  · rfl

theorem retry_eq (callers : ℕ → Caller T) (s : State κ T β) (i : ℕ) :
    ∃ c, s.retry callers i = s.setCall i c ∧
      (c.phase = .reading ∨ ∃ e, c.phase = .returned (.error e)) := by
  unfold retry
  dsimp only
  split_ifs
  · exact ⟨_, rfl, .inr ⟨_, rfl⟩⟩
  · exact ⟨_, rfl, .inl rfl⟩

/-- What an answer says about a write and its call. -/
def Settled (s : State κ T β) (id : ℕ) (p : Put T β) : Prop :=
  match p.answer with
  | none => (s.calls p.caller).phase = .waiting id
  | some .ok => ∃ version, p.fate = .applied version
  | some .preconditionFailed => p.fate = .refused
  | some .retryable => True
  | some .failed => ∃ e, (s.calls p.caller).phase = .returned (.error e)

/-- What a call in some phase has contributed. -/
def Owes (s : State κ T β) (i : ℕ) : Phase T → Prop
  | .reading => s.contributed i = []
  | .waiting id => ∃ p, s.puts id = some p ∧ p.caller = i ∧ p.answer = none ∧
      (s.contributed i).map Link.put = if p.fate matches .applied _ then [id] else []
  | .returned (.ok r) => (s.contributed i).map (fun l => (l.version, l.new)) = r.toList
  | .returned (.error _) => True

end State

section

variable {κ T β : Type} {codec : Codec T β} {callers : ℕ → Caller T} {key : κ}
  {initial : Option β} {s t : State κ T β} {i id : ℕ} {p : Put T β}

/-- A write came from its caller's function, applied to a value the store had under a version. -/
structure Put.Valid (codec : Codec T β) (callers : ℕ → Caller T) (key : κ)
    (store : ObjectStore κ β) (p : Put T β) : Prop where
  new : ∃ current, codec.message (p.basis.map Prod.snd) = some current ∧
    (callers p.caller).update p.seen current = .ok (some p.new)
  basis : ∀ version bytes, p.basis = some (version, bytes) → version < store.next ∧
    ∀ bytes', store.objects key = some (version, bytes') → bytes' = bytes

/-- A version keeps its value through any write. -/
theorem Put.Valid.write [DecidableEq κ] {store : ObjectStore κ β} (h : p.Valid codec callers key store)
    (bytes : β) : p.Valid codec callers key (store.write key bytes) where
  new := h.new
  basis := by
    intro version old hbasis
    obtain ⟨hlt, -⟩ := h.basis version old hbasis
    refine ⟨Nat.lt_succ_of_lt hlt, fun bytes' hfind => ?_⟩
    rw [ObjectStore.write_objects, if_pos rfl] at hfind
    cases hfind
    exact absurd hlt (Nat.lt_irrefl _)

/-- Where a write is accepted, the key still holds what its call had read. -/
theorem Put.Valid.accepted {store : ObjectStore κ β} (h : p.Valid codec callers key store)
    (haccepts : store.accepts key p.mode = true) :
    (store.objects key).map Prod.snd = p.basis.map Prod.snd := by
  cases hbasis : p.basis with
  | none =>
    simp only [Put.mode, hbasis, ObjectStore.accepts, Option.isNone_iff_eq_none] at haccepts
    simp [haccepts]
  | some current =>
    obtain ⟨version, bytes⟩ := current
    simp only [Put.mode, hbasis, ObjectStore.accepts, ObjectStore.version, beq_iff_eq,
      Option.map_eq_some_iff] at haccepts
    obtain ⟨⟨version', bytes'⟩, hfind, rfl⟩ := haccepts
    rw [hfind, (h.basis _ bytes hbasis).2 bytes' hfind]

/-- The stored values form a chain, and every link is a write that was applied. -/
structure Linked (codec : Codec T β) (callers : ℕ → Caller T) (key : κ) (initial : Option β)
    (s : State κ T β) : Prop where
  bounded : s.store.Bounded
  valid : ∀ id p, s.puts id = some p → p.Valid codec callers key s.store
  chain : Chain codec callers initial s.links
  stored : (s.store.objects key).map Prod.snd = stored codec initial s.links
  link : ∀ l ∈ s.links, ∃ p, s.puts l.put = some p ∧ p.caller = l.caller ∧ p.new = l.new ∧
    p.fate = .applied l.version

theorem Linked.setCall (h : Linked codec callers key initial s) (i : ℕ) (c : Call T) :
    Linked codec callers key initial (s.setCall i c) :=
  { h with }

/-- A write may be answered, and refused if it was not applied. -/
theorem Linked.setPut (h : Linked codec callers key initial s)
    (hvalid : p.Valid codec callers key s.store)
    (hkept : ∀ q version, s.puts id = some q → q.fate = .applied version →
      p.caller = q.caller ∧ p.new = q.new ∧ p.fate = .applied version) :
    Linked codec callers key initial (s.setPut id p) where
  bounded := h.bounded
  valid := by
    intro j q hq
    by_cases hj : j = id
    · subst hj
      simp only [State.setPut, Function.update_self] at hq
      cases hq
      exact hvalid
    · simp only [State.setPut, Function.update_of_ne hj] at hq
      exact h.valid j q hq
  chain := h.chain
  stored := h.stored
  link := by
    intro l hl
    obtain ⟨q, hq, hcaller, hnew, hfate⟩ := h.link l hl
    by_cases hj : l.put = id
    · obtain ⟨hpcaller, hpnew, hpfate⟩ := hkept q l.version (hj ▸ hq) hfate
      exact ⟨p, by simp [State.setPut, hj], hpcaller.trans hcaller, hpnew.trans hnew, hpfate⟩
    · exact ⟨q, by simpa [State.setPut, Function.update_of_ne hj] using hq, hcaller, hnew, hfate⟩

theorem Linked.read (h : Linked codec callers key initial s) (hfresh : s.puts id = none) (i : ℕ) :
    Linked codec callers key initial (s.read codec callers key i id) := by
  unfold State.read
  dsimp only
  split
  · exact h.setCall i _
  · rename_i current hcurrent
    split
    · exact h.setCall i _
    · exact h.setCall i _
    · rename_i new hnew
      refine (h.setPut ⟨⟨current, hcurrent, hnew⟩, ?_⟩ (by simp [hfresh])).setCall i _
      intro version bytes hbasis
      refine ⟨h.bounded key version bytes hbasis, fun bytes' hfind => ?_⟩
      have hsame := hfind.symm.trans hbasis
      simp only [Option.some.injEq, Prod.mk.injEq, true_and] at hsame
      exact hsame

theorem Linked.arrive [DecidableEq κ] (h : Linked codec callers key initial s) (hput : s.puts id = some p)
    (hfate : p.fate = .underway) :
    Linked codec callers key initial (s.arrive codec key id p) := by
  have hvalid := h.valid id p hput
  have hunderway : ∀ q version, s.puts id = some q → q.fate ≠ .applied version := by
    intro q version hq happlied
    rw [hput] at hq
    cases hq
    simp [hfate] at happlied
  unfold State.arrive
  cases hstore : s.store.put key (codec.encode p.new) p.mode with
  | none =>
    exact h.setPut ⟨hvalid.new, hvalid.basis⟩ fun q version hq happlied =>
      absurd happlied (hunderway q version hq)
  | some store =>
    obtain ⟨haccepts, rfl⟩ := ObjectStore.put_eq_some hstore
    have hbasis := hvalid.accepted haccepts
    obtain ⟨current, hcurrent, hnew⟩ := hvalid.new
    exact {
      bounded := h.bounded.write key _
      valid := by
        intro j q hq
        by_cases hj : j = id
        · subst hj
          simp only [State.setPut, Function.update_self] at hq
          cases hq
          have := hvalid.write (codec.encode p.new)
          exact ⟨this.new, this.basis⟩
        · simp only [State.setPut, Function.update_of_ne hj] at hq
          exact (h.valid j q hq).write _
      chain := by
        refine ⟨h.chain, current, ?_, hnew⟩
        rw [← h.stored, hbasis]
        exact hcurrent
      stored := by
        simp [State.setPut, ObjectStore.write_objects, CasUpdate.stored]
      link := by
        intro l hl
        rcases List.mem_cons.mp hl with rfl | hl
        · exact ⟨{ p with fate := .applied s.store.next }, by simp [State.setPut], rfl, rfl, rfl⟩
        · obtain ⟨q, hq, hrest⟩ := h.link l hl
          have hj : l.put ≠ id := by
            intro hj
            exact hunderway q l.version (hj ▸ hq) hrest.2.2
          exact ⟨q, by simpa [State.setPut, Function.update_of_ne hj] using hq, hrest⟩ }

/-- Every write is answered as its fate allows, and every call has contributed what its phase
says. -/
structure Counted (s : State κ T β) : Prop where
  settled : ∀ id p, s.puts id = some p → s.Settled id p
  owes : ∀ i, s.Owes i (s.calls i).phase

/-- A call owes the same when neither its links nor its write changed. -/
theorem State.Owes.congr {phase : Phase T} (h : s.Owes i phase)
    (hlinks : t.contributed i = s.contributed i)
    (hputs : ∀ id q, phase = .waiting id → s.puts id = some q → q.caller = i →
      t.puts id = some q) : t.Owes i phase := by
  cases phase with
  | reading => exact hlinks.trans h
  | waiting id =>
    obtain ⟨q, hq, hcaller, hnone, hmap⟩ := h
    exact ⟨q, hputs id q rfl hq hcaller, hcaller, hnone, hlinks ▸ hmap⟩
  | returned r =>
    cases r with
    | error e => trivial
    | ok r => exact (congrArg _ hlinks).trans h

/-- Other writes stay settled when the call that changes was reading, or waited for this one. -/
theorem State.Settled.congr {j : ℕ} {q : Put T β} (h : s.Settled j q) (hj : j ≠ id)
    (hphase : (s.calls i).phase = .reading ∨ (s.calls i).phase = .waiting id)
    (hcalls : ∀ k, k ≠ i → t.calls k = s.calls k) : t.Settled j q := by
  unfold State.Settled at h ⊢
  by_cases hi : q.caller = i
  · subst hi
    split at h
    · rcases hphase with hphase | hphase <;> rw [hphase] at h
      · cases h
      · exact absurd (Phase.waiting.inj h).symm hj
    · exact h
    · exact h
    · trivial
    · obtain ⟨e, he⟩ := h
      rcases hphase with hphase | hphase <;> simp [hphase] at he
  · rw [hcalls q.caller hi]
    exact h

/-- A call that was reading returns. -/
theorem Counted.finish (h : Counted s) (hphase : (s.calls i).phase = .reading)
    {result : Except CoordError (Option (ℕ × T))} (hresult : ∀ r, result = .ok r → r = none) :
    Counted (s.finish i result) where
  settled := by
    intro j q hq
    have hsettled := h.settled j q hq
    have hid : j ≠ j + 1 := by omega
    exact hsettled.congr hid (.inl hphase) fun k hk => Function.update_of_ne hk _ _
  owes := by
    intro k
    by_cases hk : k = i
    · subst hk
      have hnil := h.owes k
      rw [hphase] at hnil
      simp only [State.finish, State.setCall, Function.update_self]
      cases result with
      | error e => trivial
      | ok r =>
        rw [hresult r rfl]
        exact congrArg (List.map _) hnil
    · simp only [State.finish, State.setCall, Function.update_of_ne hk]
      exact (h.owes k).congr rfl fun _ _ _ hq _ => hq

/-- A call sends a write or takes the answer to it. -/
theorem Counted.change (h : Counted s) (hlinked : Linked codec callers key initial s)
    (hphase : (s.calls p.caller).phase = .reading ∨ (s.calls p.caller).phase = .waiting id)
    (hid : ∀ q, s.puts id = some q → q.caller = p.caller) {c : Call T}
    (hsettled : ((s.setPut id p).setCall p.caller c).Settled id p)
    (howes : ((s.setPut id p).setCall p.caller c).Owes p.caller c.phase) :
    Counted ((s.setPut id p).setCall p.caller c) where
  settled := by
    intro j q hq
    by_cases hj : j = id
    · subst hj
      simp only [State.setCall, State.setPut, Function.update_self] at hq
      cases hq
      exact hsettled
    · simp only [State.setCall, State.setPut, Function.update_of_ne hj] at hq
      exact (h.settled j q hq).congr hj hphase fun k hk => Function.update_of_ne hk _ _
  owes := by
    intro k
    by_cases hk : k = p.caller
    · subst hk
      simpa only [State.setCall, Function.update_self] using howes
    · simp only [State.setCall, Function.update_of_ne hk]
      refine (h.owes k).congr ?_ fun j q hj hq hcaller => ?_
      · refine List.filter_congr fun l hl => ?_
        obtain ⟨q, hq, hcaller, -⟩ := hlinked.link l hl
        by_cases hput : l.put = id
        · have hother : l.caller ≠ k := fun heq =>
            hk (heq.symm.trans (hcaller.symm.trans (hid q (hput ▸ hq))))
          rw [beq_eq_false_iff_ne.mpr hother, Bool.false_and, Bool.false_and]
        · simp [State.retried, State.setPut, Function.update_of_ne hput]
      · have hne : j ≠ id := by
          rintro rfl
          exact hk (hcaller.symm.trans (hid q hq))
        simpa [State.setPut, Function.update_of_ne hne] using hq

theorem Counted.read (h : Counted s) (hlinked : Linked codec callers key initial s)
    (hphase : (s.calls i).phase = .reading) (hfresh : s.puts id = none) :
    Counted (s.read codec callers key i id) := by
  unfold State.read
  dsimp only
  split
  · exact h.finish hphase (by simp)
  · split
    · exact h.finish hphase (by simp)
    · exact h.finish hphase (by simp)
    · rename_i new hnew
      refine h.change hlinked (p := ⟨i, _, _, new, .underway, none⟩) (.inl hphase)
        (by simp [hfresh]) ?_ ?_
      · simp [State.Settled, State.setCall]
      · refine ⟨_, Function.update_self .., rfl, rfl, ?_⟩
        have hnil := h.owes i
        rw [hphase] at hnil
        rw [State.contributed_setCall, State.contributed_setPut (by simp [State.retried, hfresh])]
        exact congrArg (List.map _) hnil

/-- A new link counts for its call unless the call was told to try again. -/
theorem State.contributed_link (hput : s.puts id = some p) (store : ObjectStore κ β) (fate : Fate)
    (version : ℕ) (k : ℕ) :
    (({ s with
        store := store
        links := ⟨id, p.caller, p.seen, p.new, version⟩ :: s.links } : State κ T β).setPut id
      { p with fate := fate }).contributed k =
      if p.caller = k ∧ p.answer ≠ some .retryable then
        ⟨id, p.caller, p.seen, p.new, version⟩ :: s.contributed k
      else s.contributed k := by
  rw [State.contributed_setPut (by simp [State.retried, hput])]
  have hretried : s.retried id = (p.answer == some .retryable) := by simp [State.retried, hput]
  simp only [State.contributed, List.filter_cons]
  have hsame : ∀ j, ({ s with
      store := store
      links := ⟨id, p.caller, p.seen, p.new, version⟩ :: s.links } : State κ T β).retried j =
      s.retried j := fun _ => rfl
  simp [hsame, hretried]

theorem Counted.arrive [DecidableEq κ] (h : Counted s) (hput : s.puts id = some p)
    (hfate : p.fate = .underway) : Counted (s.arrive codec key id p) := by
  have hsettled := h.settled id p hput
  have hown : ∀ fate, s.Settled id { p with fate := fate } := by
    intro fate
    unfold State.Settled at hsettled ⊢
    dsimp only
    split at hsettled <;> simp_all
  -- The call that waits for this write has contributed nothing yet.
  have hwaits : ∀ k, (s.calls k).phase = .waiting id →
      p.caller = k ∧ p.answer = none ∧ s.contributed k = [] := by
    intro k hk
    obtain ⟨q, hq, hcaller, hnone, hmap⟩ := hk ▸ h.owes k
    rw [hput] at hq
    cases hq
    simp only [hfate, Bool.false_eq_true, if_false, List.map_eq_nil_iff] at hmap
    exact ⟨hcaller, hnone, hmap⟩
  unfold State.arrive
  cases s.store.put key (codec.encode p.new) p.mode with
  | none =>
    refine ⟨fun j q hq => ?_, fun k => ?_⟩
    · by_cases hj : j = id
      · subst hj
        simp only [State.setPut, Function.update_self] at hq
        cases hq
        exact hown .refused
      · simp only [State.setPut, Function.update_of_ne hj] at hq
        exact h.settled j q hq
    · have hlinks : (s.setPut id { p with fate := .refused }).contributed k = s.contributed k :=
        State.contributed_setPut (by simp [State.retried, hput]) k
      by_cases hk : (s.calls k).phase = .waiting id
      · obtain ⟨hcaller, hnone, hnil⟩ := hwaits k hk
        simp only [State.setPut, hk]
        refine ⟨{ p with fate := .refused }, by simp, hcaller, hnone, ?_⟩
        exact congrArg (List.map _) (hlinks.trans hnil)
      · refine (h.owes k).congr hlinks fun j q hj hq hcaller => ?_
        have hne : j ≠ id := fun heq => hk (heq ▸ hj)
        simpa [State.setPut, Function.update_of_ne hne] using hq
  | some store =>
    refine ⟨fun j q hq => ?_, fun k => ?_⟩
    · by_cases hj : j = id
      · subst hj
        simp only [State.setPut, Function.update_self] at hq
        cases hq
        exact hown _
      · simp only [State.setPut, Function.update_of_ne hj] at hq
        exact h.settled j q hq
    · have hlinks := State.contributed_link hput store (.applied s.store.next) s.store.next k
      by_cases hk : (s.calls k).phase = .waiting id
      · obtain ⟨hcaller, hnone, hnil⟩ := hwaits k hk
        rw [if_pos ⟨hcaller, by simp [hnone]⟩, hnil] at hlinks
        simp only [State.setPut, hk]
        refine ⟨{ p with fate := .applied s.store.next }, by simp, hcaller, hnone, ?_⟩
        exact congrArg (List.map _) hlinks
      · by_cases hcount : p.caller = k ∧ p.answer ≠ some .retryable
        · -- Only a call that gave up on an error is not waiting any more.
          obtain ⟨rfl, hanswer⟩ := hcount
          have hgone : ∃ e, (s.calls p.caller).phase = .returned (.error e) := by
            unfold State.Settled at hsettled
            split at hsettled <;> simp_all
          obtain ⟨e, he⟩ := hgone
          simp only [State.setPut, he]
          trivial
        · rw [if_neg hcount] at hlinks
          refine (h.owes k).congr hlinks fun j q hj hq hcaller => ?_
          have hne : j ≠ id := fun heq => hk (heq ▸ hj)
          simpa [State.setPut, Function.update_of_ne hne] using hq

theorem Counted.answered (h : Counted s) (hlinked : Linked codec callers key initial s)
    (hput : s.puts id = some p) (hnone : p.answer = none) {a : Answer}
    (hanswer : s.answered callers id p a = some t) : Counted t := by
  have hphase : (s.calls p.caller).phase = .waiting id := by
    have := h.settled id p hput
    simpa [State.Settled, hnone] using this
  have hmap : (s.contributed p.caller).map Link.put =
      if p.fate matches .applied _ then [id] else [] := by
    obtain ⟨q, hq, -, -, hmap⟩ := hphase ▸ h.owes p.caller
    rw [hput] at hq
    cases hq
    exact hmap
  have hid : ∀ q, s.puts id = some q → q.caller = p.caller := by
    intro q hq
    rw [hput] at hq
    cases hq
    rfl
  cases a with
  | ok =>
    simp only [State.answered] at hanswer
    split at hanswer
    · rename_i version hfate
      cases hanswer
      refine h.change hlinked (p := { p with answer := some .ok }) (.inr hphase) hid
        ⟨version, hfate⟩ ?_
      change List.map _ _ = [(version, p.new)]
      rw [State.contributed_setCall, State.contributed_setPut (by simp [State.retried, hput, hnone])]
      -- The one link that counts is this write.
      simp only [hfate, if_true, List.map_eq_singleton_iff] at hmap
      obtain ⟨l, hl, hlput⟩ := hmap
      have hmem : l ∈ s.contributed p.caller := hl ▸ List.mem_singleton_self l
      obtain ⟨q, hq, -, hnew, happlied⟩ := hlinked.link l (List.mem_filter.mp hmem).1
      rw [hlput, hput] at hq
      cases hq
      rw [hfate] at happlied
      cases happlied
      rw [hl, List.map_singleton, ← hnew]
    · cases hanswer
  | preconditionFailed =>
    simp only [State.answered] at hanswer
    split at hanswer
    · cases hanswer
    · rename_i hfate
      cases hanswer
      obtain ⟨c, heq, hc⟩ := State.retry_eq callers (s.setPut id { p with
        fate := .refused, answer := some .preconditionFailed }) p.caller
      rw [heq]
      refine h.change hlinked (p := { p with
        fate := .refused, answer := some .preconditionFailed }) (.inr hphase) hid rfl ?_
      rcases hc with hc | ⟨e, hc⟩ <;> rw [hc]
      · have hnil : s.contributed p.caller = [] := by
          cases hp : p.fate with
          | applied version => exact absurd hp (hfate version)
          | underway => simpa [hp] using hmap
          | refused => simpa [hp] using hmap
        change List.filter _ _ = []
        refine Eq.trans ?_ hnil
        exact State.contributed_setPut (by simp [State.retried, hput, hnone]) p.caller
      · trivial
  | retryable =>
    cases hanswer
    obtain ⟨c, heq, hc⟩ := State.retry_eq callers
      (s.setPut id { p with answer := some .retryable }) p.caller
    rw [heq]
    refine h.change hlinked (p := { p with answer := some .retryable }) (.inr hphase) hid
      trivial ?_
    rcases hc with hc | ⟨e, hc⟩ <;> rw [hc]
    · change List.filter _ _ = []
      rw [List.filter_eq_nil_iff]
      intro l hl hcount
      simp only [Bool.and_eq_true, beq_iff_eq, Bool.not_eq_true'] at hcount
      obtain ⟨hcaller, hretried⟩ := hcount
      change (s.setPut id { p with answer := some .retryable }).retried l.put = false at hretried
      rw [State.retried_setPut] at hretried
      split_ifs at hretried with hlput
      · cases hretried
      · -- Whatever counted before was this write.
        have hmem : l.put ∈ (s.contributed p.caller).map Link.put :=
          List.mem_map_of_mem (List.mem_filter.mpr ⟨hl, by simp [hcaller, hretried]⟩)
        rw [hmap] at hmem
        split_ifs at hmem
        · exact hlput (List.mem_singleton.mp hmem)
        · cases hmem
    · trivial
  | failed =>
    cases hanswer
    refine h.change hlinked (p := { p with answer := some .failed }) (.inr hphase) hid ?_ trivial
    exact ⟨.store, by simp [State.setCall]⟩

theorem linked_answered (h : Linked codec callers key initial s) (hput : s.puts id = some p)
    {a : Answer} (hanswer : s.answered callers id p a = some t) :
    Linked codec callers key initial t := by
  have hvalid := h.valid id p hput
  have hretry : ∀ u : State κ T β, Linked codec callers key initial u →
      Linked codec callers key initial (u.retry callers p.caller) := by
    intro u hu
    obtain ⟨c, heq, -⟩ := State.retry_eq callers u p.caller
    rw [heq]
    exact hu.setCall _ c
  have hset : ∀ fate answer, (∀ version, p.fate = .applied version → fate = .applied version) →
      Linked codec callers key initial (s.setPut id { p with fate := fate, answer := answer }) := by
    intro fate answer hfate
    refine h.setPut ⟨hvalid.new, hvalid.basis⟩ fun q version hq happlied => ?_
    rw [hput] at hq
    cases hq
    exact ⟨rfl, rfl, hfate version happlied⟩
  cases a with
  | ok =>
    simp only [State.answered] at hanswer
    split at hanswer
    · cases hanswer
      exact (hset p.fate _ fun _ h => h).setCall _ _
    · cases hanswer
  | preconditionFailed =>
    simp only [State.answered] at hanswer
    split at hanswer
    · cases hanswer
    · rename_i hfate
      cases hanswer
      exact hretry _ (hset _ _ fun version hp => absurd hp (hfate version))
  | retryable =>
    cases hanswer
    exact hretry _ (hset p.fate _ fun _ h => h)
  | failed =>
    cases hanswer
    exact (hset p.fate _ fun _ h => h).setCall _ _

theorem linked_start {store : ObjectStore κ β} (h : store.Bounded) :
    Linked codec callers key ((store.objects key).map Prod.snd) (start store) where
  bounded := h
  valid := by simp [start]
  chain := trivial
  stored := rfl
  link := by simp [start]

theorem counted_start (store : ObjectStore κ β) : Counted (start store : State κ T β) where
  settled := by simp [start]
  owes := fun _ => rfl

theorem step_inv [DecidableEq κ] {e : Event} (hlinked : Linked codec callers key initial s)
    (hcounted : Counted s) (hstep : step codec callers key s e = some t) :
    Linked codec callers key initial t ∧ Counted t := by
  cases e with
  | read i id =>
    simp only [step] at hstep
    split at hstep
    · rename_i hphase hfresh
      cases hstep
      exact ⟨hlinked.read hfresh i, hcounted.read hlinked hphase hfresh⟩
    · cases hstep
  | readFailed i =>
    simp only [step] at hstep
    split at hstep
    · rename_i hphase
      cases hstep
      exact ⟨hlinked.setCall i _, hcounted.finish hphase (by simp)⟩
    · cases hstep
  | arrive id =>
    obtain ⟨p, hput, harrive⟩ := Option.bind_eq_some_iff.mp hstep
    split_ifs at harrive with hfate
    cases harrive
    exact ⟨hlinked.arrive hput hfate, hcounted.arrive hput hfate⟩
  | answer id a =>
    obtain ⟨p, hput, hanswer⟩ := Option.bind_eq_some_iff.mp hstep
    split_ifs at hanswer with hnone
    exact ⟨linked_answered hlinked hput hanswer, hcounted.answered hlinked hput hnone hanswer⟩

/-- In any interleaving the stored values form a chain, and a call that returns a value
contributed that link, besides the writes it was told to try again. -/
theorem casUpdate_chain [DecidableEq κ] {store : ObjectStore κ β} (hbounded : store.Bounded)
    {events : List Event} (hrun : Runs.run (step codec callers key) (start store) events = some s) :
    Chain codec callers ((store.objects key).map Prod.snd) s.links ∧
      (s.store.objects key).map Prod.snd =
        stored codec ((store.objects key).map Prod.snd) s.links ∧
      ∀ i r, (s.calls i).phase = .returned (.ok r) →
        (s.contributed i).map (fun l => (l.version, l.new)) = r.toList := by
  have hinv : Linked codec callers key ((store.objects key).map Prod.snd) s ∧ Counted s :=
    Runs.invariant (fun _ _ _ h _ hstep => step_inv h.1 h.2 hstep) hrun
      (Runs.allSteps_true _ _) ⟨linked_start hbounded, counted_start store⟩
  refine ⟨hinv.1.chain, hinv.1.stored, fun i r hphase => ?_⟩
  have howes := hinv.2.owes i
  rw [hphase] at howes
  exact howes

end

section Catalog

/-- A catalogue of repositories. -/
def catalog : Codec (List String) (List String) := ⟨id, some⟩

def emptyStore : ObjectStore Unit (List String) := ⟨fun _ => none, 0⟩

/-- Calls that each add their own repository; the third only adds to a catalogue that is there. -/
def adders (i : ℕ) : Caller (List String) :=
  ⟨1, fun _ current =>
    if i = 2 ∧ current = none then .ok none else .ok (some (current.getD [] ++ [s!"repo-{i}"]))⟩

def runAdders (events : List Event) : Option (State Unit (List String) (List String)) :=
  Runs.run (step catalog adders ()) (start emptyStore) events

/-- Two calls read the same absence; the second is there first. -/
theorem casUpdate_chain_two :
    ∃ s, runAdders [.read 0 0, .read 1 1, .arrive 1, .arrive 0, .answer 1 .ok,
        .answer 0 .preconditionFailed, .read 0 2, .arrive 2, .answer 2 .ok] = some s ∧
      s.store.objects () = some (1, ["repo-1", "repo-0"]) ∧
      (s.contributed 0).map (fun l => (l.version, l.new)) = [(1, ["repo-1", "repo-0"])] := by
  obtain ⟨s, hs, hobject, hphase⟩ : ∃ s, runAdders [.read 0 0, .read 1 1, .arrive 1, .arrive 0,
        .answer 1 .ok, .answer 0 .preconditionFailed, .read 0 2, .arrive 2, .answer 2 .ok] =
          some s ∧ s.store.objects () = some (1, ["repo-1", "repo-0"]) ∧
        (s.calls 0).phase = .returned (.ok (some (1, ["repo-1", "repo-0"]))) :=
    ⟨_, rfl, by decide, rfl⟩
  have hbounded : emptyStore.Bounded := by
    intro k v x hk
    cases hk
  exact ⟨s, hs, hobject, (casUpdate_chain hbounded hs).2.2 0 _ hphase⟩

/-- A call whose function declines returns without a link; one whose applied write was answered
with `Retryable` adds its repository twice. -/
theorem casUpdate_links_not_one :
    (∃ s, runAdders [.read 2 0] = some s ∧
      ((s.calls 2).phase matches .returned (.ok none)) ∧ s.links.length = 0) ∧
    ∃ s, runAdders [.read 0 0, .arrive 0, .answer 0 .retryable, .read 0 1, .arrive 1,
        .answer 1 .ok] = some s ∧
      ((s.calls 0).phase matches .returned (.ok (some (1, ["repo-0", "repo-0"])))) ∧
      (s.links.map Link.caller) = [0, 0] := by
  exact ⟨⟨_, rfl, rfl, rfl⟩, ⟨_, rfl, rfl, rfl⟩⟩

end Catalog

end Walgit.CasUpdate
