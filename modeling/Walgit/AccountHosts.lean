import Walgit.Followers
import Walgit.Names

/-!
# The account log on many hosts

Every host keeps a fold of the account log. A sync tells it where the head is, and the fold is
brought there from what it has or from the history of a checkpoint.
-/
namespace Walgit

open Catchup

/-- A host's handle of the account log. -/
structure AccountHost where
  opened : Bool
  /-- The head of the manifest it holds. -/
  head : ℕ
  /-- Where the history of that manifest's checkpoint ends. -/
  floor : ℕ
  accounts : Option AccountsState

/-- The committed account log and the hosts that follow it. -/
structure AccountLog where
  log : List LogEntry
  /-- What the next entry is verified against. -/
  state : AccountsState
  floor : ℕ
  hosts : ℕ → AccountHost

inductive AccountDeed where
  | commit (e : LogEntry)
  | checkpoint
  | openLog (h : ℕ)
  | sync (h : ℕ)
  | ensure (h : ℕ)
  /-- A sync or a publisher folds what it applied. -/
  | fold (h after last : ℕ)

namespace AccountHost

variable (log : List LogEntry) (host : AccountHost)

/-- `accounts_fold` of the entries in `(after, last]`. -/
def fold (after last : ℕ) : AccountHost :=
  { host with accounts :=
      (AccountsState.follow.step ⟨log, host.accounts⟩ (.fold after last)).bind Follower.state }

/-- The history of a checkpoint, unless the fold is newer. -/
def load (last : ℕ) : AccountHost :=
  { host with accounts :=
      (AccountsState.follow.step ⟨log, host.accounts⟩ (.load last)).bind Follower.state }

/-- `accounts_ensure`. -/
def ensure : AccountHost :=
  let fresh := (host.load log host.floor).fold log host.floor host.head
  match host.accounts with
  | some s =>
    if host.head ≤ s.seq then host
    else if host.floor ≤ s.seq then host.fold log s.seq host.head
    else fresh
  | none => fresh

end AccountHost

namespace AccountLog

/-- A bucket without an account log. -/
def init : AccountLog where
  log := []
  state := .empty
  floor := 0
  hosts _ := ⟨false, 0, 0, none⟩

variable (s : AccountLog)

def setHost (h : ℕ) (host : AccountHost) : AccountLog :=
  { s with hosts := Function.update s.hosts h host }

/-- The position of the last entry. -/
def head : ℕ := AccountsState.follow.head s.log

/-- `accounts_read`. -/
def read (h : ℕ) : AccountsState := (s.hosts h).accounts.getD .empty

variable [Text.CharTables]

/-- One step of the log and its hosts; `none` when it is not enabled. -/
def step (s : AccountLog) : AccountDeed → Option AccountLog
  | .commit e => (s.state.accept e).map fun state => { s with log := s.log ++ [e], state := state }
  | .checkpoint => some { s with floor := s.head }
  | .openLog h => some (s.setHost h ⟨true, s.head, s.floor, (s.hosts h).accounts⟩)
  | .sync h =>
    if (s.hosts h).opened then
      some (s.setHost h { s.hosts h with head := s.head, floor := s.floor })
    else none
  | .ensure h => some (s.setHost h ((s.hosts h).ensure s.log))
  | .fold h after last => some (s.setHost h ((s.hosts h).fold s.log after last))

/-- Where a call of `synced` is. -/
inductive SyncPhase where
  | syncing (started : Bool)
  | ensuring (started : Bool)
  /-- The log has no genesis entry yet. -/
  | starting
  | ready
  deriving DecidableEq

/-- One step of `synced` on a host; `e` is the genesis entry it may publish. -/
def synced (s : AccountLog) (h : ℕ) (e : LogEntry) : SyncPhase → Option (AccountLog × SyncPhase)
  | .syncing started => do
    let s ← (if (s.hosts h).opened then some s else step s (.openLog h))
    let s ← step s (.sync h)
    some (s, .ensuring started)
  | .ensuring started => (step s (.ensure h)).map fun s =>
    (s, if started || (s.read h).genesis then .ready else .starting)
  | .starting =>
    match e.account, step s (.commit e) with
    | [.genesis _], some s => some (s, .syncing true)
    -- Another instance wrote it first.
    | _, _ => if s.state.genesis then some (s, .syncing true) else none
  | .ready => none

end AccountLog

/-- A position of the log, or its start. -/
def Position (log : List LogEntry) (n : ℕ) : Prop := n = 0 ∨ ∃ e ∈ log, e.seq = n

theorem Position.append {log : List LogEntry} {n : ℕ} (h : Position log n) (e : LogEntry) :
    Position (log ++ [e]) n :=
  h.imp_right fun ⟨e', he', hseq⟩ => ⟨e', List.mem_append_left _ he', hseq⟩

theorem position_head (log : List LogEntry) : Position log (AccountsState.follow.head log) := by
  rcases List.eq_nil_or_concat log with rfl | ⟨front, last, hlast⟩
  · exact Or.inl rfl
  · rw [List.concat_eq_append] at hlast
    subst hlast
    exact Or.inr ⟨last, by simp, by simp [Fold.head, AccountsState.follow]⟩

/-- What a host holds lies on the log. -/
structure AccountHost.Valid (log : List LogEntry) (host : AccountHost) : Prop where
  head : Position log host.head
  floor : Position log host.floor
  reached : ∀ s ∈ host.accounts, AccountsState.follow.Reached log s

namespace AccountHost

variable {log : List LogEntry} {host : AccountHost}

theorem Valid.fold (h : host.Valid log) (hlog : AccountsState.follow.Ordered log)
    (after last : ℕ) : (host.fold log after last).Valid log :=
  ⟨h.head, h.floor, (Fold.step_reached (a := .fold after last) ⟨hlog, h.reached⟩ rfl).2⟩

theorem Valid.load (h : host.Valid log) (hlog : AccountsState.follow.Ordered log) (last : ℕ) :
    (host.load log last).Valid log :=
  ⟨h.head, h.floor, (Fold.step_reached (a := .load last) ⟨hlog, h.reached⟩ rfl).2⟩

theorem Valid.ensure (h : host.Valid log) (hlog : AccountsState.follow.Ordered log) :
    (host.ensure log).Valid log := by
  have hfresh := (h.load hlog host.floor).fold hlog host.floor host.head
  unfold AccountHost.ensure
  split
  · split_ifs
    · exact h
    · exact h.fold hlog _ _
    · exact hfresh
  · exact hfresh

theorem ensure_head (log : List LogEntry) (host : AccountHost) :
    (host.ensure log).head = host.head := by
  unfold ensure
  split
  · split_ifs <;> rfl
  · rfl

/-- Folding from where the state is brings it to the last entry of the range. -/
theorem fold_seq {s : AccountsState} (hs : host.accounts = some s) {after last : ℕ}
    (hafter : after ≤ s.seq) (hlast : Position log last) :
    ∃ t, (host.fold log after last).accounts = some t ∧ s.seq ≤ t.seq ∧ last ≤ t.seq := by
  let entries := log.filter fun e => after < e.seq && e.seq ≤ last
  have hle := AccountsState.follow.le_seq_foldl entries s
  refine ⟨entries.foldl AccountsState.foldEntry s, ?_, hle.1, ?_⟩
  · simp only [AccountHost.fold, Fold.step, hs, Option.map_some, Option.bind_some]
    exact congrArg some (if_neg (c := s.seq < after) (not_lt.mpr hafter))
  · rcases hlast with rfl | ⟨e, he, rfl⟩
    · exact Nat.zero_le _
    · rcases Nat.lt_or_ge after e.seq with hlt | hge
      · exact hle.2 e (List.mem_filter.mpr ⟨he, by simpa using hlt⟩)
      · exact (hge.trans hafter).trans hle.1

theorem load_seq {last : ℕ} (hlast : Position log last) :
    ∃ t, (host.load log last).accounts = some t ∧ last ≤ t.seq ∧
      ∀ s ∈ host.accounts, s.seq ≤ t.seq := by
  let entries := log.filter fun e => e.seq ≤ last
  have hle := AccountsState.follow.le_seq_foldl entries .empty
  have hfresh : last ≤ (entries.foldl AccountsState.foldEntry .empty).seq := by
    rcases hlast with rfl | ⟨e, he, rfl⟩
    · exact Nat.zero_le _
    · exact hle.2 e (List.mem_filter.mpr ⟨he, by simp⟩)
  have hreload : AccountsState.follow.reload (entries.foldl AccountsState.foldEntry .empty) =
      entries.foldl AccountsState.foldEntry .empty := AccountsState.follow.reloads entries
  cases hs : host.accounts with
  | none =>
    refine ⟨_, ?_, hfresh, by simp⟩
    simp only [AccountHost.load, Fold.step, hs, Option.bind_some]
    exact congrArg some hreload
  | some s =>
    by_cases hnewer : s.seq < (entries.foldl AccountsState.foldEntry .empty).seq
    · refine ⟨_, ?_, hfresh, fun s' hs' => (Option.some.inj hs') ▸ hnewer.le⟩
      simp only [AccountHost.load, Fold.step, hs, Option.bind_some]
      rw [← hreload] at hnewer
      exact (if_pos hnewer).trans (congrArg some hreload)
    · refine ⟨s, ?_, hfresh.trans (not_lt.mp hnewer), fun s' hs' => (Option.some.inj hs') ▸ le_rfl⟩
      simp only [AccountHost.load, Fold.step, hs, Option.bind_some]
      rw [← hreload] at hnewer
      exact if_neg hnewer

theorem ensure_seq (h : host.Valid log) :
    ∃ t, (host.ensure log).accounts = some t ∧ host.head ≤ t.seq ∧
      ∀ s ∈ host.accounts, s.seq ≤ t.seq := by
  have hfresh : ∃ t, ((host.load log host.floor).fold log host.floor host.head).accounts = some t ∧
      host.head ≤ t.seq ∧ ∀ s ∈ host.accounts, s.seq ≤ t.seq := by
    have hloaded : ∃ u, (host.load log host.floor).accounts = some u ∧ host.floor ≤ u.seq ∧
        ∀ s ∈ host.accounts, s.seq ≤ u.seq := load_seq h.floor
    obtain ⟨u, hu, hfloor, hold⟩ := hloaded
    obtain ⟨t, ht, hle, hhead⟩ := fold_seq hu hfloor h.head
    exact ⟨t, ht, hhead, fun s hs => (hold s hs).trans hle⟩
  unfold ensure
  split
  · rename_i s hs
    split_ifs with hhead hfloor
    · exact ⟨s, hs, hhead, fun s' hs' => (Option.some.inj (hs.symm.trans hs')) ▸ le_rfl⟩
    · obtain ⟨t, ht, hle, hlast⟩ := fold_seq hs le_rfl h.head
      exact ⟨t, ht, hlast, fun s' hs' => (Option.some.inj (hs.symm.trans hs')) ▸ hle⟩
    · simpa only [hs] using hfresh
  · rename_i hs
    simpa only [hs] using hfresh

end AccountHost

section Prefix

variable [Text.CharTables]

/-- A log of verified entries is ordered, and its state is its fold. -/
theorem accepted_run {log : List LogEntry} {t : AccountsState}
    (hrun : Runs.run AccountsState.accept .empty log = some t) :
    AccountsState.follow.Ordered log ∧ t = log.foldl AccountsState.foldEntry .empty ∧
      t.seq = AccountsState.follow.head log := by
  refine Runs.run_induction (P := fun log t => AccountsState.follow.Ordered log ∧
    t = log.foldl AccountsState.foldEntry .empty ∧ t.seq = AccountsState.follow.head log)
    ⟨⟨List.Pairwise.nil, by simp⟩, rfl, rfl⟩ (fun log t e u h hu => ?_) hrun
  obtain ⟨hlog, hfold, hseq⟩ := h
  simp only [AccountsState.accept] at hu
  split_ifs at hu with hverified
  cases hu
  have hnext : AccountsState.follow.head log < AccountsState.follow.pos e := hseq ▸ hverified.1
  refine ⟨hlog.commit hnext, ?_, ?_⟩
  · rw [List.foldl_append, ← hfold]
    rfl
  · have hmoves := AccountsState.follow.moves t e hverified.1
    simp only [Fold.head, List.getLast?_append, List.getLast?_singleton, Option.some_or,
      Option.map_some, Option.getD_some]
    exact hmoves

/-- What a prefix of the log misses comes after its fold. -/
theorem accepted_lt_of_mem_drop {log : List LogEntry} {t u : AccountsState} {n : ℕ}
    (hrun : Runs.run AccountsState.accept .empty log = some u)
    (ht : Runs.run AccountsState.accept .empty (log.take n) = some t) {e : LogEntry}
    (he : e ∈ log.drop n) : t.seq < e.seq := by
  have hlog := (accepted_run hrun).1
  rw [(accepted_run ht).2.2]
  rcases position_head (log.take n) with hzero | ⟨e', he', hseq⟩
  · exact hzero ▸ hlog.2 e (List.mem_of_mem_drop he)
  · have hsorted := hlog.1
    rw [← List.take_append_drop n log] at hsorted
    exact hseq ▸ (List.pairwise_append.mp hsorted).2.2 e' he' e he

/-- A fold that has reached the head of an older log is the fold of a prefix not shorter. -/
theorem reached_covers {old new : List LogEntry} {s t : AccountsState}
    (hrun : Runs.run AccountsState.accept .empty (old ++ new) = some t)
    (h : AccountsState.follow.Reached (old ++ new) s)
    (hhead : AccountsState.follow.head old ≤ s.seq) :
    ∃ n, old.length ≤ n ∧ n ≤ (old ++ new).length ∧
      Runs.run AccountsState.accept .empty ((old ++ new).take n) = some s := by
  obtain ⟨p, q, hsplit, hfold, hq⟩ := h
  have hold : AccountsState.follow.Ordered old := by
    rw [Runs.run_append] at hrun
    obtain ⟨u, hu, -⟩ := Option.bind_eq_some_iff.mp hrun
    exact (accepted_run hu).1
  refine ⟨p.length, ?_, by simp [hsplit], ?_⟩
  · -- The first entry behind the fold would be one of the older log.
    by_contra hlt
    obtain ⟨r, hr⟩ : ∃ r, p ++ r = old :=
      List.prefix_of_prefix_length_le (List.prefix_append p q) (hsplit ▸ List.prefix_append old new)
        (Nat.le_of_not_le hlt)
    cases r with
    | nil => exact hlt (by simp [← hr])
    | cons e r =>
      have hmem : e ∈ q := by
        rw [← hr, List.append_assoc, List.append_cancel_left_eq] at hsplit
        exact hsplit ▸ List.mem_cons_self
      have hbound := Fold.pos_le_head hold (e := e) (by simp [← hr])
      exact absurd (hq e hmem) (not_lt.mpr (hbound.trans hhead))
  · rw [hsplit, Runs.run_append] at hrun
    obtain ⟨u, hu, -⟩ := Option.bind_eq_some_iff.mp hrun
    rw [hsplit, List.take_left, hu, hfold, (accepted_run hu).2.1]
    rfl

end Prefix

namespace AccountLog

/-- The log only grows, and no host goes back. -/
structure Grows (s s' : AccountLog) : Prop where
  log : ∃ new, s'.log = s.log ++ new
  heads : ∀ h, (s.hosts h).head ≤ (s'.hosts h).head
  folds : ∀ h t, (s.hosts h).accounts = some t →
    ∃ t', (s'.hosts h).accounts = some t' ∧ t.seq ≤ t'.seq

theorem Grows.refl (s : AccountLog) : Grows s s :=
  ⟨⟨[], by simp⟩, fun _ => le_rfl, fun _ t ht => ⟨t, ht, le_rfl⟩⟩

theorem Grows.trans {s t u : AccountLog} (h : Grows s t) (h' : Grows t u) : Grows s u := by
  obtain ⟨new, hnew⟩ := h.log
  obtain ⟨more, hmore⟩ := h'.log
  refine ⟨⟨new ++ more, by rw [hmore, hnew, List.append_assoc]⟩,
    fun k => (h.heads k).trans (h'.heads k), fun k x hx => ?_⟩
  obtain ⟨y, hy, hxy⟩ := h.folds k x hx
  obtain ⟨z, hz, hyz⟩ := h'.folds k y hy
  exact ⟨z, hz, hxy.trans hyz⟩

theorem Grows.take {a a' : AccountLog} (hgrows : Grows a a') {n : ℕ} (hn : n ≤ a.log.length) :
    a'.log.take n = a.log.take n := by
  obtain ⟨new, hnew⟩ := hgrows.log
  rw [hnew, List.take_append_of_le_length hn]

theorem Grows.length {a a' : AccountLog} (hgrows : Grows a a') : a.log.length ≤ a'.log.length := by
  obtain ⟨new, hnew⟩ := hgrows.log
  rw [hnew, List.length_append]
  omega

theorem grows_setHost {s : AccountLog} (k : ℕ) {host : AccountHost}
    (hhead : (s.hosts k).head ≤ host.head) (hfold : ∀ t, (s.hosts k).accounts = some t →
      ∃ t', host.accounts = some t' ∧ t.seq ≤ t'.seq) : Grows s (s.setHost k host) := by
  refine ⟨⟨[], by simp [AccountLog.setHost]⟩, fun j => ?_, fun j t ht => ?_⟩
  · simp only [AccountLog.setHost, Function.update_apply]
    split_ifs with hj
    · exact hj ▸ hhead
    · exact le_rfl
  · simp only [AccountLog.setHost, Function.update_apply]
    split_ifs with hj
    · exact hfold t (hj ▸ ht)
    · exact ⟨t, ht, le_rfl⟩

variable [Text.CharTables]

structure Inv (s : AccountLog) : Prop where
  run : Runs.run AccountsState.accept .empty s.log = some s.state
  floor : Position s.log s.floor
  hosts : ∀ h, (s.hosts h).Valid s.log

theorem inv_init : Inv init := by
  refine ⟨rfl, Or.inl rfl, fun h => ⟨Or.inl rfl, Or.inl rfl, ?_⟩⟩
  rintro s ⟨⟩

variable {s s' : AccountLog}

theorem Inv.setHost (h : s.Inv) (k : ℕ) {host : AccountHost} (hvalid : host.Valid s.log) :
    (s.setHost k host).Inv := by
  refine ⟨h.run, h.floor, fun j => ?_⟩
  simp only [AccountLog.setHost, Function.update_apply]
  split_ifs
  · exact hvalid
  · exact h.hosts j

theorem Inv.le_head (h : s.Inv) (k : ℕ) : (s.hosts k).head ≤ s.head := by
  rcases (h.hosts k).head with hzero | ⟨e, he, hseq⟩
  · rw [hzero]
    exact Nat.zero_le _
  · exact hseq ▸ Fold.pos_le_head (accepted_run h.run).1 he

theorem step_inv {d : AccountDeed} (h : s.Inv) (hstep : step s d = some s') :
    s'.Inv ∧ Grows s s' := by
  have hlog := (accepted_run h.run).1
  cases d with
  | commit e =>
    obtain ⟨state, hstate, rfl⟩ := Option.map_eq_some_iff.mp hstep
    have hnext : AccountsState.follow.head s.log < e.seq := by
      simp only [AccountsState.accept] at hstate
      split_ifs at hstate with hverified
      exact (accepted_run h.run).2.2 ▸ hverified.1
    refine ⟨⟨?_, h.floor.append e, fun k => ⟨(h.hosts k).head.append e, (h.hosts k).floor.append e,
      fun t ht => ((h.hosts k).reached t ht).append (hlog.commit hnext)⟩⟩,
      ⟨⟨[e], rfl⟩, fun _ => le_rfl, fun k t ht => ⟨t, ht, le_rfl⟩⟩⟩
    rw [Runs.run_append, h.run]
    simp [Runs.run, hstate]
  | checkpoint =>
    cases hstep
    exact ⟨⟨h.run, position_head s.log, h.hosts⟩,
      ⟨⟨[], by simp⟩, fun _ => le_rfl, fun _ t ht => ⟨t, ht, le_rfl⟩⟩⟩
  | openLog k =>
    cases hstep
    exact ⟨h.setHost k ⟨position_head s.log, h.floor, (h.hosts k).reached⟩,
      grows_setHost k (h.le_head k) fun t ht => ⟨t, ht, le_rfl⟩⟩
  | sync k =>
    simp only [step] at hstep
    split_ifs at hstep
    cases hstep
    exact ⟨h.setHost k ⟨position_head s.log, h.floor, (h.hosts k).reached⟩,
      grows_setHost k (h.le_head k) fun t ht => ⟨t, ht, le_rfl⟩⟩
  | ensure k =>
    cases hstep
    obtain ⟨t, ht, -, hold⟩ := AccountHost.ensure_seq (h.hosts k)
    refine ⟨h.setHost k ((h.hosts k).ensure hlog),
      grows_setHost k (le_of_eq ?_) fun u hu => ⟨t, ht, hold u hu⟩⟩
    exact ((s.hosts k).ensure_head s.log).symm
  | fold k after last =>
    cases hstep
    refine ⟨h.setHost k ((h.hosts k).fold hlog after last), grows_setHost k le_rfl fun t ht => ?_⟩
    simp only [AccountHost.fold, Fold.step, ht, Option.map_some, Option.bind_some]
    refine ⟨_, rfl, ?_⟩
    unfold Fold.foldFrom
    split_ifs
    · exact le_rfl
    · exact (AccountsState.follow.le_seq_foldl _ t).1

/-- A read of a fold is the fold of a prefix of the log. -/
theorem read_prefix {a : AccountLog} (ha : a.Inv) (h : ℕ) {t : AccountsState}
    (ht : (a.hosts h).accounts = some t) {old : List LogEntry} (hold : old <+: a.log)
    (hhead : AccountsState.follow.head old ≤ t.seq) :
    ∃ n, old.length ≤ n ∧ n ≤ a.log.length ∧
      Runs.run AccountsState.accept .empty (a.log.take n) = some t := by
  obtain ⟨new, hnew⟩ := hold
  have hreached := (ha.hosts h).reached t ht
  rw [← hnew] at hreached ⊢
  exact reached_covers (hnew ▸ ha.run) hreached hhead

/-- What a host reads is the fold of a prefix of the log, which the log's state keeps. -/
theorem read_keeps {a : AccountLog} (ha : a.Inv) (h : ℕ) :
    (a.read h).Indexed ∧ AccountsState.Keeps (a.read h) a.state := by
  have hprefix : ∃ n, Runs.run AccountsState.accept .empty (a.log.take n) = some (a.read h) := by
    cases haccounts : (a.hosts h).accounts with
    | none => exact ⟨0, by simp [AccountLog.read, haccounts, Runs.run]⟩
    | some t =>
      obtain ⟨n, -, -, hrun⟩ := read_prefix ha h haccounts List.nil_prefix (Nat.zero_le _)
      exact ⟨n, by simpa [AccountLog.read, haccounts] using hrun⟩
  obtain ⟨n, hrun⟩ := hprefix
  have hindexed := (AccountsState.Keeps.run AccountsState.indexed_empty hrun).indexed
  have hwhole := ha.run
  rw [← List.take_append_drop n a.log, Runs.run_append, hrun] at hwhole
  exact ⟨hindexed, .run hindexed hwhole⟩

theorem synced_inv {h : ℕ} {e : LogEntry} {p p' : SyncPhase} (hinv : s.Inv)
    (hstep : s.synced h e p = some (s', p')) : s'.Inv ∧ Grows s s' := by
  cases p with
  | syncing started =>
    obtain ⟨t, ht, hstep⟩ := Option.bind_eq_some_iff.mp hstep
    obtain ⟨u, hu, hstep⟩ := Option.bind_eq_some_iff.mp hstep
    cases hstep
    have hopen : t.Inv ∧ Grows s t := by
      split_ifs at ht
      · cases ht
        exact ⟨hinv, .refl s⟩
      · exact step_inv hinv ht
    obtain ⟨hinv', hgrows⟩ := step_inv hopen.1 hu
    exact ⟨hinv', hopen.2.trans hgrows⟩
  | ensuring started =>
    simp only [synced, Option.map_eq_some_iff] at hstep
    obtain ⟨t, ht, heq⟩ := hstep
    cases heq
    exact step_inv hinv ht
  | starting =>
    simp only [synced] at hstep
    split at hstep
    · rename_i hcommit
      cases hstep
      exact step_inv hinv hcommit
    · split_ifs at hstep
      cases hstep
      exact ⟨hinv, .refl s⟩
  | ready => cases hstep

/-- What a call of `synced` knows of a position the log had reached when it began. -/
def SyncPhase.Fresh (s : AccountLog) (h n : ℕ) : SyncPhase → Prop
  | .ensuring _ => n ≤ (s.hosts h).head
  | .ready => ∃ t, (s.hosts h).accounts = some t ∧ n ≤ t.seq
  | .syncing _ | .starting => True

omit [Text.CharTables] in
theorem SyncPhase.Fresh.grows {h n : ℕ} {p : SyncPhase} (hfresh : p.Fresh s h n)
    (hgrows : Grows s s') : p.Fresh s' h n := by
  cases p with
  | ensuring started => exact le_trans hfresh (hgrows.heads h)
  | ready =>
    obtain ⟨t, ht, hn⟩ := hfresh
    obtain ⟨t', ht', hle⟩ := hgrows.folds h t ht
    exact ⟨t', ht', hn.trans hle⟩
  | _ => trivial

theorem synced_fresh {h n : ℕ} {e : LogEntry} {p p' : SyncPhase} (hinv : s.Inv) (hn : n ≤ s.head)
    (hfresh : p.Fresh s h n) (hstep : s.synced h e p = some (s', p')) : p'.Fresh s' h n := by
  cases p with
  | syncing started =>
    obtain ⟨t, ht, hstep⟩ := Option.bind_eq_some_iff.mp hstep
    obtain ⟨u, hu, hstep⟩ := Option.bind_eq_some_iff.mp hstep
    cases hstep
    have hhead : t.head = s.head := by
      split_ifs at ht
      · cases ht
        rfl
      · cases ht
        rfl
    simp only [step] at hu
    split_ifs at hu
    cases hu
    simp only [SyncPhase.Fresh, setHost, Function.update_self]
    exact hhead ▸ hn
  | ensuring started =>
    simp only [synced, Option.map_eq_some_iff] at hstep
    obtain ⟨t, ht, heq⟩ := hstep
    cases heq
    obtain ⟨u, hu, hhead, -⟩ := AccountHost.ensure_seq (hinv.hosts h)
    cases ht
    split_ifs
    · exact ⟨u, by simp [setHost, hu], le_trans hfresh hhead⟩
    · trivial
  | starting =>
    simp only [synced] at hstep
    split at hstep
    · cases hstep
      trivial
    · split_ifs at hstep
      cases hstep
      trivial
  | ready => cases hstep

end AccountLog

end Walgit
