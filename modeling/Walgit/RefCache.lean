import Walgit.BinarySearch
import Walgit.Snapshots

/-!
# The refs cache

`LocalRepo` keeps a snapshot of the refs and the transactions applied since. A push looks names
up through an overlay of these, a listing patches the snapshot, and a historical read replays the
log over an ordered map. All three are the fold of the transactions.
-/
namespace SortedMap

variable {κ α β : Type} [LinearOrder κ]

theorem insertEntry_between {k : κ} (v : α) {before after : List (κ × α)}
    (hbefore : ∀ b ∈ before, b.1 < k) (hafter : ∀ a ∈ after, k < a.1) :
    insertEntry k v (before ++ after) = before ++ (k, v) :: after := by
  induction before with
  | nil =>
    cases after with
    | nil => rfl
    | cons a after => simp [insertEntry, hafter a List.mem_cons_self]
  | cons b before ih =>
    obtain ⟨hb, hrest⟩ := List.forall_mem_cons.mp hbefore
    simp only [List.cons_append, insertEntry, if_neg hb.not_gt, if_neg hb.ne', ih hrest]

theorem insertEntry_at {k : κ} (v w : α) {before after : List (κ × α)}
    (hbefore : ∀ b ∈ before, b.1 < k) :
    insertEntry k v (before ++ (k, w) :: after) = before ++ (k, v) :: after := by
  induction before with
  | nil => simp [insertEntry]
  | cons b before ih =>
    obtain ⟨hb, hrest⟩ := List.forall_mem_cons.mp hbefore
    simp only [List.cons_append, insertEntry, if_neg hb.not_gt, if_neg hb.ne', ih hrest]

/-- The map with values of another type. -/
def mapTo (m : SortedMap κ α) (f : α → β) : SortedMap κ β :=
  ⟨m.entries.map fun b => (b.1, f b.2), List.pairwise_map.mpr m.sorted⟩

theorem find?_mapTo (m : SortedMap κ α) (f : α → β) (k : κ) :
    (m.mapTo f).find? k = (m.find? k).map f := by
  have hlookup : ∀ l : List (κ × α), lookup k (l.map fun b => (b.1, f b.2)) =
      (lookup k l).map f := by
    intro l
    induction l with
    | nil => rfl
    | cons b l ih =>
      simp only [List.map_cons, lookup, ih]
      split_ifs <;> rfl
  exact hlookup m.entries

theorem entries_insert (m : SortedMap κ α) (k : κ) (v : α) :
    (m.insert k v).entries = insertEntry k v m.entries := rfl

theorem entries_erase (m : SortedMap κ α) (k : κ) :
    (m.erase k).entries = m.entries.filter fun b => b.1 ≠ k := rfl

theorem mapTo_insert (m : SortedMap κ α) (k : κ) (v : α) (f : α → β) :
    (m.insert k v).mapTo f = (m.mapTo f).insert k (f v) := by
  refine ext_find? fun j => ?_
  simp only [find?_mapTo, find?_insert]
  split_ifs <;> rfl

theorem mapTo_erase (m : SortedMap κ α) (k : κ) (f : α → β) :
    (m.erase k).mapTo f = (m.mapTo f).erase k := by
  refine ext_find? fun j => ?_
  simp only [find?_mapTo, find?_erase]
  split_ifs <;> rfl

/-- A sorted list of bindings is its own map. -/
theorem ofList_entries (m : SortedMap κ α) : ofList m.entries = m := by
  have hfold : ∀ (l : List (κ × α)) (n : SortedMap κ α) (k : κ),
      l.Pairwise (fun a b => a.1 < b.1) →
      (l.foldl (fun n b => n.insert b.1 b.2) n).find? k = (lookup k l).or (n.find? k) := by
    intro l
    induction l with
    | nil => exact fun n k _ => rfl
    | cons b l ih =>
      intro n k hsorted
      obtain ⟨hb, hl⟩ := List.pairwise_cons.mp hsorted
      rw [List.foldl_cons, ih _ _ hl, find?_insert, lookup]
      by_cases hk : b.1 = k
      · have hnone : lookup k l = none := by
          by_contra hne
          obtain ⟨v, hv⟩ := Option.ne_none_iff_exists'.mp hne
          have hlt := hb _ ((lookup_eq_some_iff hl).mp hv)
          exact hlt.ne hk
        simp [hk, hnone]
      · simp [hk, Ne.symm hk]
  refine ext_find? fun k => ?_
  rw [ofList, hfold _ _ _ m.sorted, find?_empty, Option.or_none]
  rfl

end SortedMap

namespace Walgit

/-- The refs of a copy, and the branch HEAD points at. -/
structure RefSnapshotData where
  refs : List Ref
  headTarget : String
  deriving DecidableEq, Repr

namespace RefSnapshotData

/-- Sorted by name, no name twice. -/
def Sorted (d : RefSnapshotData) : Prop := d.refs.Pairwise fun a b => a.name < b.name

instance (d : RefSnapshotData) : Decidable d.Sorted :=
  inferInstanceAs (Decidable (d.refs.Pairwise fun a b => a.name < b.name))

/-- The entry of a name, by binary search. -/
def find? (d : RefSnapshotData) (name : String) : Option Ref :=
  match BinarySearch.search Ref.name d.refs name with
  | .ok i => d.refs[i]?
  | .error _ => none

/-- One update of `patch_snapshot`. `peel` is what the update's tag peels to; there is none when
the repository cannot be opened to find out. -/
def patchUpdate (peel : RefUpdate → Option String) (d : RefSnapshotData) (u : RefUpdate) :
    Option RefSnapshotData :=
  if u.symbolic then
    some (if u.name = "HEAD" then { d with headTarget := u.newSymbolicTarget } else d)
  else
    match BinarySearch.search Ref.name d.refs u.name, isNullOid u.newOid with
    | .ok i, true => some { d with refs := d.refs.eraseIdx i }
    | .error _, true => some d
    | .ok i, false => (peel u).map fun peeled =>
      { d with refs := d.refs.set i ⟨u.name, u.newOid, peeled⟩ }
    | .error i, false => (peel u).map fun peeled =>
      { d with refs := d.refs.insertIdx i ⟨u.name, u.newOid, peeled⟩ }

/-- The snapshot with the transactions applied in order. -/
def patchSnapshot (peel : RefUpdate → Option String) (base : RefSnapshotData)
    (txns : List RefTransaction) : Option RefSnapshotData :=
  (txns.flatMap RefTransaction.updates).foldlM (patchUpdate peel) base

/-- One update of the ordered map and the HEAD of `replay_refs`. -/
def replayUpdate (peeled : RefUpdate → String) (acc : SortedMap String Ref × String)
    (u : RefUpdate) : SortedMap String Ref × String :=
  if u.symbolic then
    if u.name = "HEAD" then (acc.1, u.newSymbolicTarget) else acc
  else if isNullOid u.newOid then (acc.1.erase u.name, acc.2)
  else (acc.1.insert u.name ⟨u.name, u.newOid, peeled u⟩, acc.2)

/-- The map and the HEAD that a replay starts from. -/
def replayStart (d : RefSnapshotData) : SortedMap String Ref × String :=
  (.ofList (d.refs.map fun r => (r.name, r)), d.headTarget)

/-- The transactions replayed over a snapshot. -/
def replayRefs (peeled : RefUpdate → String) (base : RefSnapshotData)
    (txns : List RefTransaction) : RefSnapshotData :=
  let acc := (txns.flatMap RefTransaction.updates).foldl (replayUpdate peeled) base.replayStart
  ⟨acc.1.values, acc.2⟩

end RefSnapshotData

/-- Lookups over a shared snapshot and an overlay of pending changes. -/
structure SnapshotView where
  base : RefSnapshotData
  overlay : SortedMap String (Option String)
  pendingHead : Option String
  deriving DecidableEq

namespace SnapshotView

def new (base : RefSnapshotData) : SnapshotView := ⟨base, .empty, none⟩

def headTarget (v : SnapshotView) : String := v.pendingHead.getD v.base.headTarget

/-- HEAD's object id through its target; a HEAD that names itself has none (the source does not
return there). -/
def headOid (v : SnapshotView) : Option String :=
  if v.headTarget = "" then none
  else match v.overlay.find? v.headTarget with
    | some value => value
    | none => if v.headTarget = "HEAD" then none else (v.base.find? v.headTarget).map Ref.oid

/-- The object id of a name; HEAD is read through its target. -/
def get (v : SnapshotView) (name : String) : Option String :=
  match v.overlay.find? name with
  | some value => value
  | none => if name = "HEAD" then v.headOid else (v.base.find? name).map Ref.oid

/-- One pending update as `ref_view` overlays it. -/
def applyUpdate (v : SnapshotView) (u : RefUpdate) : SnapshotView :=
  if u.symbolic then
    if u.name = "HEAD" then { v with pendingHead := some u.newSymbolicTarget } else v
  else if isNullOid u.newOid then { v with overlay := v.overlay.insert u.name none }
  else { v with overlay := v.overlay.insert u.name (some u.newOid) }

/-- `ref_view` of a cache with a snapshot and pending transactions. -/
def refView (base : RefSnapshotData) (pending : List RefTransaction) : SnapshotView :=
  (pending.flatMap RefTransaction.updates).foldl applyUpdate (new base)

end SnapshotView

namespace RefSnapshotData

variable {d d' : RefSnapshotData}

def byName (refs : List Ref) : List (String × Ref) := refs.map fun r => (r.name, r)

theorem pairwise_byName {refs : List Ref} : (byName refs).Pairwise (fun a b => a.1 < b.1) ↔
    refs.Pairwise fun a b => a.name < b.name := List.pairwise_map

/-- The snapshot as a map. -/
def table (d : RefSnapshotData) (h : d.Sorted) : SortedMap String Ref :=
  ⟨byName d.refs, pairwise_byName.mpr h⟩

/-- The refs and the HEAD that a snapshot stands for. -/
def refState (d : RefSnapshotData) (h : d.Sorted) : RefState :=
  ⟨(d.table h).mapTo Ref.oid, d.headTarget⟩

theorem find?_eq_table (h : d.Sorted) (name : String) : d.find? name = (d.table h).find? name := by
  unfold find?
  cases hsearch : BinarySearch.search Ref.name d.refs name with
  | ok i =>
    obtain ⟨before, r, after, hrefs, rfl, rfl⟩ := BinarySearch.search_ok hsearch
    have hmem : (r.name, r) ∈ (d.table h).entries := List.mem_map_of_mem (hrefs ▸ by simp)
    rw [SortedMap.find?_eq_some_of_mem hmem]
    simp [hrefs]
  | error i =>
    obtain ⟨before, after, hrefs, -, hbefore, hafter⟩ := BinarySearch.search_error h hsearch
    symm
    by_contra hne
    obtain ⟨r, hr⟩ := Option.ne_none_iff_exists'.mp hne
    obtain ⟨r', hr', heq⟩ := List.mem_map.mp (SortedMap.find?_eq_some_iff.mp hr)
    simp only [Prod.mk.injEq] at heq
    rw [hrefs, List.mem_append] at hr'
    rcases hr' with hr' | hr'
    · exact (hbefore r' hr').ne heq.1
    · exact (hafter r' hr').ne' heq.1

/-- A snapshot with the bindings of a map is sorted, and is that map. -/
theorem sorted_of_entries {m : SortedMap String Ref} (h : byName d.refs = m.entries) :
    ∃ hd : d.Sorted, d.table hd = m := by
  obtain ⟨entries, hsorted⟩ := m
  subst h
  exact ⟨pairwise_byName.mp hsorted, rfl⟩

/-- Refs under other names are not touched by an erasure. -/
theorem filter_byName {refs : List Ref} {name : String} (h : ∀ r ∈ refs, r.name ≠ name) :
    (byName refs).filter (fun b => b.1 ≠ name) = byName refs := by
  refine List.filter_eq_self.mpr fun b hb => ?_
  obtain ⟨r, hr, rfl⟩ := List.mem_map.mp hb
  simpa using h r hr

theorem byName_append (refs refs' : List Ref) :
    byName (refs ++ refs') = byName refs ++ byName refs' := List.map_append

theorem forall_byName {refs : List Ref} {p : String → Prop} (h : ∀ r ∈ refs, p r.name) :
    ∀ b ∈ byName refs, p b.1 := by
  intro b hb
  obtain ⟨r, hr, rfl⟩ := List.mem_map.mp hb
  exact h r hr

/-- What a plain update makes of the bindings. -/
def Wrote (d d' : RefSnapshotData) (h : d.Sorted) (u : RefUpdate) : Prop :=
  d'.headTarget = d.headTarget ∧
    if isNullOid u.newOid then byName d'.refs = ((d.table h).erase u.name).entries
    else ∃ p, byName d'.refs = ((d.table h).insert u.name ⟨u.name, u.newOid, p⟩).entries

/-- The name is there: the entry at its position is removed or replaced. -/
theorem wrote_found {u : RefUpdate} {before after : List Ref} {r : Ref} (h : d.Sorted)
    (hrefs : d.refs = before ++ r :: after) (hname : r.name = u.name) {p : String} :
    (isNullOid u.newOid = true → Wrote d ⟨before ++ after, d.headTarget⟩ h u) ∧
    (isNullOid u.newOid = false →
      Wrote d ⟨before ++ ⟨u.name, u.newOid, p⟩ :: after, d.headTarget⟩ h u) := by
  have hsplit : (before ++ r :: after).Pairwise fun a b => a.name < b.name := hrefs ▸ h
  obtain ⟨-, hlater, hearlier⟩ := List.pairwise_append.mp hsplit
  have hbefore : ∀ b ∈ before, b.name < u.name := fun b hb =>
    hname ▸ hearlier b hb r List.mem_cons_self
  have hafter : ∀ a ∈ after, u.name < a.name := fun a ha =>
    hname ▸ (List.pairwise_cons.mp hlater).1 a ha
  have hentries : (d.table h).entries = byName before ++ (u.name, r) :: byName after := by
    simp only [table, hrefs, byName_append]
    rw [← hname]
    rfl
  refine ⟨fun hnull => ⟨rfl, ?_⟩, fun hnull => ⟨rfl, ?_⟩⟩
  · rw [if_pos hnull, SortedMap.entries_erase, hentries, List.filter_append,
      List.filter_cons_of_neg (by simp), filter_byName fun b hb => (hbefore b hb).ne,
      filter_byName fun a ha => (hafter a ha).ne', byName_append]
  · rw [hnull, if_neg (by simp)]
    refine ⟨p, ?_⟩
    rw [SortedMap.entries_insert, hentries,
      SortedMap.insertEntry_at _ _ (forall_byName (p := (· < u.name)) hbefore)]
    exact byName_append before _

/-- The name is not there: nothing is removed, or an entry is inserted where it belongs. -/
theorem wrote_missing {u : RefUpdate} {before after : List Ref} (h : d.Sorted)
    (hrefs : d.refs = before ++ after) (hbefore : ∀ b ∈ before, b.name < u.name)
    (hafter : ∀ a ∈ after, u.name < a.name) {p : String} :
    (isNullOid u.newOid = true → Wrote d d h u) ∧
    (isNullOid u.newOid = false →
      Wrote d ⟨before ++ ⟨u.name, u.newOid, p⟩ :: after, d.headTarget⟩ h u) := by
  refine ⟨fun hnull => ⟨rfl, ?_⟩, fun hnull => ⟨rfl, ?_⟩⟩
  · rw [if_pos hnull]
    refine (filter_byName fun r hr => ?_).symm
    rw [hrefs, List.mem_append] at hr
    rcases hr with hr | hr
    · exact (hbefore r hr).ne
    · exact (hafter r hr).ne'
  · rw [hnull, if_neg (by simp)]
    refine ⟨p, ?_⟩
    have hentries : (d.table h).entries = byName before ++ byName after := by
      simp only [table, hrefs, byName_append]
    rw [SortedMap.entries_insert, hentries,
      SortedMap.insertEntry_between _ (forall_byName (p := (· < u.name)) hbefore)
        (forall_byName (p := (u.name < ·)) hafter)]
    exact byName_append before _

theorem insertIdx_between {α : Type} (before after : List α) (a : α) :
    (before ++ after).insertIdx before.length a = before ++ a :: after := by
  induction before with
  | nil => simp
  | cons b before ih => simp [ih]

theorem patchUpdate_wrote {peel : RefUpdate → Option String} {u : RefUpdate} (h : d.Sorted)
    (hplain : u.symbolic = false) (hpatch : patchUpdate peel d u = some d') : Wrote d d' h u := by
  simp only [patchUpdate, hplain, Bool.false_eq_true, if_false] at hpatch
  cases hsearch : BinarySearch.search Ref.name d.refs u.name with
  | ok i =>
    obtain ⟨before, r, after, hrefs, rfl, hname⟩ := BinarySearch.search_ok hsearch
    cases hnull : isNullOid u.newOid with
    | true =>
      simp only [hsearch, hnull, Option.some.injEq] at hpatch
      subst hpatch
      have herase : d.refs.eraseIdx before.length = before ++ after := by
        rw [hrefs, List.eraseIdx_append_of_length_le le_rfl, Nat.sub_self, List.eraseIdx_cons_zero]
      rw [herase]
      exact (wrote_found (p := "") h hrefs hname).1 hnull
    | false =>
      simp only [hsearch, hnull, Option.map_eq_some_iff] at hpatch
      obtain ⟨p, -, rfl⟩ := hpatch
      simpa [hrefs] using (wrote_found (p := p) h hrefs hname).2 hnull
  | error i =>
    obtain ⟨before, after, hrefs, rfl, hbefore, hafter⟩ := BinarySearch.search_error h hsearch
    cases hnull : isNullOid u.newOid with
    | true =>
      simp only [hsearch, hnull, Option.some.injEq] at hpatch
      subst hpatch
      exact (wrote_missing (p := "") h hrefs hbefore hafter).1 hnull
    | false =>
      simp only [hsearch, hnull, Option.map_eq_some_iff] at hpatch
      obtain ⟨p, -, rfl⟩ := hpatch
      have hinsert : d.refs.insertIdx before.length ⟨u.name, u.newOid, p⟩ =
          before ++ ⟨u.name, u.newOid, p⟩ :: after := by rw [hrefs, insertIdx_between]
      rw [hinsert]
      exact (wrote_missing (p := p) h hrefs hbefore hafter).2 hnull

/-- Patching one update is one step of the fold, and keeps the order. -/
theorem patchUpdate_refState {peel : RefUpdate → Option String} {u : RefUpdate} (h : d.Sorted)
    (hpatch : patchUpdate peel d u = some d') :
    ∃ h' : d'.Sorted, d'.refState h' = (d.refState h).applyUpdate u := by
  by_cases hs : u.symbolic = true
  · simp only [patchUpdate, if_pos hs, Option.some.injEq] at hpatch
    subst hpatch
    unfold RefState.applyUpdate
    rw [if_pos hs]
    split_ifs
    · exact ⟨h, rfl⟩
    · exact ⟨h, rfl⟩
  · obtain ⟨hhead, hwrote⟩ := patchUpdate_wrote h (by simpa using hs) hpatch
    unfold RefState.applyUpdate
    rw [if_neg hs]
    split_ifs at hwrote ⊢ with hnull
    · obtain ⟨h', htable⟩ := sorted_of_entries hwrote
      exact ⟨h', by rw [refState, htable, SortedMap.mapTo_erase, hhead, refState]⟩
    · obtain ⟨p, hinsert⟩ := hwrote
      obtain ⟨h', htable⟩ := sorted_of_entries hinsert
      exact ⟨h', by rw [refState, htable, SortedMap.mapTo_insert, hhead, refState]⟩

theorem patchSnapshot_refState {peel : RefUpdate → Option String} {txns : List RefTransaction}
    (h : d.Sorted) (hpatch : patchSnapshot peel d txns = some d') :
    ∃ h' : d'.Sorted, d'.refState h' = (d.refState h).applyTxns txns := by
  rw [RefState.applyTxns_eq]
  unfold patchSnapshot at hpatch
  generalize txns.flatMap RefTransaction.updates = us at hpatch
  induction us generalizing d with
  | nil =>
    cases hpatch
    exact ⟨h, rfl⟩
  | cons u us ih =>
    rw [List.foldlM_cons] at hpatch
    obtain ⟨d₁, hd₁, hrest⟩ := Option.bind_eq_some_iff.mp hpatch
    obtain ⟨h₁, hstep⟩ := patchUpdate_refState h hd₁
    obtain ⟨h', hall⟩ := ih h₁ hrest
    exact ⟨h', by rw [hall, hstep, List.foldl_cons]⟩

/-- Replaying one update is one step of the fold. -/
theorem replayUpdate_oids {peeled : RefUpdate → String} (acc : SortedMap String Ref × String)
    (u : RefUpdate) :
    (⟨(replayUpdate peeled acc u).1.mapTo Ref.oid, (replayUpdate peeled acc u).2⟩ : RefState) =
      (⟨acc.1.mapTo Ref.oid, acc.2⟩ : RefState).applyUpdate u := by
  unfold replayUpdate RefState.applyUpdate
  split_ifs
  · rfl
  · rfl
  · rw [SortedMap.mapTo_erase]
  · rw [SortedMap.mapTo_insert]

theorem foldl_replayUpdate (peeled : RefUpdate → String) (us : List RefUpdate)
    (acc : SortedMap String Ref × String) :
    (⟨(us.foldl (replayUpdate peeled) acc).1.mapTo Ref.oid,
        (us.foldl (replayUpdate peeled) acc).2⟩ : RefState) =
      us.foldl RefState.applyUpdate ⟨acc.1.mapTo Ref.oid, acc.2⟩ := by
  induction us generalizing acc with
  | nil => rfl
  | cons u us ih => rw [List.foldl_cons, List.foldl_cons, ih, replayUpdate_oids]

/-- Every entry of a replay's map is filed under its own name. -/
def Filed (m : SortedMap String Ref) : Prop := ∀ b ∈ m.entries, b.1 = b.2.name

theorem byName_values {m : SortedMap String Ref} (h : Filed m) : byName m.values = m.entries := by
  rw [byName, SortedMap.values, List.map_map]
  conv_rhs => rw [← List.map_id m.entries]
  exact List.map_congr_left fun b hb => Prod.ext (h b hb).symm rfl

theorem filed_replay (peeled : RefUpdate → String) (us : List RefUpdate)
    {acc : SortedMap String Ref × String} (h : Filed acc.1) :
    Filed (us.foldl (replayUpdate peeled) acc).1 := by
  induction us generalizing acc with
  | nil => exact h
  | cons u us ih =>
    rw [List.foldl_cons]
    refine ih ?_
    unfold replayUpdate
    split_ifs
    · exact h
    · exact h
    · exact fun b hb => h b (List.mem_filter.mp hb).1
    · intro b hb
      rcases SortedMap.mem_insertEntry hb with rfl | hb
      · rfl
      · exact h b hb

theorem replayStart_eq (h : d.Sorted) : d.replayStart = (d.table h, d.headTarget) := by
  have hmap : SortedMap.ofList (byName d.refs) = d.table h := (d.table h).ofList_entries
  rw [replayStart, ← hmap]
  rfl

/-- A replay is the fold of its transactions, in the order of the names. -/
theorem replayRefs_refState (peeled : RefUpdate → String) (h : d.Sorted)
    (txns : List RefTransaction) :
    ∃ h' : (replayRefs peeled d txns).Sorted,
      (replayRefs peeled d txns).refState h' = (d.refState h).applyTxns txns := by
  set us := txns.flatMap RefTransaction.updates with hus
  set acc := us.foldl (replayUpdate peeled) (d.table h, d.headTarget) with hacc
  have hfiled : Filed (d.table h) := fun b hb => by
    obtain ⟨r, -, rfl⟩ := List.mem_map.mp hb
    rfl
  have hreplay : replayRefs peeled d txns = ⟨acc.1.values, acc.2⟩ := by
    rw [replayRefs, replayStart_eq h]
  have hfold := foldl_replayUpdate peeled us (d.table h, d.headTarget)
  rw [RefState.applyTxns_eq, hreplay]
  obtain ⟨h', htable⟩ := sorted_of_entries (d := ⟨acc.1.values, acc.2⟩)
    (byName_values (filed_replay peeled us hfiled))
  exact ⟨h', by rw [refState, htable, hacc]; exact hfold⟩

end RefSnapshotData

namespace SnapshotView

variable {v : SnapshotView} {s : RefState}

/-- The view reads like the state; nothing is pending under the name HEAD. -/
structure Reads (v : SnapshotView) (s : RefState) : Prop where
  head : v.headTarget = s.headTarget
  noHead : v.overlay.find? "HEAD" = none
  refs : ∀ name, (v.overlay.find? name).getD ((v.base.find? name).map Ref.oid) = s.refs.find? name

theorem Reads.get (h : Reads v s) (name : String) : v.get name = s.value name := by
  have hlookup : ∀ n, n ≠ "HEAD" → (match v.overlay.find? n with
      | some value => value
      | none => (v.base.find? n).map Ref.oid) = s.refs.find? n := by
    intro n _
    rw [← h.refs n]
    cases v.overlay.find? n <;> rfl
  by_cases hname : name = "HEAD"
  · subst hname
    simp only [SnapshotView.get, h.noHead, if_true, headOid, RefState.value, h.head]
    by_cases hempty : s.headTarget = ""
    · simp [hempty]
    by_cases hself : s.headTarget = "HEAD"
    · simp [hself, h.noHead]
    · simpa [hempty, hself] using hlookup _ hself
  · simp only [SnapshotView.get, if_neg hname, RefState.value]
    exact hlookup name hname

theorem reads_new {d : RefSnapshotData} (h : d.Sorted) : Reads (new d) (d.refState h) where
  head := rfl
  noHead := rfl
  refs name := by
    have htable : (d.find? name).map Ref.oid = ((d.table h).mapTo Ref.oid).find? name := by
      rw [RefSnapshotData.find?_eq_table h, SortedMap.find?_mapTo]
    exact htable

/-- A pending update that does not write HEAD itself keeps the view in step. -/
theorem Reads.applyUpdate (h : Reads v s) {u : RefUpdate} (hu : u.plainHead = false) :
    Reads (v.applyUpdate u) (s.applyUpdate u) := by
  by_cases hs : u.symbolic = true
  · simp only [SnapshotView.applyUpdate, RefState.applyUpdate, if_pos hs]
    split_ifs
    · exact ⟨rfl, h.noHead, h.refs⟩
    · exact h
  · have hname : u.name ≠ "HEAD" := by
      intro hname
      simp [RefUpdate.plainHead, hs, hname] at hu
    simp only [SnapshotView.applyUpdate, RefState.applyUpdate, if_neg hs]
    split_ifs
    · refine ⟨h.head, ?_, fun name => ?_⟩
      · simp only [SortedMap.find?_insert, if_neg hname.symm, h.noHead]
      · simp only [SortedMap.find?_insert, SortedMap.find?_erase]
        split_ifs
        · rfl
        · exact h.refs name
    · refine ⟨h.head, ?_, fun name => ?_⟩
      · simp only [SortedMap.find?_insert, if_neg hname.symm, h.noHead]
      · simp only [SortedMap.find?_insert]
        split_ifs
        · rfl
        · exact h.refs name

theorem reads_refView {d : RefSnapshotData} (h : d.Sorted) {txns : List RefTransaction}
    (hhead : ∀ t ∈ txns, t.plainHead = false) :
    Reads (refView d txns) ((d.refState h).applyTxns txns) := by
  have hus : ∀ u ∈ txns.flatMap RefTransaction.updates, u.plainHead = false := by
    intro u hu
    obtain ⟨t, ht, hut⟩ := List.mem_flatMap.mp hu
    simpa using List.any_eq_false.mp (hhead t ht) u hut
  rw [RefState.applyTxns_eq, refView]
  have hstart := reads_new h
  generalize new d = v at hstart
  generalize d.refState h = s at hstart
  generalize txns.flatMap RefTransaction.updates = us at hus
  induction us generalizing v s with
  | nil => exact hstart
  | cons u us ih =>
    obtain ⟨hu, hrest⟩ := List.forall_mem_cons.mp hus
    exact ih _ _ (hstart.applyUpdate hu) hrest

section Boundary

/-- Two branches, and HEAD on the first. -/
def twoBranches : RefSnapshotData :=
  ⟨[⟨"refs/heads/b", "11", ""⟩, ⟨"refs/heads/c", "22", ""⟩], "refs/heads/b"⟩

/-- The first name is deleted and created again, the last one and an absent one are deleted, a
name before all others is created, and HEAD moves to it. -/
def boundaryEdits : List RefTransaction :=
  [⟨[⟨"refs/heads/b", "11", "", ""⟩, ⟨"refs/heads/a", "", "33", ""⟩, ⟨"refs/heads/z", "", "0", ""⟩],
      [], true⟩,
    ⟨[⟨"refs/heads/b", "", "44", ""⟩, ⟨"refs/heads/c", "22", "", ""⟩,
      ⟨"HEAD", "", "", "refs/heads/a"⟩], [], true⟩]

end Boundary

end SnapshotView

end Walgit
