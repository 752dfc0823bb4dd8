import Walgit.Batch

/-!
# The batch overlay

`apply_txn_to_map` keeps the members accepted so far in an overlay. For every name but
HEAD the overlay tells what the state after those members holds; HEAD's symbolic target
stays that of the basis.
-/
namespace Walgit

namespace RefView

/-- The overlay entry of HEAD, and HEAD's target. -/
def head (v : RefView) : Option (Option String) × String := (v.overlay.find? "HEAD", v.headTarget)

/-- Same lookups for every name but HEAD. -/
def SameOffHead (v w : RefView) : Prop := ∀ name, name ≠ "HEAD" → v.value name = w.value name

theorem value_of_ne {v : RefView} {name : String} (h : name ≠ "HEAD") :
    v.value name = ((v.overlay.find? name).getD (v.base.refs.find? name)).getD "" := by
  unfold value get
  cases v.overlay.find? name <;> simp [h]

theorem value_head (v : RefView) :
    v.value "HEAD" = match v.overlay.find? "HEAD" with
      | some value => value.getD ""
      | none => if v.headTarget = "" ∨ v.headTarget = "HEAD" then "" else v.value v.headTarget := by
  unfold value get
  cases hov : v.overlay.find? "HEAD" with
  | some value => rfl
  | none =>
    simp only [if_true, headOid]
    by_cases hempty : v.headTarget = ""
    · simp [hempty]
    · by_cases hself : v.headTarget = "HEAD"
      · simp [hself, hov]
      · simp only [hempty, hself, if_false, or_self]

/-- Views that agree off HEAD and on how HEAD is read agree everywhere. -/
theorem value_eq {v w : RefView} (hoff : v.SameOffHead w) (hhead : v.head = w.head)
    (name : String) : v.value name = w.value name := by
  simp only [head, Prod.mk.injEq] at hhead
  by_cases hname : name = "HEAD"
  · subst hname
    rw [value_head, value_head, hhead.1, hhead.2]
    cases w.overlay.find? "HEAD" with
    | some value => rfl
    | none =>
      simp only
      split_ifs with hskip
      · rfl
      · exact hoff _ (not_or.mp hskip).2
  · exact hoff name hname

@[simp] theorem set_headTarget (v : RefView) (name value : String) :
    (v.set name value).headTarget = v.headTarget := rfl

@[simp] theorem remove_headTarget (v : RefView) (name : String) :
    (v.remove name).headTarget = v.headTarget := rfl

theorem value_set (v : RefView) (name value other : String) (h : other ≠ "HEAD") :
    (v.set name value).value other = if other = name then value else v.value other := by
  rw [value_of_ne h, value_of_ne h]
  simp only [set, SortedMap.find?_insert]
  split_ifs <;> rfl

theorem value_remove (v : RefView) (name other : String) (h : other ≠ "HEAD") :
    (v.remove name).value other = if other = name then "" else v.value other := by
  rw [value_of_ne h, value_of_ne h]
  simp only [remove, SortedMap.find?_insert]
  split_ifs <;> rfl

theorem head_set {v : RefView} {name value : String} (h : name ≠ "HEAD") :
    (v.set name value).head = v.head := by
  simp [head, set, headTarget, Ne.symm h]

theorem head_remove {v : RefView} {name : String} (h : name ≠ "HEAD") :
    (v.remove name).head = v.head := by
  simp [head, remove, headTarget, Ne.symm h]

end RefView

/-- Plain updates mean the same in the overlay and in the state. -/
theorem applyUpdateToMap_plain {v : RefView} {u : RefUpdate} (h : u.symbolic = false) :
    applyUpdateToMap v u = v.applyUpdate u := by
  simp [applyUpdateToMap, RefView.applyUpdate, h]

/-- The value of a name after one update. -/
theorem RefView.applyUpdate_value {v : RefView} {u : RefUpdate} {name : String}
    (hname : name ≠ "HEAD") (hsym : u.symbolic → u.name = "HEAD") :
    (v.applyUpdate u).value name =
      if name = u.name then if isNullOid u.newOid then "" else u.newOid else v.value name := by
  unfold applyUpdate
  by_cases hs : u.symbolic
  · rw [if_pos hs, if_pos (hsym hs), hsym hs, if_neg hname, value_of_ne hname, value_of_ne hname]
  · rw [if_neg hs]
    split_ifs with hnull heq heq
    · rw [value_remove _ _ _ hname, if_pos heq]
    · rw [value_remove _ _ _ hname, if_neg heq]
    · rw [value_set _ _ _ _ hname, if_pos heq]
    · rw [value_set _ _ _ _ hname, if_neg heq]

theorem applyUpdateToMap_value {v : RefView} {u : RefUpdate} {name : String} (hname : name ≠ "HEAD")
    (hsym : u.symbolic → u.name = "HEAD") :
    (applyUpdateToMap v u).value name =
      if name = u.name then if isNullOid u.newOid then "" else u.newOid else v.value name := by
  by_cases hs : u.symbolic
  · rw [applyUpdateToMap, if_pos hs, RefView.value_set _ _ _ _ hname, hsym hs, if_neg hname,
      if_neg hname]
  · rw [applyUpdateToMap_plain (by simpa using hs)]
    exact RefView.applyUpdate_value hname hsym

theorem applyUpdateToMap_head {v : RefView} {u : RefUpdate} (h : u.name ≠ "HEAD") :
    (applyUpdateToMap v u).head = v.head := by
  unfold applyUpdateToMap
  split_ifs
  · exact RefView.head_set h
  · exact RefView.head_remove h
  · exact RefView.head_set h

theorem RefView.applyUpdate_head {v : RefView} {u : RefUpdate} (h : u.name ≠ "HEAD") :
    (v.applyUpdate u).head = v.head := by
  unfold applyUpdate
  split_ifs
  · rfl
  · exact RefView.head_remove h
  · exact RefView.head_set h

section Updates

variable {us : List RefUpdate} {v w : RefView}

theorem foldl_applyUpdateToMap_head (h : ∀ u ∈ us, u.name ≠ "HEAD") :
    (us.foldl applyUpdateToMap v).head = v.head := by
  induction us generalizing v with
  | nil => rfl
  | cons u us ih =>
    rw [List.foldl_cons, ih fun x hx => h x (List.mem_cons_of_mem _ hx)]
    exact applyUpdateToMap_head (h u List.mem_cons_self)

theorem foldl_applyUpdate_head (h : ∀ u ∈ us, u.name ≠ "HEAD") :
    (us.foldl RefView.applyUpdate v).head = v.head := by
  induction us generalizing v with
  | nil => rfl
  | cons u us ih =>
    rw [List.foldl_cons, ih fun x hx => h x (List.mem_cons_of_mem _ hx)]
    exact RefView.applyUpdate_head (h u List.mem_cons_self)

/-- The overlay and the state stay together off HEAD. -/
theorem foldl_sameOffHead (hsym : ∀ u ∈ us, u.symbolic → u.name = "HEAD") (h : v.SameOffHead w) :
    (us.foldl applyUpdateToMap v).SameOffHead (us.foldl RefView.applyUpdate w) := by
  induction us generalizing v w with
  | nil => exact h
  | cons u us ih =>
    rw [List.foldl_cons, List.foldl_cons]
    refine ih (fun x hx => hsym x (List.mem_cons_of_mem _ hx)) fun name hname => ?_
    have hu := hsym u List.mem_cons_self
    rw [applyUpdateToMap_value hname hu, RefView.applyUpdate_value hname hu, h name hname]

/-- Off HEAD the value of a name after one update is the same in the committed state. -/
theorem RefView.new_applyUpdate_value {s : RefState} {u : RefUpdate} {name : String}
    (hname : name ≠ "HEAD") (hsym : u.symbolic → u.name = "HEAD") :
    (new (s.applyUpdate u)).value name =
      if name = u.name then if isNullOid u.newOid then "" else u.newOid
      else (new s).value name := by
  rw [value_of_ne hname, value_of_ne hname]
  simp only [new, SortedMap.find?_empty, Option.getD_none]
  unfold RefState.applyUpdate
  by_cases hs : u.symbolic
  · rw [if_pos hs, if_pos (hsym hs), hsym hs, if_neg hname]
  · rw [if_neg hs]
    split_ifs with hnull heq heq <;> simp [heq]

theorem RefView.new_applyUpdate_head {s : RefState} {u : RefUpdate} (h : u.name ≠ "HEAD") :
    (new (s.applyUpdate u)).head = (new s).head := by
  unfold RefState.applyUpdate
  split_ifs <;> rfl

/-- The overlay and the committed state stay together off HEAD. -/
theorem foldl_sameOffHead_new {s : RefState} (hsym : ∀ u ∈ us, u.symbolic → u.name = "HEAD")
    (h : v.SameOffHead (.new s)) :
    (us.foldl applyUpdateToMap v).SameOffHead (.new (us.foldl RefState.applyUpdate s)) := by
  induction us generalizing v s with
  | nil => exact h
  | cons u us ih =>
    rw [List.foldl_cons, List.foldl_cons]
    refine ih (fun x hx => hsym x (List.mem_cons_of_mem _ hx)) fun name hname => ?_
    have hu := hsym u List.mem_cons_self
    rw [applyUpdateToMap_value hname hu, RefView.new_applyUpdate_value hname hu, h name hname]

theorem foldl_new_head {s : RefState} (h : ∀ u ∈ us, u.name ≠ "HEAD") :
    (RefView.new (us.foldl RefState.applyUpdate s)).head = (RefView.new s).head := by
  induction us generalizing s with
  | nil => rfl
  | cons u us ih =>
    rw [List.foldl_cons, ih fun x hx => h x (List.mem_cons_of_mem _ hx)]
    exact RefView.new_applyUpdate_head (h u List.mem_cons_self)

theorem updateChanges_plain {u : RefUpdate} (hp : u.symbolic = false)
    (h : updateChanges v u = false) :
    v.value u.name = if isNullOid u.newOid then "" else u.newOid := by
  simp only [updateChanges, hp, Bool.false_eq_true, if_false] at h
  change (if isNullOid u.newOid then v.value u.name != "" else v.value u.name != u.newOid) =
    false at h
  split_ifs at h ⊢ with hnull
  · simpa using h
  · simpa using h

theorem updateChanges_symbolic {u : RefUpdate} (hs : u.symbolic) (h : updateChanges v u = false) :
    u.name = "HEAD" ∧ u.newSymbolicTarget = v.headTarget := by
  simpa [updateChanges, hs] using h

/-- Updates that change nothing leave the overlay's lookups alone off HEAD. -/
theorem foldl_unchanged_sameOffHead (h : ∀ u ∈ us, updateChanges v u = false) :
    (us.foldl applyUpdateToMap v).SameOffHead v := by
  have hsym : ∀ u ∈ us, u.symbolic → u.name = "HEAD" :=
    fun u hu hs => (updateChanges_symbolic hs (h u hu)).1
  have hvalue : ∀ u ∈ us, u.name ≠ "HEAD" →
      v.value u.name = if isNullOid u.newOid then "" else u.newOid := by
    intro u hu hname
    refine updateChanges_plain ?_ (h u hu)
    by_contra hs
    exact hname (hsym u hu (by simpa using hs))
  clear h
  intro name hname
  -- Every update writes the value `v` has; carry that along the list.
  have hrun : ∀ w : RefView, w.value name = v.value name →
      (us.foldl applyUpdateToMap w).value name = v.value name := by
    induction us with
    | nil => exact fun w hw => hw
    | cons u us ih =>
      intro w hw
      rw [List.foldl_cons]
      refine ih (fun x hx => hsym x (List.mem_cons_of_mem _ hx))
        (fun x hx => hvalue x (List.mem_cons_of_mem _ hx)) _ ?_
      rw [applyUpdateToMap_value hname (hsym u List.mem_cons_self)]
      split_ifs with heq hnull
      · have := hvalue u List.mem_cons_self (heq ▸ hname)
        rw [heq, this, if_pos hnull]
      · have := hvalue u List.mem_cons_self (heq ▸ hname)
        rw [heq, this, if_neg hnull]
      · exact hw
  exact hrun v rfl

/-- An update that changes nothing leaves every lookup alone. -/
theorem RefView.applyUpdate_same {u : RefUpdate} (h : updateChanges v u = false) :
    (v.applyUpdate u).Same v := by
  by_cases hs : u.symbolic
  · obtain ⟨hname, htarget⟩ := updateChanges_symbolic hs h
    have hview : v.applyUpdate u = { v with pendingHead := some v.headTarget } := by
      simp [applyUpdate, hs, hname, htarget]
    rw [hview]
    exact ⟨value_eq (fun name hn => by rw [value_of_ne hn, value_of_ne hn]) rfl, rfl⟩
  · have hp : u.symbolic = false := by simpa using hs
    have hvalue := updateChanges_plain hp h
    have htarget : (v.applyUpdate u).headTarget = v.headTarget := by
      simp only [applyUpdate, hp, Bool.false_eq_true, if_false]
      split_ifs <;> rfl
    have hoff : (v.applyUpdate u).SameOffHead v := by
      intro name hname
      rw [applyUpdate_value hname (by simp [hp])]
      split_ifs with heq hnull
      · rw [heq, hvalue, if_pos hnull]
      · rw [heq, hvalue, if_neg hnull]
      · rfl
    refine ⟨fun name => ?_, htarget⟩
    by_cases hname : u.name = "HEAD"
    · by_cases hhead : name = "HEAD"
      · rw [hname] at hvalue
        rw [hhead, hvalue, value_head]
        simp only [applyUpdate, hp, Bool.false_eq_true, if_false]
        split_ifs <;> simp [set, remove, hname]
      · exact hoff name hhead
    · exact value_eq hoff (applyUpdate_head hname) name

theorem updateChanges_congr (h : v.Same w) (u : RefUpdate) :
    updateChanges v u = updateChanges w u := by
  have hget : (v.get u.name).getD "" = (w.get u.name).getD "" := h.1 u.name
  simp only [updateChanges, h.2, hget]

/-- Only the name of a plain update is looked at. -/
theorem updateChanges_value {u : RefUpdate} (hp : u.symbolic = false)
    (h : v.value u.name = w.value u.name) : updateChanges v u = updateChanges w u := by
  have hget : (v.get u.name).getD "" = (w.get u.name).getD "" := h
  simp only [updateChanges, hp, hget, Bool.false_eq_true, if_false]

theorem RefView.Same.trans {x : RefView} (h : v.Same w) (h' : w.Same x) : v.Same x :=
  ⟨fun name => (h.1 name).trans (h'.1 name), h.2.trans h'.2⟩

/-- A transaction of which no update changes anything changes nothing as a whole. -/
theorem RefView.applyTxn_same {t : RefTransaction}
    (h : ∀ u ∈ t.updates, updateChanges v u = false) : (v.applyTxn t).Same v := by
  unfold applyTxn
  generalize t.updates = us at h
  have hrun : ∀ w : RefView, w.Same v → (us.foldl applyUpdate w).Same v := by
    induction us with
    | nil => exact fun w hw => hw
    | cons u us ih =>
      intro w hw
      rw [List.foldl_cons]
      refine ih (fun x hx => h x (List.mem_cons_of_mem _ hx)) _ ?_
      exact (applyUpdate_same (by rw [updateChanges_congr hw, h u List.mem_cons_self])).trans hw
  exact hrun v ⟨fun _ => rfl, rfl⟩

end Updates

/-- The state after the accepted members of a batch, as `LocalRepo::ref_view` would show it. -/
def stateAfter (v : RefView) (members : List (PublishRequest × List ForgeEvent)) : RefView :=
  members.foldl (fun v m => v.applyTxn m.1.txn) v

theorem requestChanges_eq_false {v : RefView} {req : PublishRequest}
    (h : requestChanges v req = false) :
    req.forge = [] ∧ req.pack = none ∧ ∀ u ∈ req.txn.updates, updateChanges v u = false := by
  simp only [requestChanges, Bool.or_eq_false_iff, Bool.not_eq_false', List.isEmpty_iff,
    Option.isSome_eq_false_iff, Option.isNone_iff_eq_none, List.any_eq_false] at h
  exact ⟨h.1.1, h.1.2, fun u hu => by simpa using h.2 u hu⟩

/-- A batch whose overlay shows HEAD right: symbolic updates name HEAD, and no request that
names HEAD comes after another one that does. -/
def HeadOnce (reqs : List PublishRequest) : Prop :=
  (∀ r ∈ reqs, ∀ u ∈ r.txn.updates, u.symbolic → u.name = "HEAD") ∧
    reqs.Pairwise fun r s => r.txn.namesHead → s.txn.namesHead = false

instance (reqs : List PublishRequest) : Decidable (HeadOnce reqs) :=
  inferInstanceAs (Decidable (_ ∧ _))

section Track

variable [Text.CharTables] (b : Basis)

/-- Off HEAD the overlay shows the state after the accepted members. -/
theorem judgeAll_sameOffHead {reqs : List PublishRequest}
    (hsym : ∀ r ∈ reqs, ∀ u ∈ r.txn.updates, u.symbolic → u.name = "HEAD") {w : Working}
    {v : RefView} (h : w.refs.SameOffHead v) :
    (judgeAll b w reqs).2.refs.SameOffHead
      (stateAfter v (accepted reqs (judgeAll b w reqs).1)) := by
  induction reqs generalizing w v with
  | nil => exact h
  | cons req reqs ih =>
    have hrest := fun r hr => hsym r (List.mem_cons_of_mem req hr)
    simp only [judgeAll, accepted]
    rcases judge_cases b w req with ⟨hvalid, -, -, -, -, hrefs⟩ | ⟨hvalid, -, -, hno, hrefs⟩ |
      ⟨hvalid, -, hrefs⟩
    · rw [if_pos hvalid]
      refine ih hrest ?_
      rw [hrefs]
      exact foldl_sameOffHead (hsym req List.mem_cons_self) h
    · rw [if_neg (by simp [hvalid])]
      refine ih hrest fun name hname => ?_
      rw [hrefs]
      exact (foldl_unchanged_sameOffHead (requestChanges_eq_false hno).2.2 name hname).trans
        (h name hname)
    · rw [if_neg (by simp [hvalid])]
      exact ih hrest (by rw [hrefs]; exact h)

/-- Until a member names HEAD, the overlay reads HEAD like the state. -/
theorem judgeAll_head {reqs : List PublishRequest}
    (hname : ∀ r ∈ reqs, r.txn.namesHead = false) {w : Working} {v : RefView}
    (h : w.refs.head = v.head) :
    (judgeAll b w reqs).2.refs.head = (stateAfter v (accepted reqs (judgeAll b w reqs).1)).head := by
  induction reqs generalizing w v with
  | nil => exact h
  | cons req reqs ih =>
    have hrest := fun r hr => hname r (List.mem_cons_of_mem req hr)
    have hreq : ∀ u ∈ req.txn.updates, u.name ≠ "HEAD" := by
      simpa [RefTransaction.namesHead] using hname req List.mem_cons_self
    have hmap : (applyTxnToMap req.txn w.refs).head = w.refs.head :=
      foldl_applyUpdateToMap_head hreq
    simp only [judgeAll, accepted]
    rcases judge_cases b w req with ⟨hvalid, -, -, -, -, hrefs⟩ | ⟨hvalid, -, -, -, hrefs⟩ |
      ⟨hvalid, -, hrefs⟩
    · rw [if_pos hvalid]
      refine ih hrest ?_
      rw [hrefs, hmap, h]
      exact (foldl_applyUpdate_head hreq).symm
    · rw [if_neg (by simp [hvalid])]
      exact ih hrest (by rw [hrefs, hmap, h])
    · rw [if_neg (by simp [hvalid])]
      exact ih hrest (by rw [hrefs, h])

end Track

end Walgit
