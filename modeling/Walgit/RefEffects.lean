import Mathlib.Data.List.Induction
import Walgit.Refs

/-!
# What a transaction leaves behind

The last plain update of a name decides it, the last symbolic one decides HEAD. The
publisher checks every update against the state before the transaction, so a name may
be updated more than once.
-/
namespace Walgit

namespace RefUpdate

/-- What a plain update leaves its name at. -/
def value (u : RefUpdate) : Option String := if isNullOid u.newOid then none else some u.newOid

end RefUpdate

namespace RefTransaction

/-- The update that decides a name. -/
def last (t : RefTransaction) (name : String) : Option RefUpdate :=
  t.updates.reverse.find? fun u => u.plain && u.name == name

/-- The names a transaction leaves set, with their object ids. -/
def sets (t : RefTransaction) : List (String × String) :=
  t.updates.filterMap fun u =>
    ((t.last u.name).bind RefUpdate.value).map fun oid => (u.name, oid)

/-- Where a transaction leaves HEAD, if it moves it. -/
def target (t : RefTransaction) : Option String :=
  (t.updates.reverse.find? fun u => u.symbolic && u.name == "HEAD").map RefUpdate.newSymbolicTarget

theorem last_name {t : RefTransaction} {name : String} {u : RefUpdate}
    (h : t.last name = some u) : u ∈ t.updates ∧ u.plain ∧ u.name = name := by
  have hmem := List.mem_of_find?_eq_some h
  have hpos := List.find?_some h
  simp only [Bool.and_eq_true, beq_iff_eq] at hpos
  exact ⟨List.mem_reverse.mp hmem, hpos⟩

theorem mem_sets {t : RefTransaction} {name oid : String} :
    (name, oid) ∈ t.sets ↔ (t.last name).bind RefUpdate.value = some oid := by
  simp only [sets, List.mem_filterMap, Option.map_eq_some_iff, Prod.mk.injEq]
  constructor
  · rintro ⟨u, -, oid', hlast, rfl, rfl⟩
    exact hlast
  · intro h
    obtain ⟨u, hu, -⟩ := Option.bind_eq_some_iff.mp h
    obtain ⟨hmem, -, hname⟩ := last_name hu
    exact ⟨u, hmem, oid, hname ▸ h, hname, rfl⟩

end RefTransaction

namespace RefState

theorem applyUpdate_find? (s : RefState) (u : RefUpdate) (name : String) :
    (s.applyUpdate u).refs.find? name =
      if u.plain && u.name == name then u.value else s.refs.find? name := by
  unfold applyUpdate RefUpdate.value
  by_cases hs : u.symbolic
  · have hp : u.plain = false := by simp [RefUpdate.plain, hs]
    simp only [hs, hp, if_true, Bool.false_and, Bool.false_eq_true, if_false]
    split_ifs <;> rfl
  · have hp : u.plain = true := by simp [RefUpdate.plain, hs]
    have hcomm : name = u.name ↔ u.name = name := eq_comm
    rw [if_neg hs, hp]
    split_ifs <;> simp_all

theorem applyUpdate_headTarget (s : RefState) (u : RefUpdate) :
    (s.applyUpdate u).headTarget =
      if u.symbolic && u.name == "HEAD" then u.newSymbolicTarget else s.headTarget := by
  unfold applyUpdate
  by_cases hs : u.symbolic <;> by_cases hn : u.name = "HEAD" <;> simp [hs, hn] <;> split_ifs <;> rfl

theorem applyTxn_find? (s : RefState) (t : RefTransaction) (name : String) :
    (s.applyTxn t).refs.find? name =
      ((t.last name).map RefUpdate.value).getD (s.refs.find? name) := by
  unfold applyTxn RefTransaction.last
  induction t.updates using List.reverseRecOn with
  | nil => rfl
  | append_singleton us u ih =>
    rw [List.foldl_append, List.foldl_cons, List.foldl_nil, applyUpdate_find?, List.reverse_append]
    simp only [List.reverse_cons, List.reverse_nil, List.nil_append, List.cons_append,
      List.find?_cons]
    cases hu : u.plain && u.name == name with
    | true => rfl
    | false => exact ih

theorem applyTxn_headTarget (s : RefState) (t : RefTransaction) :
    (s.applyTxn t).headTarget = t.target.getD s.headTarget := by
  unfold applyTxn RefTransaction.target
  induction t.updates using List.reverseRecOn with
  | nil => rfl
  | append_singleton us u ih =>
    rw [List.foldl_append, List.foldl_cons, List.foldl_nil, applyUpdate_headTarget,
      List.reverse_append]
    simp only [List.reverse_cons, List.reverse_nil, List.nil_append, List.cons_append,
      List.find?_cons]
    cases hu : u.symbolic && u.name == "HEAD" with
    | true => rfl
    | false => exact ih

/-- A name is there afterwards if the transaction left it set or did not touch it. -/
theorem applyTxn_find?_eq_some {s : RefState} {t : RefTransaction} {name oid : String} :
    (s.applyTxn t).refs.find? name = some oid ↔
      (name, oid) ∈ t.sets ∨ (t.last name = none ∧ s.refs.find? name = some oid) := by
  rw [applyTxn_find?, RefTransaction.mem_sets]
  cases t.last name with
  | none => simp
  | some u => simp

end RefState

end Walgit
