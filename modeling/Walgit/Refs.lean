import Walgit.Overwrite
import Walgit.Proto
import Walgit.Text

/-!
# Ref transactions

The three interpretations of a ref transaction: the fold of the committed log
(`patch_snapshot`, `apply_ref_txns_offline`), the writer's `git update-ref`
(`apply_ref_txn`), and the publisher's overlay (`RefView`, `apply_txn_to_map`).
-/
namespace Walgit

open Text

/-- Empty or all-zero hex stands for "no object". -/
def isNullOid (hex : String) : Bool := hex.toList.all (· == '0')

namespace RefUpdate

/-- The update sets a symbolic target; its object ids are then ignored. -/
def symbolic (u : RefUpdate) : Bool := u.newSymbolicTarget != ""

/-- A non-symbolic update of the name `HEAD`. -/
def plainHead (u : RefUpdate) : Bool := !u.symbolic && u.name == "HEAD"

/-- The update writes a ref: it is not symbolic. -/
def plain (u : RefUpdate) : Bool := !u.symbolic

end RefUpdate

namespace RefTransaction

def namesHead (t : RefTransaction) : Bool := t.updates.any (·.name == "HEAD")

def plainHead (t : RefTransaction) : Bool := t.updates.any RefUpdate.plainHead

end RefTransaction

section Validation

variable [CharTables]

def validateRefName (name : String) : Except String Unit :=
  if name = "HEAD" then .ok ()
  else if name = "" || !startsWith "refs/" name ||
      name.toList.any (fun c => c.toNat == 0 || c ∈ "\n\r ~^:?*[\\".toList) ||
      contains ".." name || contains "@\x7b" name || contains "//" name ||
      startsWith "/" name || endsWith "/" name || endsWith "." name || endsWith ".lock" name then
    .error ("invalid ref name " ++ debug name)
  else .ok ()

def validateOid (oid : String) : Except String Unit :=
  if isNullOid oid then .ok ()
  else if (oid.utf8ByteSize = 40 || oid.utf8ByteSize = 64) && oid.toList.all isAsciiHexDigit then
    .ok ()
  else .error ("invalid oid " ++ debug oid)

def validateRefUpdate (u : RefUpdate) : Except String Unit :=
  if u.symbolic then
    if u.name ≠ "HEAD" then
      .error ("symbolic update is only allowed for HEAD, got " ++ debug u.name)
    else validateRefName u.newSymbolicTarget
  else do
    validateRefName u.name
    validateOid u.oldOid
    validateOid u.newOid

def RefTransaction.valid (t : RefTransaction) : Bool :=
  t.updates.all fun u => (validateRefUpdate u).isOk

theorem symbolic_names_head {u : RefUpdate} (hv : (validateRefUpdate u).isOk) (hs : u.symbolic) :
    u.name = "HEAD" := by
  by_contra hne
  simp [validateRefUpdate, hs, hne, Except.isOk, Except.toBool] at hv

end Validation

namespace RefState

/-- A fresh bare repository: no refs, HEAD pointing at the default branch. -/
def fresh : RefState := ⟨.empty, "refs/heads/main"⟩

/-- One update as the committed log means it. -/
def applyUpdate (s : RefState) (u : RefUpdate) : RefState :=
  if u.symbolic then
    if u.name = "HEAD" then { s with headTarget := u.newSymbolicTarget } else s
  else if isNullOid u.newOid then { s with refs := s.refs.erase u.name }
  else { s with refs := s.refs.insert u.name u.newOid }

def applyTxn (s : RefState) (t : RefTransaction) : RefState := t.updates.foldl applyUpdate s

def applyTxns (s : RefState) (ts : List RefTransaction) : RefState := ts.foldl applyTxn s

/-- The value a client sees: HEAD is read through its symbolic target. A HEAD that names
itself has no value (the source does not return there). -/
def value (s : RefState) (name : String) : Option String :=
  if name = "HEAD" then
    if s.headTarget = "" || s.headTarget = "HEAD" then none else s.refs.find? s.headTarget
  else s.refs.find? name

end RefState

/-- The fold of the ref transactions of a list of committed entries. -/
def foldRefs (s : RefState) (entries : List LogEntry) : RefState :=
  s.applyTxns (entries.filterMap LogEntry.txn)

@[simp] theorem foldRefs_nil (s : RefState) : foldRefs s [] = s := rfl

theorem foldRefs_append (s : RefState) (es fs : List LogEntry) :
    foldRefs s (es ++ fs) = foldRefs (foldRefs s es) fs := by
  simp [foldRefs, RefState.applyTxns, List.filterMap_append, List.foldl_append]

theorem foldRefs_cons (s : RefState) (e : LogEntry) (es : List LogEntry) :
    foldRefs s (e :: es) = foldRefs ((e.txn.map s.applyTxn).getD s) es := by
  cases h : e.txn <;> simp [foldRefs, RefState.applyTxns, h]

namespace RefState

/-- The independently written cells of a ref state: `none` is HEAD's symbolic target. -/
def cells (s : RefState) : Option String → Option String
  | none => some s.headTarget
  | some name => s.refs.find? name

theorem cells_injective {s t : RefState} (h : s.cells = t.cells) : s = t := by
  have hrefs : s.refs = t.refs := SortedMap.ext_find? fun name => congrFun h (some name)
  have hhead : some s.headTarget = some t.headTarget := congrFun h none
  cases s
  cases t
  simp_all

end RefState

namespace RefUpdate

/-- The cell an update writes, if it writes one. -/
def write (u : RefUpdate) : Option (Option String × Option String) :=
  if u.symbolic then
    if u.name = "HEAD" then some (none, some u.newSymbolicTarget) else none
  else if isNullOid u.newOid then some (some u.name, none)
  else some (some u.name, some u.newOid)

end RefUpdate

def LogEntry.writes (e : LogEntry) : List (Option String × Option String) :=
  (e.txn.map RefTransaction.updates).getD [] |>.filterMap RefUpdate.write

def writesOf (entries : List LogEntry) : List (Option String × Option String) :=
  entries.flatMap LogEntry.writes

namespace RefState

theorem cells_applyUpdate (s : RefState) (u : RefUpdate) :
    (s.applyUpdate u).cells = Overwrite.run s.cells u.write.toList := by
  unfold applyUpdate RefUpdate.write
  split_ifs with hs hh hn <;> funext k <;>
    simp only [Option.toList, Overwrite.run_cons, Overwrite.run_nil, Overwrite.apply]
  all_goals
    cases k with
    | none => simp [cells]
    | some name => simp [cells, Function.update_apply]

theorem cells_applyUpdates (s : RefState) (us : List RefUpdate) :
    (us.foldl applyUpdate s).cells = Overwrite.run s.cells (us.filterMap RefUpdate.write) := by
  induction us generalizing s with
  | nil => rfl
  | cons u us ih =>
    rw [List.foldl_cons, ih, cells_applyUpdate, ← Overwrite.run_append]
    cases h : u.write <;> simp [h]

end RefState

theorem RefState.applyTxns_eq (s : RefState) (ts : List RefTransaction) :
    s.applyTxns ts = (ts.flatMap RefTransaction.updates).foldl applyUpdate s := by
  rw [List.foldl_flatMap]
  rfl

/-- Replaying transactions over a state that some of them reached already changes nothing. -/
theorem RefState.applyTxns_replay (s : RefState) (ts us : List RefTransaction) :
    (s.applyTxns ts).applyTxns (ts ++ us) = s.applyTxns (ts ++ us) := by
  have hcells : ∀ (r : RefState) (ts : List RefTransaction), (r.applyTxns ts).cells =
      Overwrite.run r.cells ((ts.flatMap RefTransaction.updates).filterMap RefUpdate.write) := by
    intro r ts
    rw [applyTxns_eq, cells_applyUpdates]
  refine cells_injective ?_
  simp only [hcells, List.flatMap_append, List.filterMap_append, Overwrite.run_run_append]

theorem cells_foldRefs (s : RefState) (es : List LogEntry) :
    (foldRefs s es).cells = Overwrite.run s.cells (writesOf es) := by
  induction es generalizing s with
  | nil => rfl
  | cons e es ih =>
    rw [foldRefs_cons, ih]
    have he : ((e.txn.map s.applyTxn).getD s).cells = Overwrite.run s.cells e.writes := by
      cases h : e.txn with
      | none => simp [LogEntry.writes, h]
      | some t =>
        simpa [LogEntry.writes, RefState.applyTxn, h] using RefState.cells_applyUpdates s t.updates
    rw [he, ← Overwrite.run_append]
    rfl

/-- The ref `git update-ref` really writes: HEAD is followed to its target. -/
def RefState.resolve (s : RefState) (name : String) : String :=
  if name = "HEAD" && s.headTarget ≠ "" then s.headTarget else name

/-- One name is a directory of the other, so both cannot exist as files. -/
def dirFileConflict (a b : String) : Bool :=
  startsWith (a ++ "/") b || startsWith (b ++ "/") a

/-- `git update-ref` lets a new ref in: it clashes with no other name of the transaction and
with no existing ref outside it. -/
def RefState.available (s : RefState) (names : List String) (name : String) : Bool :=
  (s.refs.find? name).isSome ||
    (names.all (fun n => !dirFileConflict n name) &&
      s.refs.entries.all (fun b => b.1 ∈ names || !dirFileConflict b.1 name))

/-- One plain update as `git update-ref` applies it. -/
def RefState.updateRef (s : RefState) (u : RefUpdate) : RefState :=
  if isNullOid u.newOid then { s with refs := s.refs.erase (s.resolve u.name) }
  else if s.headTarget = "" && u.name = "HEAD" then s
  else { s with refs := s.refs.insert (s.resolve u.name) u.newOid }

/-- A plain update of any name but HEAD is written where the log says. -/
theorem RefState.updateRef_eq_applyUpdate (s : RefState) {u : RefUpdate} (hp : u.plain)
    (hh : u.name ≠ "HEAD") : s.updateRef u = s.applyUpdate u := by
  have hs : u.symbolic = false := by simpa [RefUpdate.plain] using hp
  simp [RefState.updateRef, RefState.applyUpdate, RefState.resolve, hs, hh]

theorem RefState.foldl_updateRef_eq (s : RefState) {us : List RefUpdate}
    (h : ∀ u ∈ us, u.plain ∧ u.name ≠ "HEAD") : us.foldl updateRef s = us.foldl applyUpdate s := by
  induction us generalizing s with
  | nil => rfl
  | cons u us ih =>
    obtain ⟨hp, hn⟩ := h u List.mem_cons_self
    rw [List.foldl_cons, List.foldl_cons, updateRef_eq_applyUpdate s hp hn]
    exact ih _ fun v hv => h v (List.mem_cons_of_mem _ hv)

theorem RefTransaction.plain_updates {t : RefTransaction} (h : t.plainHead = false) :
    ∀ u ∈ t.updates.filter RefUpdate.plain, u.plain ∧ u.name ≠ "HEAD" := by
  intro u hu
  obtain ⟨hmem, hp⟩ := List.mem_filter.mp hu
  refine ⟨hp, fun hname => ?_⟩
  have hnot := List.any_eq_false.mp h u hmem
  simp [RefUpdate.plainHead, RefUpdate.plain, hname] at hnot hp
  simp [hp] at hnot

/-- Symbolic updates commute past plain ones: they write different cells. -/
theorem RefState.applyUpdate_comm (s : RefState) {u v : RefUpdate} (hu : u.symbolic)
    (hv : v.plain) : (s.applyUpdate u).applyUpdate v = (s.applyUpdate v).applyUpdate u := by
  have hv' : v.symbolic = false := by simpa [RefUpdate.plain] using hv
  simp only [RefState.applyUpdate, hu, hv']
  split_ifs <;> simp_all

theorem RefState.foldl_applyUpdate_comm (s : RefState) {u : RefUpdate} (hu : u.symbolic)
    {vs : List RefUpdate} (hvs : ∀ v ∈ vs, v.plain) :
    vs.foldl applyUpdate (s.applyUpdate u) = (vs.foldl applyUpdate s).applyUpdate u := by
  induction vs generalizing s with
  | nil => rfl
  | cons v vs ih =>
    rw [List.foldl_cons, List.foldl_cons, applyUpdate_comm s hu (hvs v List.mem_cons_self)]
    exact ih _ fun w hw => hvs w (List.mem_cons_of_mem _ hw)

/-- Taking the plain updates first and the symbolic ones after them changes nothing. -/
theorem RefState.foldl_plain_symbolic (s : RefState) (us : List RefUpdate) :
    (us.filter RefUpdate.symbolic).foldl applyUpdate
      ((us.filter RefUpdate.plain).foldl applyUpdate s) = us.foldl applyUpdate s := by
  induction us generalizing s with
  | nil => rfl
  | cons u us ih =>
    by_cases hu : u.symbolic
    · have hp : u.plain = false := by simp [RefUpdate.plain, hu]
      rw [List.filter_cons_of_pos hu, List.filter_cons_of_neg (by simp [hp]), List.foldl_cons,
        List.foldl_cons, ← foldl_applyUpdate_comm s hu fun v hv => (List.mem_filter.mp hv).2]
      exact ih _
    · have hp : u.plain = true := by simp [RefUpdate.plain, hu]
      rw [List.filter_cons_of_neg hu, List.filter_cons_of_pos hp, List.foldl_cons,
        List.foldl_cons]
      exact ih _

section Writer

variable [CharTables]

/-- `LocalRepo::apply_ref_txn` without `check_old`: validation, one all-or-nothing
`git update-ref --stdin` for the plain updates, then the HEAD file for the symbolic ones. -/
def RefState.applyRefTxn (s : RefState) (t : RefTransaction) : Option RefState :=
  let plain := t.updates.filter RefUpdate.plain
  let names := plain.map (fun u => s.resolve u.name)
  if !t.valid then none
  else if !decide names.Nodup then none
  else if !(plain.filter (fun u => !isNullOid u.newOid)).all
      (fun u => s.available names (s.resolve u.name)) then none
  else
    some ((t.updates.filter RefUpdate.symbolic).foldl RefState.applyUpdate
      (plain.foldl RefState.updateRef s))

theorem RefState.applyRefTxn_eq_some {s s' : RefState} {t : RefTransaction}
    (h : s.applyRefTxn t = some s') :
    t.valid ∧ s' = (t.updates.filter RefUpdate.symbolic).foldl RefState.applyUpdate
      ((t.updates.filter RefUpdate.plain).foldl RefState.updateRef s) := by
  simp only [RefState.applyRefTxn] at h
  split_ifs at h with hv hd ha
  exact ⟨by simpa using hv, by simpa using h.symm⟩

/-- Without a plain update of HEAD the writer's copy follows the log. -/
theorem RefState.applyRefTxn_eq_applyTxn {s s' : RefState} {t : RefTransaction}
    (hh : t.plainHead = false) (h : s.applyRefTxn t = some s') : s' = s.applyTxn t := by
  obtain ⟨-, rfl⟩ := applyRefTxn_eq_some h
  rw [foldl_updateRef_eq s (RefTransaction.plain_updates hh), foldl_plain_symbolic]
  rfl

/-- `apply_ref_txn` for one transaction after another, up to the first that git refuses. -/
def RefState.applyRefTxns (s : RefState) : List RefTransaction → RefState × Bool
  | [] => (s, true)
  | t :: ts =>
    match s.applyRefTxn t with
    | none => (s, false)
    | some s' => s'.applyRefTxns ts

/-- Without a plain update of HEAD the writer's copy has followed the log for a while, and to
its end if git refused nothing. -/
theorem RefState.applyRefTxns_eq (s : RefState) {ts : List RefTransaction}
    (hh : ∀ t ∈ ts, t.plainHead = false) :
    ∃ done rest, ts = done ++ rest ∧ (s.applyRefTxns ts).1 = s.applyTxns done ∧
      ((s.applyRefTxns ts).2 = true → rest = []) := by
  induction ts generalizing s with
  | nil => exact ⟨[], [], rfl, rfl, fun _ => rfl⟩
  | cons t ts ih =>
    simp only [applyRefTxns]
    split
    · exact ⟨[], t :: ts, rfl, rfl, by simp⟩
    · rename_i s' hs'
      obtain rfl := applyRefTxn_eq_applyTxn (hh t List.mem_cons_self) hs'
      obtain ⟨done, rest, hts, hdone, hall⟩ :=
        ih (s.applyTxn t) fun u hu => hh u (List.mem_cons_of_mem _ hu)
      exact ⟨t :: done, rest, by rw [hts]; rfl, hdone, hall⟩

end Writer

/-- Point lookups over a shared snapshot with an overlay of pending changes. -/
structure RefView where
  base : RefState
  overlay : SortedMap String (Option String)
  pendingHead : Option String
  deriving DecidableEq

namespace RefView

def new (base : RefState) : RefView := ⟨base, .empty, none⟩

def headTarget (v : RefView) : String := v.pendingHead.getD v.base.headTarget

/-- HEAD's object id through its symbolic target. -/
def headOid (v : RefView) : Option String :=
  if v.headTarget = "" then none
  else match v.overlay.find? v.headTarget with
    | some value => value
    | none => if v.headTarget = "HEAD" then none else v.base.refs.find? v.headTarget

def get (v : RefView) (name : String) : Option String :=
  match v.overlay.find? name with
  | some value => value
  | none => if name = "HEAD" then v.headOid else v.base.refs.find? name

def set (v : RefView) (name value : String) : RefView :=
  { v with overlay := v.overlay.insert name (some value) }

def remove (v : RefView) (name : String) : RefView :=
  { v with overlay := v.overlay.insert name none }

/-- One applied update as `LocalRepo::ref_view` overlays it. -/
def applyUpdate (v : RefView) (u : RefUpdate) : RefView :=
  if u.symbolic then
    if u.name = "HEAD" then { v with pendingHead := some u.newSymbolicTarget } else v
  else if isNullOid u.newOid then v.remove u.name
  else v.set u.name u.newOid

def applyTxn (v : RefView) (t : RefTransaction) : RefView := t.updates.foldl applyUpdate v

/-- The object id a client is told for a name; empty when there is none. -/
def value (v : RefView) (name : String) : String := (v.get name).getD ""

/-- No lookup tells the two views apart. -/
def Same (v w : RefView) : Prop :=
  (∀ name, v.value name = w.value name) ∧ v.headTarget = w.headTarget

end RefView

end Walgit
