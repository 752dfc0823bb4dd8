import Mathlib.Algebra.Ring.Nat
import Walgit.DepthFirst
import Walgit.Snapshots

/-!
# Ref selectors and pack groups

`[refs]` of the configuration: which refs are advertised, and which refs' objects are
packaged together. A group may subtract what other groups contain; a validated
configuration has no group that depends on itself.
-/
namespace Walgit

open Text

inductive PackGroupKind where
  | code
  | metadata
  deriving DecidableEq, Repr

structure PackGroupConfig where
  kind : PackGroupKind
  included : List String
  subtract : List String
  deriving DecidableEq, Repr

structure RefsConfig where
  advertise : List String
  packfiles : SortedMap String PackGroupConfig

namespace RefsConfig

def isMetadataRef (name : String) : Bool := name = "refs/meta" || startsWith "refs/meta/" name

/-- `strip_prefix` of one character. -/
def stripPrefix (c : Char) (s : String) : Option String :=
  match s.toList with
  | d :: rest => if d = c then some (String.ofList rest) else none
  | [] => none

/-- `strip_suffix` of one character. -/
def stripSuffix (c : Char) (s : String) : Option String :=
  if s.toList.getLast? = some c then some (String.ofList s.toList.dropLast) else none

def validRef (name : String) : Bool := Snapshot.validRef name

/-- A validated selector's positive pattern. -/
def selectorMatches (pattern name headTarget : String) : Bool :=
  if pattern = "HEAD" then headTarget ≠ "" && name = headTarget
  else
    match stripSuffix '*' pattern with
    | some p => startsWith p name
    | none => name = pattern

/-- The last selector that matches wins; a name that none matches is excluded. -/
def selectorsMatch (selectors : List String) (name headTarget : String) : Bool :=
  selectors.foldl (fun included selector =>
    let (negative, pattern) :=
      match stripPrefix '!' selector with
      | some p => (true, p)
      | none => (false, selector)
    if selectorMatches pattern name headTarget then !negative else included) false

section Validate

variable [CharTables]

def validateSelectors (selectors : List String) : Except String Unit := do
  if !(selectors.length ≤ 256) then throw "at most 256 ref selectors per list"
  selectors.forM fun selector => do
    let pattern := (stripPrefix '!' selector).getD selector
    let valid :=
      if pattern = "HEAD" then true
      else
        match stripSuffix '*' pattern with
        | some p => validRef (p ++ "x")
        | none => validRef pattern
    if !valid then throw ("invalid ref selector " ++ debug selector)

def validGroupName (name : String) : Bool :=
  name ≠ "" && !startsWith "_" name &&
    name.toList.all fun c => c.isAlphanum || c = '-' || c = '_'

def byteLen (l : List String) : ℕ := (l.map String.utf8ByteSize).sum

/-- The groups a group subtracts. -/
def dependencies (groups : SortedMap String PackGroupConfig) (name : String) : List String :=
  ((groups.find? name).map PackGroupConfig.subtract).getD []

def validateGroup (groups : SortedMap String PackGroupConfig) (name : String)
    (group : PackGroupConfig) : Except String Unit := do
  if !validGroupName name then throw ("invalid pack group name " ++ debug name)
  validateSelectors group.included
  if !(group.subtract.length ≤ 32) then throw ("too many dependencies for group " ++ name)
  if !decide group.subtract.Nodup then throw ("duplicate dependencies for group " ++ name)
  group.subtract.forM fun dep =>
    match groups.find? dep with
    | none => throw ("unknown dependency " ++ dep ++ " for group " ++ name)
    | some target => do
      if !(group.kind = .code && target.kind = .code) then
        throw "subtraction is permitted only between code groups"

/-- The depth-first search for a group that depends on itself. -/
def visitAll (groups : SortedMap String PackGroupConfig) : Except String (List String) :=
  (groups.keys.foldlM (fun done name =>
    DepthFirst.visit (dependencies groups) (groups.keys.length + 1) [] name done) []).mapError
      fun name => "pack group dependency cycle at " ++ name

def validate (cfg : RefsConfig) : Except String Unit := do
  if !(cfg.packfiles.entries.length ≤ 32) then throw "at most 32 pack groups"
  validateSelectors cfg.advertise
  cfg.packfiles.entries.forM fun g => validateGroup cfg.packfiles g.1 g.2
  let bytes := byteLen cfg.advertise + (cfg.packfiles.entries.map fun g =>
    g.1.utf8ByteSize + byteLen g.2.included + byteLen g.2.subtract).sum
  if !(bytes ≤ 16 * 1024) then throw "ref policy exceeds 16 KiB"
  let _ ← visitAll cfg.packfiles
  pure ()

end Validate

end RefsConfig

def PackGroupConfig.matchesRef (group : PackGroupConfig) (name headTarget : String) : Bool :=
  RefsConfig.isMetadataRef name = (group.kind = .metadata) &&
    RefsConfig.selectorsMatch group.included name headTarget

namespace RefsConfig

/-- The search has fuel for every group: with more it finds the same. -/
theorem visit_fuel (groups : SortedMap String PackGroupConfig) {fuel : ℕ}
    (hfuel : groups.keys.length < fuel) (done : List String) (name : String) :
    DepthFirst.visit (dependencies groups) fuel [] name done =
      DepthFirst.visit (dependencies groups) (groups.keys.length + 1) [] name done := by
  refine DepthFirst.visit_fuel (fun n (hn : n ∉ groups.keys) => ?_) ?_ ?_
  · have hnone : groups.find? n = none := by
      rw [SortedMap.mem_keys] at hn
      exact Option.not_isSome_iff_eq_none.mp hn
    simp [dependencies, hnone]
  · simpa using hfuel
  · simp

variable [CharTables]

theorem validate_ok {cfg : RefsConfig} (h : cfg.validate = .ok ()) :
    (∀ g ∈ cfg.packfiles.entries, validateGroup cfg.packfiles g.1 g.2 = .ok ()) ∧
      ∃ done, visitAll cfg.packfiles = .ok done := by
  simp only [validate, Checks.guard_ok, Checks.bind_eq_ok] at h
  obtain ⟨-, _, -, _, hgroups, -, done, hdone, -⟩ := h
  exact ⟨Checks.forM_ok.mp hgroups, done, hdone⟩

/-- The groups of a validated configuration can be put in an order in which each comes before
those it subtracts. -/
theorem validate_ordered {cfg : RefsConfig} (h : cfg.validate = .ok ()) :
    ∃ l, DepthFirst.Ordered (dependencies cfg.packfiles) l ∧ cfg.packfiles.keys ⊆ l := by
  obtain ⟨-, done, hdone⟩ := validate_ok h
  unfold visitAll at hdone
  cases hvisits : cfg.packfiles.keys.foldlM (fun done name =>
      DepthFirst.visit (dependencies cfg.packfiles) (cfg.packfiles.keys.length + 1) [] name done)
      [] with
  | error name =>
    rw [hvisits] at hdone
    cases hdone
  | ok order => exact ⟨order, DepthFirst.visits_ordered hvisits trivial⟩

/-- The groups that a group of a validated configuration subtracts are groups too, and all of
them package code. -/
theorem validate_subtract {cfg : RefsConfig} (h : cfg.validate = .ok ()) {name dep : String}
    {group : PackGroupConfig} (hgroup : cfg.packfiles.find? name = some group)
    (hdep : dep ∈ group.subtract) :
    group.kind = .code ∧ ∃ target, cfg.packfiles.find? dep = some target ∧ target.kind = .code := by
  obtain ⟨hgroups, -⟩ := validate_ok h
  have hok := hgroups (name, group) (SortedMap.find?_eq_some_iff.mp hgroup)
  simp only [validateGroup, Checks.guard_ok, Checks.bind_eq_ok, Checks.forM_ok] at hok
  obtain ⟨-, _, -, -, -, hdeps⟩ := hok
  have hcheck := hdeps dep hdep
  split at hcheck
  · cases hcheck
  · rename_i target htarget
    rw [Checks.last_ok] at hcheck
    simpa [htarget] using hcheck.1

end RefsConfig

end Walgit
