import Mathlib.Algebra.Order.BigOperators.Group.List
import Walgit.PrefixCodes
import Walgit.RefsConfig
import Walgit.StoredSnapshots

/-!
# The identity of a group policy

The hash that names the pack groups of a configuration. It runs over framed fields, so with a
hash that has no collisions two valid tables have one identity only if they are the same up to
the order in which a group lists what it subtracts.
-/
namespace Walgit

open PrefixCodes (Delimits bigEndian)
open Text (CharTables)

def PackGroupKind.text : PackGroupKind → String
  | .code => "code"
  | .metadata => "meta"

namespace RefsConfig

/-- A value after its length. -/
def field (s : String) : List UInt8 :=
  bigEndian 8 (Utf8.encode s.toList).length ++ Utf8.encode s.toList

def listField (l : List String) : List UInt8 := bigEndian 8 l.length ++ l.flatMap field

/-- The subtracted groups as a set, in their order. -/
def depSet (group : PackGroupConfig) : List String := (SortedMap.setOf group.subtract).keys

def groupBytes (g : String × PackGroupConfig) : List UInt8 :=
  field g.1 ++ field g.2.kind.text ++ listField g.2.included ++ listField (depSet g.2)

/-- What is hashed. The advertised refs are left out. -/
def policyBytes (cfg : RefsConfig) : List UInt8 :=
  Utf8.encode "walgit-pack-policy-v1\x00".toList ++
    (bigEndian 8 cfg.packfiles.entries.length ++ cfg.packfiles.entries.flatMap groupBytes)

/-- `policy_identity` down to the bytes it hashes. -/
def policyIdentityHex (sha256 : List UInt8 → List UInt8) (cfg : RefsConfig) : String :=
  String.ofList (hexEncode (sha256 (policyBytes cfg)))

/-- One group under one name, up to the order of what it subtracts. -/
structure SameGroup (g g' : String × PackGroupConfig) : Prop where
  name : g.1 = g'.1
  kind : g.2.kind = g'.2.kind
  included : g.2.included = g'.2.included
  subtract : g.2.subtract.Perm g'.2.subtract

def SameGroups (cfg cfg' : RefsConfig) : Prop :=
  List.Forall₂ SameGroup cfg.packfiles.entries cfg'.packfiles.entries

/-- A group subtracts another one, directly or through others. -/
def DependsOn (cfg : RefsConfig) : String → String → Prop :=
  Relation.TransGen fun name dep => dep ∈ dependencies cfg.packfiles name

/-- No group depends on itself, and only groups are subtracted. -/
structure Acyclic (cfg : RefsConfig) : Prop where
  irreflexive : ∀ name, ¬ cfg.DependsOn name name
  closed : ∀ name, ∀ dep ∈ dependencies cfg.packfiles name, (cfg.packfiles.find? dep).isSome

section Framing

def Short (s : String) : Prop := s.utf8ByteSize < 2 ^ 64

def ShortList (l : List String) : Prop := l.length < 2 ^ 64 ∧ ∀ s ∈ l, Short s

theorem delimits_field : Delimits Short field := by
  have hinj : Function.Injective fun s : String => Utf8.encode s.toList :=
    fun s t h => String.toList_inj.mp (Utf8.encode_injective h)
  refine ((PrefixCodes.delimits_framed (PrefixCodes.delimits_bigEndian 8)).comap hinj).mono ?_
  intro s hs
  rw [Short, ← String.ofList_toList (s := s), Utf8.utf8ByteSize_ofList] at hs
  exact hs

theorem delimits_listField : Delimits ShortList listField :=
  delimits_field.list (PrefixCodes.delimits_bigEndian 8)

/-- What is hashed of a group. -/
def row (g : String × PackGroupConfig) : ((String × String) × List String) × List String :=
  (((g.1, g.2.kind.text), g.2.included), depSet g.2)

def rowBytes (r : ((String × String) × List String) × List String) : List UInt8 :=
  field r.1.1.1 ++ field r.1.1.2 ++ listField r.1.2 ++ listField r.2

def ShortRow (r : ((String × String) × List String) × List String) : Prop :=
  ((Short r.1.1.1 ∧ Short r.1.1.2) ∧ ShortList r.1.2) ∧ ShortList r.2

theorem delimits_rowBytes : Delimits ShortRow rowBytes :=
  ((delimits_field.pair delimits_field).pair delimits_listField).pair delimits_listField

theorem flatMap_groupBytes (l : List (String × PackGroupConfig)) :
    l.flatMap groupBytes = (l.map row).flatMap rowBytes := by
  rw [List.flatMap_map]
  rfl

theorem policyBytes_inj {cfg cfg' : RefsConfig} (hcount : cfg.packfiles.entries.length < 2 ^ 64)
    (hcount' : cfg'.packfiles.entries.length < 2 ^ 64)
    (hshort : ∀ g ∈ cfg.packfiles.entries, ShortRow (row g))
    (hshort' : ∀ g ∈ cfg'.packfiles.entries, ShortRow (row g))
    (h : policyBytes cfg = policyBytes cfg') :
    cfg.packfiles.entries.map row = cfg'.packfiles.entries.map row := by
  have hlist := delimits_rowBytes.list (PrefixCodes.delimits_bigEndian 8)
  have hlength (c : RefsConfig) : (c.packfiles.entries.map row).length =
      c.packfiles.entries.length := List.length_map row
  unfold policyBytes at h
  rw [flatMap_groupBytes, flatMap_groupBytes, ← hlength cfg, ← hlength cfg'] at h
  exact hlist.injOn ⟨by rwa [List.length_map], List.forall_mem_map.mpr hshort⟩
    ⟨by rwa [List.length_map], List.forall_mem_map.mpr hshort'⟩ (List.append_cancel_left h)

end Framing

section Sets

theorem mem_depSet {group : PackGroupConfig} {dep : String} :
    dep ∈ depSet group ↔ dep ∈ group.subtract := by
  rw [depSet, SortedMap.mem_keys, SortedMap.isSome_setOf]

theorem depSet_perm {group : PackGroupConfig} (h : group.subtract.Nodup) :
    (depSet group).Perm group.subtract :=
  (List.perm_ext_iff_of_nodup (SortedMap.nodup_keys _) h).mpr fun _ => mem_depSet

/-- Sets are written in one order. -/
theorem depSet_eq_iff {group group' : PackGroupConfig} (h : group.subtract.Nodup)
    (h' : group'.subtract.Nodup) :
    depSet group = depSet group' ↔ group.subtract.Perm group'.subtract := by
  constructor
  · intro heq
    exact (depSet_perm h).symm.trans (heq ▸ depSet_perm h')
  · intro hperm
    have hsorted (g : PackGroupConfig) : (depSet g).Pairwise (· < ·) :=
      List.pairwise_map.mpr (SortedMap.setOf g.subtract).sorted
    exact ((depSet_perm h).trans (hperm.trans (depSet_perm h').symm)).eq_of_pairwise
      (fun _ _ _ _ hab hba => absurd (hab.trans hba) (lt_irrefl _)) (hsorted _) (hsorted _)

theorem kindText_inj {kind kind' : PackGroupKind} (h : kind.text = kind'.text) : kind = kind' := by
  cases kind <;> cases kind' <;> first | rfl | exact absurd h (by decide)

theorem row_eq_iff {g g' : String × PackGroupConfig} (h : g.2.subtract.Nodup)
    (h' : g'.2.subtract.Nodup) : row g = row g' ↔ SameGroup g g' := by
  simp only [row, Prod.mk.injEq, depSet_eq_iff h h']
  exact ⟨fun ⟨⟨⟨hname, hkind⟩, hincluded⟩, hsubtract⟩ =>
      ⟨hname, kindText_inj hkind, hincluded, hsubtract⟩,
    fun hsame => ⟨⟨⟨hsame.name, congrArg _ hsame.kind⟩, hsame.included⟩, hsame.subtract⟩⟩

end Sets

section Valid

variable [CharTables] {cfg cfg' : RefsConfig}

omit [CharTables] in
theorem le_byteLen {l : List String} {s : String} (h : s ∈ l) : s.utf8ByteSize ≤ byteLen l :=
  List.le_sum_of_mem (List.mem_map_of_mem h)

theorem validate_bounds (h : cfg.validate = .ok ()) : cfg.packfiles.entries.length ≤ 32 ∧
    ∀ g ∈ cfg.packfiles.entries,
      g.1.utf8ByteSize + byteLen g.2.included + byteLen g.2.subtract ≤ 16 * 1024 := by
  simp only [validate, Checks.guard_ok, Checks.bind_eq_ok] at h
  obtain ⟨hcount, _, -, _, -, hbytes, -⟩ := h
  simp only [Bool.not_eq_true', decide_eq_false_iff_not, not_not] at hcount hbytes
  refine ⟨hcount, fun g hg => ?_⟩
  have hle := List.le_sum_of_mem (List.mem_map_of_mem (f := fun g : String × PackGroupConfig =>
    g.1.utf8ByteSize + byteLen g.2.included + byteLen g.2.subtract) hg)
  omega

theorem validate_group (h : cfg.validate = .ok ()) {g : String × PackGroupConfig}
    (hg : g ∈ cfg.packfiles.entries) : g.2.included.length ≤ 256 ∧ g.2.subtract.length ≤ 32 ∧
      g.2.subtract.Nodup := by
  have hok := (validate_ok h).1 g hg
  simp only [validateGroup, validateSelectors, Checks.guard_ok, Checks.bind_eq_ok] at hok
  obtain ⟨-, _, hincluded, hsubtract, hnodup, -⟩ := hok
  simp only [Bool.not_eq_true', decide_eq_false_iff_not, not_not] at hincluded hsubtract hnodup
  exact ⟨hincluded.1, hsubtract, hnodup⟩

/-- Everything a valid configuration has hashed fits its length field. -/
theorem validate_short (h : cfg.validate = .ok ()) {g : String × PackGroupConfig}
    (hg : g ∈ cfg.packfiles.entries) : ShortRow (row g) := by
  have hbytes := (validate_bounds h).2 g hg
  obtain ⟨hincluded, hsubtract, hnodup⟩ := validate_group h hg
  have hdeps := (depSet_perm hnodup).length_eq
  have hkind : Short g.2.kind.text := by
    unfold Short
    cases g.2.kind with
    | code => decide
    | metadata => decide
  refine ⟨⟨⟨?_, hkind⟩, ⟨?_, fun s hs => ?_⟩⟩, ⟨?_, fun s hs => ?_⟩⟩
  · show g.1.utf8ByteSize < 2 ^ 64
    omega
  · show g.2.included.length < 2 ^ 64
    omega
  · have hle := le_byteLen hs
    show s.utf8ByteSize < 2 ^ 64
    simp only [row] at hle
    omega
  · show (depSet g.2).length < 2 ^ 64
    omega
  · have hle := le_byteLen (mem_depSet.mp hs)
    show s.utf8ByteSize < 2 ^ 64
    omega

omit [CharTables] in
theorem forall₂_iff_map_eq {l m : List (String × PackGroupConfig)}
    (h : ∀ g ∈ l, ∀ g' ∈ m, row g = row g' ↔ SameGroup g g') :
    List.Forall₂ SameGroup l m ↔ l.map row = m.map row := by
  induction l generalizing m with
  | nil => simp [List.forall₂_nil_left_iff, eq_comm]
  | cons g l ih =>
    cases m with
    | nil => simp
    | cons g' m =>
      rw [List.forall₂_cons, List.map_cons, List.map_cons, List.cons.injEq,
        h g List.mem_cons_self g' List.mem_cons_self,
        ih fun a ha b hb => h a (List.mem_cons_of_mem g ha) b (List.mem_cons_of_mem g' hb)]

theorem policyBytes_iff (h : cfg.validate = .ok ()) (h' : cfg'.validate = .ok ()) :
    policyBytes cfg = policyBytes cfg' ↔ SameGroups cfg cfg' := by
  have hcount := (validate_bounds h).1
  have hcount' := (validate_bounds h').1
  rw [SameGroups, forall₂_iff_map_eq fun g hg g' hg' =>
    row_eq_iff (validate_group h hg).2.2 (validate_group h' hg').2.2]
  constructor
  · exact policyBytes_inj (by omega) (by omega) (fun g hg => validate_short h hg)
      fun g hg => validate_short h' hg
  · intro hrows
    have hlength := congrArg List.length hrows
    rw [List.length_map, List.length_map] at hlength
    rw [policyBytes, policyBytes, flatMap_groupBytes, flatMap_groupBytes, hrows, hlength]

/-- Nothing can be followed from dependency to dependency forever. -/
theorem validate_acyclic (h : cfg.validate = .ok ()) : cfg.Acyclic := by
  obtain ⟨l, hordered, hkeys⟩ := validate_ordered h
  have hacc : ∀ name ∈ l, Acc (fun dep name => dep ∈ dependencies cfg.packfiles name) name :=
    hordered.forall_mem fun name hdeps => Acc.intro name hdeps
  have hwf : WellFounded fun dep name => dep ∈ dependencies cfg.packfiles name := by
    refine ⟨fun name => ?_⟩
    by_cases hname : name ∈ cfg.packfiles.keys
    · exact hacc name (hkeys hname)
    · refine Acc.intro name fun dep hdep => ?_
      rw [SortedMap.mem_keys, Option.not_isSome_iff_eq_none] at hname
      simp [dependencies, hname] at hdep
  refine ⟨fun name hcycle => ?_, fun name dep hdep => ?_⟩
  · have hswap := Relation.transGen_swap.mp hcycle
    exact hwf.transGen.irrefl.irrefl name hswap
  · unfold dependencies at hdep
    cases hgroup : cfg.packfiles.find? name with
    | none => simp [hgroup] at hdep
    | some group =>
      rw [hgroup] at hdep
      obtain ⟨-, target, htarget, -⟩ := validate_subtract h hgroup hdep
      rw [htarget]
      rfl

/-- A hash without collisions names the group tables of valid configurations up to the order of
what they subtract, and a valid configuration has no group that depends on itself. -/
theorem policyIdentity_faithful {sha256 : List UInt8 → List UInt8}
    (hinj : Function.Injective sha256) :
    (∀ cfg cfg' : RefsConfig, cfg.validate = .ok () → cfg'.validate = .ok () →
      (policyIdentityHex sha256 cfg = policyIdentityHex sha256 cfg' ↔ SameGroups cfg cfg')) ∧
    ∀ cfg : RefsConfig, cfg.validate = .ok () → cfg.Acyclic := by
  refine ⟨fun cfg cfg' h h' => ?_, fun cfg h => validate_acyclic h⟩
  rw [← policyBytes_iff h h']
  constructor
  · intro heq
    exact hinj (Snapshot.hexEncode_injective (String.ofList_inj.mp heq))
  · intro heq
    rw [policyIdentityHex, policyIdentityHex, heq]

end Valid

section Runs

attribute [local instance] Text.asciiTables

/-- Two groups, the second of which subtracts what is given. -/
def twoGroups (subtract : List String) : RefsConfig where
  advertise := ["refs/heads/*"]
  packfiles := .ofList [("code", ⟨.code, ["HEAD"], []⟩), ("docs", ⟨.code, ["HEAD"], subtract⟩)]

theorem policyIdentity_faithful_twoGroups :
    (twoGroups ["code"]).validate = .ok () ∧
      (policyIdentityHex id (twoGroups ["code"]) ≠ policyIdentityHex id (twoGroups []) ∧
        (twoGroups ["code"]).Acyclic) := by
  have hvalid : (twoGroups ["code"]).validate = .ok () := by decide
  have hvalid' : (twoGroups []).validate = .ok () := by decide
  obtain ⟨hidentity, hacyclic⟩ := @policyIdentity_faithful _ id Function.injective_id
  refine ⟨hvalid, fun heq => ?_, hacyclic _ hvalid⟩
  have hsame := (hidentity _ _ hvalid hvalid').mp heq
  have hentries : (twoGroups ["code"]).packfiles.entries =
      [("code", ⟨.code, ["HEAD"], []⟩), ("docs", ⟨.code, ["HEAD"], ["code"]⟩)] := by decide
  have hentries' : (twoGroups []).packfiles.entries =
      [("code", ⟨.code, ["HEAD"], []⟩), ("docs", ⟨.code, ["HEAD"], []⟩)] := by decide
  rw [SameGroups, hentries, hentries'] at hsame
  cases hsame with
  | cons _ hrest =>
    cases hrest with
    | cons hdocs _ => exact absurd hdocs.subtract (by decide)

end Runs

end RefsConfig

end Walgit
