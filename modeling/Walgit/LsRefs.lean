import Walgit.Adverts
import Walgit.Ranges
import Walgit.RefCache

/-!
# Listing refs

`ls-refs` finds the refs of every prefix by binary search in the sorted snapshot and merges the
ranges. What it lists is what a pass over all refs would.
-/
namespace Walgit

open Text

namespace RefSnapshotData

/-- The range of a prefix: its start is searched for, its end is where names stop to match. -/
def prefixRange (d : RefSnapshotData) (p : String) : ℕ × ℕ :=
  let start := BinarySearch.partitionPoint (fun r => decide (r.name < p)) d.refs
  (start, start + ((d.refs.drop start).takeWhile fun r => startsWith p r.name).length)

def selectPrefixes (d : RefSnapshotData) (prefixes : List String) : Option (List Ref) :=
  Ranges.merge d.refs (sortByKey Prod.fst (sortByKey Prod.snd (prefixes.map d.prefixRange)))

/-- No prefixes match every name. -/
def matchesPrefixes (prefixes : List String) (name : String) : Bool :=
  prefixes.isEmpty || prefixes.any fun p => startsWith p name

/-- What is listed for HEAD, resolved to the entry found for its target. -/
def headLines (d : RefSnapshotData) (args : LsRefsArgs) (target : Option Ref) :
    List LsRefsLine :=
  if matchesPrefixes args.refPrefixes "HEAD" && d.headTarget ≠ "" then
    match target with
    | some r => [⟨"HEAD", r.oid, "", some d.headTarget⟩]
    | none => if args.unborn then [⟨"HEAD", "unborn", "", some d.headTarget⟩] else []
  else []

def refLine (r : Ref) : LsRefsLine := ⟨r.name, r.oid, r.peeled, none⟩

def selectedRefs (d : RefSnapshotData) (prefixes : List String) : Except GitError (List Ref) :=
  if prefixes.isEmpty then .ok d.refs
  else
    match d.selectPrefixes prefixes with
    | some refs => .ok refs
    | none => .error (.invalidInput "ref prefix range out of bounds")

def lsRefs (d : RefSnapshotData) (args : LsRefsArgs) : Except GitError (List LsRefsLine) := do
  let selected ← d.selectedRefs args.refPrefixes
  let lines := (selected.filter fun r => r.name ≠ "HEAD").map refLine
  .ok (lines ++ d.headLines args (d.find? d.headTarget))

end RefSnapshotData

section Prefixes

/-- What lies between a list and one it starts, starts with it as well. -/
theorem isPrefix_of_between {p y z : List Char} (hz : p <+: z) (hpy : ¬ y < p) (hyz : ¬ z < y) :
    p <+: y := by
  induction p generalizing y z with
  | nil => exact List.nil_prefix
  | cons a p ih =>
    obtain ⟨rest, rfl⟩ := hz
    cases y with
    | nil => exact absurd (List.nil_lt_cons a p) hpy
    | cons b y =>
      rw [List.cons_append, List.cons_lt_cons_iff, not_or, not_and] at hyz
      rw [List.cons_lt_cons_iff, not_or, not_and] at hpy
      have hab : a = b := le_antisymm (not_lt.mp hpy.1) (not_lt.mp hyz.1)
      subst hab
      exact List.cons_prefix_cons.mpr
        ⟨rfl, ih (List.prefix_append p rest) (hpy.2 rfl) (hyz.2 rfl)⟩

theorem not_lt_of_startsWith {p s : String} (h : startsWith p s = true) : ¬ s < p := by
  obtain ⟨rest, hrest⟩ := List.isPrefixOf_iff_prefix.mp h
  rw [String.lt_iff_toList_lt, ← hrest]
  have hle : ¬ p.toList ++ rest < p.toList := List.le_append_left
  exact hle

theorem startsWith_of_between {p s t : String} (ht : startsWith p t = true) (hps : ¬ s < p)
    (hst : ¬ t < s) : startsWith p s = true := by
  rw [String.lt_iff_toList_lt] at hps hst
  exact List.isPrefixOf_iff_prefix.mpr
    (isPrefix_of_between (List.isPrefixOf_iff_prefix.mp ht) hps hst)

end Prefixes

namespace RefSnapshotData

variable {d : RefSnapshotData}

theorem Sorted.not_lt (h : d.Sorted) {i j : ℕ} (hi : i < d.refs.length)
    (hj : j < d.refs.length) (hij : i ≤ j) : ¬ d.refs[j].name < d.refs[i].name := by
  rcases Nat.lt_or_eq_of_le hij with hlt | rfl
  · exact lt_asymm (List.pairwise_iff_getElem.mp h i j hi hj hlt)
  · exact lt_irrefl _

/-- The range of a prefix is where the names start with it. -/
theorem prefixRange_selects (h : d.Sorted) (p : String) :
    Ranges.Selects d.refs (fun r => startsWith p r.name) (d.prefixRange p) := by
  have hstart : ∀ i (hi : i < d.refs.length),
      i < (d.prefixRange p).1 ↔ d.refs[i].name < p := by
    intro i hi
    have hbelow : d.refs.Pairwise fun a b =>
        decide (b.name < p) = true → decide (a.name < p) = true := by
      refine h.imp fun {a b} hab hb => ?_
      rw [decide_eq_true_eq] at hb ⊢
      exact hab.trans hb
    rw [prefixRange, BinarySearch.lt_partitionPoint hbelow hi, decide_eq_true_eq]
  have hstop : ∀ i (hi : i < d.refs.length), (d.prefixRange p).1 ≤ i →
      (i < (d.prefixRange p).2 ↔
        ∀ j (hj : j < d.refs.length), (d.prefixRange p).1 ≤ j → j ≤ i →
          startsWith p d.refs[j].name = true) := by
    intro i hi hge
    obtain ⟨k, rfl⟩ := Nat.exists_eq_add_of_le hge
    rw [show (d.prefixRange p).2 = (d.prefixRange p).1 +
      ((d.refs.drop (d.prefixRange p).1).takeWhile fun r => startsWith p r.name).length from rfl,
      Nat.add_lt_add_iff_left, Ranges.lt_length_takeWhile]
    constructor
    · rintro ⟨-, hall⟩ j hj hge' hle
      obtain ⟨m, rfl⟩ := Nat.exists_eq_add_of_le hge'
      have hm : m < (d.refs.drop (d.prefixRange p).1).length := by
        rw [List.length_drop]
        omega
      have := hall m hm (by omega)
      rwa [List.getElem_drop] at this
    · refine fun hall => ⟨by rw [List.length_drop]; omega, fun j hj hle => ?_⟩
      rw [List.length_drop] at hj
      rw [List.getElem_drop]
      exact hall _ (by omega) (by omega) (by omega)
  refine ⟨?_, fun i hi => ⟨fun hp => ?_, fun hin => ?_⟩⟩
  · have hle : (d.prefixRange p).1 ≤ d.refs.length := BinarySearch.partitionPoint_le _ _
    have hscan := (List.takeWhile_prefix (fun r : Ref => startsWith p r.name)
      (l := d.refs.drop (d.prefixRange p).1)).length_le
    rw [List.length_drop] at hscan
    exact Nat.add_le_of_le_sub' hle hscan
  · have hge : (d.prefixRange p).1 ≤ i := by
      by_contra hlt
      exact absurd ((hstart i hi).mp (by omega)) (not_lt_of_startsWith hp)
    refine ⟨hge, (hstop i hi hge).mpr fun j hj hge' hle => ?_⟩
    have hpj : ¬ d.refs[j].name < p := fun hlt => by
      have := (hstart j hj).mpr hlt
      omega
    exact startsWith_of_between hp hpj (h.not_lt hj hi hle)
  · exact (hstop i hi hin.1).mp hin.2 i hi hin.1 (Nat.le_refl i)

theorem map_sortByKey {α β : Type} (f : α → β) {k : β → ℕ} {l : List α} :
    (sortByKey (fun a => k (f a)) l).map f = sortByKey k (l.map f) :=
  List.map_insertionSort _ (fun a b => k a ≤ k b) f l fun _ _ _ _ => Iff.rfl

/-- The merged ranges are a filter by all prefixes. -/
theorem selectPrefixes_eq (h : d.Sorted) (prefixes : List String) :
    d.selectPrefixes prefixes =
      some (d.refs.filter fun r => prefixes.any fun p => startsWith p r.name) := by
  obtain ⟨ps, hmap, hperm⟩ : ∃ ps : List String,
      sortByKey Prod.fst (sortByKey Prod.snd (prefixes.map d.prefixRange)) =
        ps.map d.prefixRange ∧ ps.Perm prefixes := by
    refine ⟨sortByKey (fun p => (d.prefixRange p).1)
      (sortByKey (fun p => (d.prefixRange p).2) prefixes), ?_, ?_⟩
    · rw [map_sortByKey d.prefixRange, map_sortByKey d.prefixRange]
    · exact (List.perm_insertionSort _ _).trans (List.perm_insertionSort _ _)
  have hsorted : ps.Pairwise fun p p' => (d.prefixRange p).1 ≤ (d.prefixRange p').1 := by
    rw [← List.pairwise_map (R := fun a b : ℕ × ℕ => a.1 ≤ b.1), ← hmap]
    exact List.pairwise_insertionSort _ _
  rw [selectPrefixes, hmap, Ranges.merge_eq_filter (fun p _ => prefixRange_selects h p) hsorted]
  refine congrArg some (List.filter_congr fun r _ => ?_)
  exact hperm.any_eq

theorem find?_eq_find? (h : d.Sorted) (name : String) :
    d.find? name = d.refs.find? fun r => r.name = name := by
  unfold find?
  cases hsearch : BinarySearch.search Ref.name d.refs name with
  | ok i =>
    obtain ⟨before, r, after, hrefs, rfl, rfl⟩ := BinarySearch.search_ok hsearch
    have hbefore : ∀ r' ∈ before, r'.name < r.name := by
      rw [Sorted, hrefs, List.pairwise_append] at h
      exact fun r' hr' => h.2.2 r' hr' r List.mem_cons_self
    have hnone : before.find? (fun r' => r'.name = r.name) = none :=
      List.find?_eq_none.mpr fun r' hr' => by simpa using (hbefore r' hr').ne
    simp [hrefs, List.find?_append, hnone]
  | error i =>
    obtain ⟨before, after, hrefs, -, hbefore, hafter⟩ := BinarySearch.search_error h hsearch
    symm
    refine List.find?_eq_none.mpr fun r hr => ?_
    rw [hrefs, List.mem_append] at hr
    rcases hr with hr | hr
    · simpa using (hbefore r hr).ne
    · simpa using (hafter r hr).ne'

theorem selectedRefs_eq (h : d.Sorted) (prefixes : List String) :
    d.selectedRefs prefixes = .ok (d.refs.filter fun r => matchesPrefixes prefixes r.name) := by
  unfold selectedRefs
  split_ifs with hempty
  · simp [matchesPrefixes, hempty]
  · simp [selectPrefixes_eq h, matchesPrefixes, hempty]

theorem prefixRange_ofRefs {snap : RefSnapshot}
    (h : (⟨snap.refs, snap.headTarget⟩ : RefSnapshotData).Sorted) (p : String) :
    snap.prefixRange p = (⟨snap.refs, snap.headTarget⟩ : RefSnapshotData).prefixRange p := by
  have hbelow : snap.refs.Pairwise fun a b =>
      decide (b.name < p) = true → decide (a.name < p) = true := by
    refine h.imp fun {a b} hab hb => ?_
    rw [decide_eq_true_eq] at hb ⊢
    exact hab.trans hb
  have hstart : (snap.refs.takeWhile fun r => decide (r.name < p)).length =
      BinarySearch.partitionPoint (fun r => decide (r.name < p)) snap.refs := by
    have hlt : ∀ i, i < (snap.refs.takeWhile fun r => decide (r.name < p)).length ↔
        i < BinarySearch.partitionPoint (fun r => decide (r.name < p)) snap.refs := by
      intro i
      rw [Ranges.lt_length_takeWhile]
      constructor
      · rintro ⟨hi, hall⟩
        exact (BinarySearch.lt_partitionPoint hbelow hi).mpr (hall i hi (Nat.le_refl i))
      · intro hi
        have hlength := BinarySearch.partitionPoint_le (fun r => decide (r.name < p)) snap.refs
        refine ⟨by omega, fun j hj hle => ?_⟩
        exact (BinarySearch.lt_partitionPoint hbelow hj).mp (by omega)
    exact le_antisymm (le_of_forall_lt fun i hi => (hlt i).mp hi)
      (le_of_forall_lt fun i hi => (hlt i).mpr hi)
  simp only [RefSnapshot.prefixRange, prefixRange, hstart]

/-- A rendered advertisement lists what the snapshot lists. -/
theorem lsRefs_ofRefs {snap : RefSnapshot}
    (h : (⟨snap.refs, snap.headTarget⟩ : RefSnapshotData).Sorted) (args : LsRefsArgs) :
    (⟨snap.refs, snap.headTarget⟩ : RefSnapshotData).lsRefs args = .ok (snap.lsRefs args) := by
  have hselect : ∀ prefixes, snap.selectPrefixes prefixes =
      snap.refs.filter fun r => prefixes.any fun p => startsWith p r.name := by
    intro prefixes
    have hmerge := selectPrefixes_eq h prefixes
    obtain ⟨acc, hfold, hacc⟩ := Option.map_eq_some_iff.mp hmerge
    rw [RefSnapshot.selectPrefixes, List.map_congr_left fun p _ => prefixRange_ofRefs h p, ← hacc]
    exact congrArg Prod.fst (Ranges.foldl_of_foldlM hfold)
  have hselected : (⟨snap.refs, snap.headTarget⟩ : RefSnapshotData).selectedRefs
      args.refPrefixes = .ok (if args.refPrefixes = [] then snap.refs
        else snap.selectPrefixes args.refPrefixes) := by
    rw [selectedRefs_eq h, hselect]
    cases args.refPrefixes <;> simp [matchesPrefixes]
  have hmatches : matchesPrefixes args.refPrefixes "HEAD" =
      (args.refPrefixes = [] || args.refPrefixes.any fun p => startsWith p "HEAD") := by
    cases args.refPrefixes <;> simp [matchesPrefixes]
  rw [lsRefs, hselected, RefSnapshot.lsRefs]
  simp only [bind, Except.bind, headLines, hmatches, find?_eq_find? h]
  generalize (if args.refPrefixes = [] then snap.refs
    else snap.selectPrefixes args.refPrefixes) = selected
  generalize (decide (args.refPrefixes = []) || args.refPrefixes.any fun p =>
    startsWith p "HEAD") = matched
  cases matched with
  | false => exact congrArg Except.ok (List.append_nil _)
  | true =>
    by_cases hempty : snap.headTarget = ""
    · simp [hempty, refLine]
    · simp only [hempty, ne_eq, not_false_eq_true, decide_true, Bool.and_self, if_true, if_false]
      cases snap.refs.find? fun r => r.name = snap.headTarget with
      | some r => rfl
      | none => cases args.unborn <;> simp [refLine]

/-- Listing by ranges is listing by a pass over the refs: every ref but HEAD whose name starts
with one of the prefixes, once and in the order of the names, and HEAD by the same rule. -/
theorem lsRefs_eq_filter (h : d.Sorted) (args : LsRefsArgs) :
    let listed := d.refs.filter fun r => matchesPrefixes args.refPrefixes r.name && r.name ≠ "HEAD"
    d.lsRefs args =
        .ok (listed.map refLine ++
          d.headLines args (d.refs.find? fun r => r.name = d.headTarget)) ∧
      listed.Pairwise fun a b => a.name < b.name := by
  refine ⟨?_, List.Pairwise.filter _ h⟩
  rw [lsRefs, selectedRefs_eq h]
  simp only [bind, Except.bind, find?_eq_find? h, List.filter_filter, Bool.and_comm]

/-- Two branches and a tag, and HEAD on a branch. -/
def branches : RefSnapshotData :=
  ⟨[⟨"refs/heads/a", "11", ""⟩, ⟨"refs/heads/ab", "22", ""⟩, ⟨"refs/tags/v1", "33", "44"⟩],
    "refs/heads/ab"⟩

/-- One prefix twice, and one inside it. -/
theorem lsRefs_nested :
    branches.lsRefs ⟨["refs/heads/", "HEAD", "refs/heads/a", "refs/heads/"], true, true, false⟩ =
      .ok [⟨"refs/heads/a", "11", "", none⟩, ⟨"refs/heads/ab", "22", "", none⟩,
        ⟨"HEAD", "22", "", some "refs/heads/ab"⟩] := by
  have hlisted := (lsRefs_eq_filter (d := branches) (by decide)
    ⟨["refs/heads/", "HEAD", "refs/heads/a", "refs/heads/"], true, true, false⟩).1
  simpa [branches, matchesPrefixes, startsWith, headLines, refLine] using hlisted

end RefSnapshotData

end Walgit
