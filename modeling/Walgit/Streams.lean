import Mathlib.Data.List.Sort

/-!
# Sorted streams

What the line tools do to lists of records with a key: sort and keep one record of a key, go
through two ascending lists side by side, keep what is in both or what is in one of them.
-/
namespace Walgit.Streams

variable {α β κ : Type} [LinearOrder κ] (key : α → κ)

/-- The keys go up. -/
def Ascending (l : List α) : Prop := l.Pairwise fun a b => key a < key b

/-- The first record of every run of equal keys; `last` is the key before the list. -/
def firsts : Option κ → List α → List α
  | _, [] => []
  | last, a :: l => if last = some (key a) then firsts last l else a :: firsts (some (key a)) l

/-- A stable sort that keeps one record of a key. -/
def sortUnique (l : List α) : List α :=
  firsts key none (l.insertionSort fun a b => key a ≤ key b)

/-- The records of an ascending list whose keys are in another; stops where the other one ends. -/
def intersect (key' : β → κ) : List α → List β → List α
  | [], _ => []
  | a :: l, ids =>
    match ids.dropWhile fun b => key' b < key a with
    | [] => []
    | b :: ids => if key' b = key a then a :: intersect key' l (b :: ids)
      else intersect key' l (b :: ids)

inductive Column where
  | first
  | second
  | both
  deriving DecidableEq

/-- One record of the first list against the second; `next` goes on behind the record. -/
def commWith (next : List α → List (Column × α)) (a : α) (l : List α) :
    List α → List (Column × α)
  | [] => (a :: l).map fun c => (.first, c)
  | b :: bs =>
    if key a < key b then (.first, a) :: next (b :: bs)
    else if key b < key a then (.second, b) :: commWith next a l bs
    else (.both, a) :: next bs

/-- Two ascending lists side by side, every record in its column. -/
def comm : List α → List α → List (Column × α)
  | [], bs => bs.map fun b => (.second, b)
  | a :: l, bs => commWith key (comm l) a l bs

/-- The records that are only in the first list. -/
def onlyFirst (as bs : List α) : List α :=
  ((comm key as bs).filter fun c => c.1 = .first).map Prod.snd

/-- The records that are in one of the lists only. -/
def differences (as bs : List α) : List α :=
  ((comm key as bs).filter fun c => c.1 ≠ .both).map Prod.snd

section SortUnique

variable {key}

theorem firsts_sublist (last : Option κ) (l : List α) : (firsts key last l).Sublist l := by
  induction l generalizing last with
  | nil => exact List.Sublist.slnil
  | cons a l ih =>
    rw [firsts]
    split_ifs with h
    · exact (ih last).cons a
    · exact (ih _).cons_cons a

/-- In a list in order, what is kept lies above the key before it and ascends. -/
theorem firsts_ascending {last : Option κ} {l : List α}
    (hsorted : l.Pairwise fun a b => key a ≤ key b) (hlast : ∀ k ∈ last, ∀ a ∈ l, k ≤ key a) :
    Ascending key (firsts key last l) ∧ ∀ k ∈ last, ∀ a ∈ firsts key last l, k < key a := by
  induction l generalizing last with
  | nil => exact ⟨List.Pairwise.nil, by simp [firsts]⟩
  | cons a l ih =>
    obtain ⟨hhead, htail⟩ := List.pairwise_cons.mp hsorted
    rw [firsts]
    split_ifs with h
    · exact ih htail fun k hk b hb => hlast k hk b (List.mem_cons_of_mem a hb)
    · have hfrom : ∀ k ∈ some (key a), ∀ b ∈ l, k ≤ key b :=
        fun k hk b hb => Option.mem_some.mp hk ▸ hhead b hb
      obtain ⟨hasc, habove⟩ := ih htail hfrom
      have hbelow : ∀ k ∈ last, k < key a := fun k hk =>
        lt_of_le_of_ne (hlast k hk a List.mem_cons_self) fun heq => h (heq ▸ hk)
      refine ⟨List.pairwise_cons.mpr ⟨fun b hb => habove _ rfl b hb, hasc⟩, fun k hk b hb => ?_⟩
      rcases List.mem_cons.mp hb with rfl | hb
      · exact hbelow k hk
      · exact (hbelow k hk).trans (habove _ rfl b hb)

/-- Every key of the list is kept, but for the one before it. -/
theorem exists_mem_firsts {last : Option κ} {l : List α} {a : α} (ha : a ∈ l)
    (hlast : last ≠ some (key a)) : ∃ b ∈ firsts key last l, key b = key a := by
  induction l generalizing last with
  | nil => cases ha
  | cons c l ih =>
    rw [firsts]
    rcases List.mem_cons.mp ha with rfl | ha
    · rw [if_neg hlast]
      exact ⟨a, List.mem_cons_self, rfl⟩
    · split_ifs with h
      · exact ih ha hlast
      · by_cases hc : key c = key a
        · exact ⟨c, List.mem_cons_self, hc⟩
        · have hne : some (key c) ≠ some (key a) := fun heq => hc (Option.some.inj heq)
          obtain ⟨b, hb, hkey⟩ := ih ha hne
          exact ⟨b, List.mem_cons_of_mem c hb, hkey⟩

theorem sortUnique_ascending (l : List α) : Ascending key (sortUnique key l) := by
  have hsorted : (l.insertionSort fun a b => key a ≤ key b).Pairwise fun a b => key a ≤ key b :=
    have : Std.Total fun a b : α => key a ≤ key b := ⟨fun a b => le_total (key a) (key b)⟩
    have : IsTrans α fun a b : α => key a ≤ key b := ⟨fun _ _ _ => le_trans⟩
    List.pairwise_insertionSort _ l
  exact (firsts_ascending hsorted fun k hk => by cases hk).1

theorem mem_of_mem_sortUnique {l : List α} {a : α} (h : a ∈ sortUnique key l) : a ∈ l :=
  (List.mem_insertionSort _).mp ((firsts_sublist none _).subset h)

/-- Sorting keeps the keys. -/
theorem exists_mem_sortUnique {l : List α} {k : κ} :
    (∃ a ∈ sortUnique key l, key a = k) ↔ ∃ a ∈ l, key a = k := by
  constructor
  · rintro ⟨a, ha, rfl⟩
    exact ⟨a, mem_of_mem_sortUnique ha, rfl⟩
  · rintro ⟨a, ha, rfl⟩
    exact exists_mem_firsts ((List.mem_insertionSort _).mpr ha) (by simp)

end SortUnique

section Ascending

variable {key}

theorem Ascending.sublist {l l' : List α} (h : Ascending key l) (hsub : l'.Sublist l) :
    Ascending key l' := List.Pairwise.sublist hsub h

/-- Ascending lists with the same keys have the same keys in order. -/
theorem Ascending.map_eq {as bs : List α} (ha : Ascending key as) (hb : Ascending key bs)
    (h : ∀ k, (∃ a ∈ as, key a = k) ↔ ∃ b ∈ bs, key b = k) : as.map key = bs.map key := by
  have hperm : (as.map key).Perm (bs.map key) := by
    refine (List.perm_ext_iff_of_nodup ?_ ?_).mpr fun k => ?_
    · exact (List.pairwise_map.mpr ha).imp fun hlt => hlt.ne
    · exact (List.pairwise_map.mpr hb).imp fun hlt => hlt.ne
    · simpa only [List.mem_map] using h k
  exact hperm.eq_of_pairwise (fun _ _ _ _ hab hba => absurd hba hab.asymm)
    (List.pairwise_map.mpr ha) (List.pairwise_map.mpr hb)

end Ascending

section Intersect

variable {key} {key' : β → κ}

theorem intersect_sublist (l : List α) (ids : List β) :
    (intersect key key' l ids).Sublist l := by
  induction l generalizing ids with
  | nil => exact List.Sublist.slnil
  | cons a l ih =>
    rw [intersect]
    split
    · exact List.nil_sublist _
    · split_ifs with h
      · exact (ih _).cons_cons a
      · exact (ih _).cons a

/-- What is kept has its key in the other list, ascending or not. -/
theorem intersect_keys {l : List α} {ids : List β} {a : α}
    (h : a ∈ intersect key key' l ids) : ∃ b ∈ ids, key' b = key a := by
  induction l generalizing ids with
  | nil => cases h
  | cons c l ih =>
    have hsub := (List.dropWhile_sublist (fun b => key' b < key c) (l := ids)).subset
    rw [intersect] at h
    split at h
    · cases h
    · rename_i b rest hdrop
      rw [hdrop] at hsub
      split_ifs at h with hkey
      · rcases List.mem_cons.mp h with rfl | h
        · exact ⟨b, hsub List.mem_cons_self, hkey⟩
        · obtain ⟨b', hb', heq⟩ := ih h
          exact ⟨b', hsub hb', heq⟩
      · obtain ⟨b', hb', heq⟩ := ih h
        exact ⟨b', hsub hb', heq⟩

/-- What is dropped lies below every later record. -/
theorem mem_dropWhile {k : κ} {ids : List β} (hids : Ascending key' ids) {b : β}
    (hb : k ≤ key' b) : b ∈ ids.dropWhile (fun b => key' b < k) ↔ b ∈ ids := by
  induction ids with
  | nil => exact Iff.rfl
  | cons c ids ih =>
    rw [List.dropWhile_cons]
    split_ifs with h
    · have hne : b ≠ c := fun heq => absurd hb (not_le.mpr (heq ▸ by simpa using h))
      rw [ih (List.pairwise_cons.mp hids).2, List.mem_cons, or_iff_right hne]
    · exact Iff.rfl

/-- Two ascending lists meet in the records of the first whose keys are in the second. -/
theorem mem_intersect {l : List α} {ids : List β} (hl : Ascending key l)
    (hids : Ascending key' ids) {a : α} :
    a ∈ intersect key key' l ids ↔ a ∈ l ∧ ∃ b ∈ ids, key' b = key a := by
  induction l generalizing ids with
  | nil => simp [intersect]
  | cons c l ih =>
    obtain ⟨hhead, htail⟩ := List.pairwise_cons.mp hl
    set rest := ids.dropWhile fun b => key' b < key c with hrest
    have hdrop : Ascending key' rest := hids.sublist (List.dropWhile_sublist _)
    -- Records from `c` on find in the rest what they find in the list.
    have hkeys : ∀ d ∈ c :: l, (∃ b ∈ ids, key' b = key d) ↔ ∃ b ∈ rest, key' b = key d := by
      intro d hd
      have hle : key c ≤ key d := by
        rcases List.mem_cons.mp hd with rfl | hd
        · exact le_rfl
        · exact (hhead d hd).le
      refine exists_congr fun b => and_congr_left fun hkey => ?_
      exact (mem_dropWhile hids (hkey ▸ hle)).symm
    rw [intersect, ← hrest]
    cases hcase : rest with
    | nil =>
      rw [hcase] at hkeys
      simp only [List.not_mem_nil, false_iff, not_and]
      intro ha hb
      simpa using (hkeys a ha).mp hb
    | cons b rest' =>
      rw [hcase] at hkeys hdrop
      have htails : a ∈ intersect key key' l (b :: rest') ↔
          a ∈ l ∧ ∃ b ∈ ids, key' b = key a := by
        rw [ih htail hdrop]
        exact and_congr_right fun ha => (hkeys a (List.mem_cons_of_mem c ha)).symm
      have hb : key c ≤ key' b := by
        have hhead := List.head?_dropWhile_not (fun b => key' b < key c) ids
        rw [← hrest, hcase] at hhead
        simpa using hhead
      have hmatch : (∃ b ∈ ids, key' b = key c) ↔ key' b = key c := by
        rw [hkeys c List.mem_cons_self]
        constructor
        · rintro ⟨b', hb', hkey⟩
          rcases List.mem_cons.mp hb' with rfl | hb'
          · exact hkey
          · have hlt := (List.pairwise_cons.mp hdrop).1 b' hb'
            exact absurd (hkey ▸ hlt) (not_lt.mpr hb)
        · exact fun hkey => ⟨b, List.mem_cons_self, hkey⟩
      simp only
      split_ifs with heq
      · rw [List.mem_cons, List.mem_cons, htails]
        constructor
        · rintro (rfl | ⟨ha, hb⟩)
          · exact ⟨Or.inl rfl, hmatch.mpr heq⟩
          · exact ⟨Or.inr ha, hb⟩
        · rintro ⟨rfl | ha, hb⟩
          · exact Or.inl rfl
          · exact Or.inr ⟨ha, hb⟩
      · rw [htails, List.mem_cons]
        constructor
        · exact fun ⟨ha, hmem⟩ => ⟨Or.inr ha, hmem⟩
        · rintro ⟨rfl | ha, hmem⟩
          · exact absurd (hmatch.mp hmem) heq
          · exact ⟨ha, hmem⟩

end Intersect

section Comm

variable {key}

/-- Where the lists ascend, the first column has what is only in the first list. -/
theorem mem_comm_first {as bs : List α} (ha : Ascending key as) (hb : Ascending key bs) {a : α} :
    (Column.first, a) ∈ comm key as bs ↔ a ∈ as ∧ ∀ b ∈ bs, key b ≠ key a := by
  induction as generalizing bs with
  | nil => simp [comm]
  | cons c as ih =>
    obtain ⟨hhead, htail⟩ := List.pairwise_cons.mp ha
    rw [comm]
    induction bs with
    | nil => simp [commWith]
    | cons b bs ih' =>
      obtain ⟨hheadb, htailb⟩ := List.pairwise_cons.mp hb
      rw [commWith]
      split_ifs with hlt hgt
      · -- Every key of the second list is above that of the record.
        have habove : ∀ b' ∈ b :: bs, key c < key b' := by
          intro b' hb'
          rcases List.mem_cons.mp hb' with rfl | hb'
          · exact hlt
          · exact hlt.trans (hheadb b' hb')
        rw [List.mem_cons, List.mem_cons, ih htail hb, Prod.mk.injEq]
        constructor
        · rintro (⟨-, rfl⟩ | ⟨ha, hne⟩)
          · exact ⟨Or.inl rfl, fun b' hb' => (habove b' hb').ne'⟩
          · exact ⟨Or.inr ha, hne⟩
        · rintro ⟨rfl | ha, hne⟩
          · exact Or.inl ⟨rfl, rfl⟩
          · exact Or.inr ⟨ha, hne⟩
      · have habove : ∀ a' ∈ c :: as, key b < key a' := by
          intro a' ha'
          rcases List.mem_cons.mp ha' with rfl | ha'
          · exact hgt
          · exact hgt.trans (hhead a' ha')
        rw [List.mem_cons, ih' htailb]
        simp only [Prod.mk.injEq, reduceCtorEq, false_and, false_or, List.forall_mem_cons]
        exact and_congr_right fun ha => (and_iff_right (habove a ha).ne).symm
      · have heq : key b = key c := le_antisymm (not_lt.mp hlt) (not_lt.mp hgt)
        rw [List.mem_cons, List.mem_cons, ih htail htailb]
        simp only [Prod.mk.injEq, reduceCtorEq, false_and, false_or, List.forall_mem_cons]
        constructor
        · exact fun ⟨ha, hne⟩ => ⟨Or.inr ha, heq ▸ (hhead a ha).ne, hne⟩
        · rintro ⟨rfl | ha, hne, hrest⟩
          · exact absurd heq hne
          · exact ⟨ha, hrest⟩

theorem mem_onlyFirst {as bs : List α} (ha : Ascending key as) (hb : Ascending key bs) {a : α} :
    a ∈ onlyFirst key as bs ↔ a ∈ as ∧ ∀ b ∈ bs, key b ≠ key a := by
  rw [← mem_comm_first ha hb, onlyFirst, List.mem_map]
  simp

/-- The records of the first column, in their order. -/
theorem onlyFirst_sublist (as bs : List α) : (onlyFirst key as bs).Sublist as := by
  rw [onlyFirst]
  induction as generalizing bs with
  | nil => simp [comm, List.filter_map, Function.comp_def]
  | cons a as ih =>
    rw [comm]
    induction bs with
    | nil => simp [commWith, List.filter_map, Function.comp_def]
    | cons b bs ih' =>
      rw [commWith]
      split_ifs
      · simpa using (ih (b :: bs)).cons_cons a
      · simpa using ih'
      · simpa using (ih bs).cons a

/-- Nothing differs exactly if the keys are the same, one by one. -/
theorem differences_eq_nil {as bs : List α} :
    differences key as bs = [] ↔ as.map key = bs.map key := by
  rw [differences, List.map_eq_nil_iff]
  induction as generalizing bs with
  | nil => cases bs <;> simp [comm]
  | cons a as ih =>
    rw [comm]
    cases bs with
    | nil => simp [commWith]
    | cons b bs =>
      rw [commWith]
      split_ifs with hlt hgt
      · simp [hlt.ne]
      · simp [hgt.ne']
      · have heq : key b = key a := le_antisymm (not_lt.mp hlt) (not_lt.mp hgt)
        simpa [heq] using ih

/-- Ascending lists differ in nothing exactly if they have the same keys. -/
theorem differences_eq_nil_iff {as bs : List α} (ha : Ascending key as) (hb : Ascending key bs) :
    differences key as bs = [] ↔ ∀ k, (∃ a ∈ as, key a = k) ↔ ∃ b ∈ bs, key b = k := by
  rw [differences_eq_nil]
  refine ⟨fun h k => ?_, ha.map_eq hb⟩
  rw [← List.mem_map, ← List.mem_map, h]

end Comm

end Walgit.Streams
