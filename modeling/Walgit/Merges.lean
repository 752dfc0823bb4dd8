import Walgit.ShapedEdits

/-!
# Documents merged into documents

A document merged on top of another one replaces what it mentions; where both have a table, the
tables are merged. What it does not mention is read as before.
-/
namespace Document

open SortedMap

variable {τ ρ σ : Type}

mutual

/-- The second document on top of the first. -/
def merge : Table ρ → Table ρ → Table ρ
  | into, [] => into
  | into, (k, v) :: rest => merge (insertEntry k (mergeValue (lookup k into) v) into) rest

def mergeValue : Option (Value ρ) → Value ρ → Value ρ
  | some (.table into), .table v => .table (merge into v)
  | _, v => v

end

mutual

/-- No table has a name twice. -/
def Value.Distinct : Value ρ → Prop
  | .plain _ => True
  | .table t => (t.map Prod.fst).Nodup ∧ DistinctAll t

def DistinctAll : Table ρ → Prop
  | [] => True
  | (_, v) :: t => v.Distinct ∧ DistinctAll t

end

/-- The document has a value at the path, under it, or in its way. -/
def covers (t : Table ρ) : List String → Bool
  | [] => true
  | k :: rest =>
    match lookup k t with
    | none => false
    | some (.plain _) => true
    | some (.table t) => covers t rest

variable {a b t t' : Table ρ} {v : Value ρ} {k : String} {q : List String}

theorem distinct_lookup (h : DistinctAll t) (hk : lookup k t = some v) : v.Distinct := by
  induction t with
  | nil => cases hk
  | cons e t ih =>
    obtain ⟨he, h⟩ := h
    simp only [lookup] at hk
    split_ifs at hk
    · cases hk
      exact he
    · exact ih h hk

theorem lookup_merge (hb : (b.map Prod.fst).Nodup) (k : String) (a : Table ρ) :
    lookup k (merge a b) =
      match lookup k b with
      | none => lookup k a
      | some v => some (mergeValue (lookup k a) v) := by
  induction b generalizing a with
  | nil => rfl
  | cons e b ih =>
    obtain ⟨j, w⟩ := e
    obtain ⟨hj, hb⟩ := List.nodup_cons.mp hb
    rw [merge, ih hb]
    simp only [lookup]
    by_cases hjk : j = k
    · subst hjk
      have hmissing : lookup j b = none := by
        rw [← Option.not_isSome_iff_eq_none, lookup_isSome]
        exact hj
      rw [hmissing, lookup_insertEntry]
      simp
    · rw [lookup_insertEntry, if_neg (Ne.symm hjk)]
      simp [hjk]

namespace Serde

variable {K : Kinds τ σ} {S : Serde K ρ} {s s' : Shape τ σ} {c c' : Conf σ}
  {cs : List (String × Conf σ)}

/-- What the document on top does not mention is read from the configuration's own document. -/
theorem find_merge [DecidableEq σ] (htidy : K.tidy s) (hsection : s.isSection)
    (hfits : K.fits s (.record cs)) (hdistinct : (Value.table b).Distinct)
    (hc : S.decode s (.table (S.encodeFields cs)) = some c)
    (hc' : S.decode s (.table (merge (S.encodeFields cs) b)) = some c')
    (hq : covers b q = false) (hhas : ((Conf.record cs).find q).isSome) :
    c'.find q = c.find q := by
  induction q generalizing s cs b c c' with
  | nil => cases hq
  | cons k q ih =>
    obtain ⟨hnodup, hall⟩ := hdistinct
    have hmerged := lookup_merge hnodup k (S.encodeFields cs)
    have hown := lookup_encodeFields (S := S) (fits_nodup htidy hfits) k
    simp only [covers] at hq
    split at hq
    · rename_i hk
      rw [hk] at hmerged
      rw [find_decode hsection hc, find_decode hsection hc', hmerged]
    · cases hq
    · rename_i b' hk
      cases hcs : lookup k cs with
      | none => simp [Conf.find, hcs] at hhas
      | some c₀ =>
        rw [hcs, Option.bind_some] at hown
        obtain ⟨s', hsub, hfits'⟩ := fits_lookup hfits hcs
        simp only [Conf.find, hcs, Option.bind_some] at hhas
        cases c₀ with
        | value x =>
          cases q with
          | nil => cases hq
          | cons => cases hhas
        | record cs' =>
          have hown' : lookup k (S.encodeFields cs) = some (.table (S.encodeFields cs')) := hown
          rw [hk, hown'] at hmerged
          simp only [mergeValue] at hmerged
          obtain ⟨c₁, hc₁, hfind⟩ := decode_inside hsection hc hsub hown'
          obtain ⟨c₁', hc₁', hfind'⟩ := decode_inside hsection hc' hsub hmerged
          rw [hfind, hfind']
          exact ih (tidy_sub htidy hsub) (isSection_of_fits hfits') hfits' (distinct_lookup hall hk)
            hc₁ hc₁' hq hhas

/-- A name that the document on top does not have is read as before with all under it. -/
theorem find_merge_other (hsection : s.isSection) (hb : (b.map Prod.fst).Nodup)
    (hc : S.decode s (.table a) = some c) (hc' : S.decode s (.table (merge a b)) = some c')
    (hk : lookup k b = none) (q : List String) : c'.find (k :: q) = c.find (k :: q) := by
  have hmerged := lookup_merge hb k a
  rw [hk] at hmerged
  rw [find_decode hsection hc, find_decode hsection hc', hmerged]

end Serde
end Document
