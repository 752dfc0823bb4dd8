import Mathlib.Data.List.Pairwise
import Walgit.Shapes

/-!
# Values written into a document that is read by a shape

Whether the document still is a configuration after a value is written at a path is decided by the
shape at the path alone, so that writes at paths that lead apart do not depend on each other.
-/
namespace Document

open SortedMap

variable {τ ρ σ : Type}

namespace Serde

variable {K : Kinds τ σ} (S : Serde K ρ)

/-- The path leads through sections of the document. -/
def Leads (s : Shape τ σ) (t : Table ρ) : List String → Prop
  | [] => False
  | [_] => True
  | k :: k' :: rest => ∃ s' t', s.sub k = some s' ∧ s'.isSection ∧
      lookup k t = some (.table t') ∧ Leads s' t' (k' :: rest)

/-- On the way is a value that is no table, or a section that the document does not have and that
one name does not complete. -/
def Blocked (s : Shape τ σ) (t : Table ρ) : List String → Prop
  | [] => True
  | [_] => False
  | k :: k' :: rest =>
    match lookup k t with
    | some (.plain _) => True
    | some (.table t') => ∃ s', s.sub k = some s' ∧ s'.isSection ∧ Blocked s' t' (k' :: rest)
    | none => ∀ s', s.sub k = some s' → ∀ j v, ¬ S.accepts s' (.table [(j, v)])

variable {S} {s s' : Shape τ σ} {c c' : Conf σ} {t t' : Table ρ} {v w : Value ρ} {k j : String}
  {p q : List String} {cs : List (String × Conf σ)}

theorem inner_table (h : lookup k t = some (.table t')) : inner k t = some t' := by
  rw [inner, h]

/-- The part of an accepted section that a path goes on in is accepted. -/
theorem accepts_inside (hsection : s.isSection) (haccepts : S.accepts s (.table t))
    (hsub : s.sub k = some s') (hk : lookup k t = some v) : S.accepts s' v := by
  cases s with
  | field => cases hsection
  | struct fields =>
    have h := (accepts_struct.mp haccepts).2 (k, s') (mem_of_lookup hsub)
    rw [hk] at h
    exact h
  | map entry d =>
    cases hsub
    exact accepts_map.mp haccepts (k, v) (mem_of_lookup hk)

theorem accepts_lookup (hsection : s.isSection) (haccepts : S.accepts s (.table t))
    (hk : lookup k t = some v) : ∃ s', s.sub k = some s' ∧ S.accepts s' v := by
  have hsub : (s.sub k).isSome := by
    cases s with
    | field => cases hsection
    | struct fields => exact lookup_isSome.mpr ((accepts_struct.mp haccepts).1 _ (mem_of_lookup hk))
    | map entry d => rfl
  obtain ⟨s', hsub⟩ := Option.isSome_iff_exists.mp hsub
  exact ⟨s', hsub, accepts_inside hsection haccepts hsub hk⟩

theorem find_decode (hsection : s.isSection) (h : S.decode s (.table t) = some c) (k : String)
    (p : List String) : c.find (k :: p) = (S.part s k (lookup k t)).bind (·.find p) := by
  obtain ⟨cs, rfl, hcs⟩ := decode_part hsection h
  rw [← hcs k]
  rfl

/-- What stands under a name of a section that is read is read with it. -/
theorem decode_inside (hsection : s.isSection) (h : S.decode s (.table t) = some c)
    (hsub : s.sub k = some s') (hk : lookup k t = some v) :
    ∃ c', S.decode s' v = some c' ∧ ∀ p, c.find (k :: p) = c'.find p := by
  have haccepts : S.accepts s (.table t) := Option.isSome_iff_exists.mpr ⟨c, h⟩
  obtain ⟨c', hc'⟩ := Option.isSome_iff_exists.mp (accepts_inside hsection haccepts hsub hk)
  refine ⟨c', hc', ?_⟩
  intro p
  have hpart : S.part s k (some v) = some c' := by simp [part, hsub, hc']
  rw [find_decode hsection h, hk, hpart, Option.bind_some]

/-- What is read two sections deep. -/
theorem find_decode_two {j k : String} (hsection : s.isSection) (hsection' : s'.isSection)
    (hsub : s.sub k = some s') (hk : lookup k t = some (.table t'))
    (h : S.decode s (.table t) = some c) : c.find [k, j] = S.part s' j (lookup j t') := by
  obtain ⟨c', hc', hfind⟩ := decode_inside hsection h hsub hk
  rw [hfind, find_decode hsection' hc']
  cases S.part s' j (lookup j t') <;> rfl

section Tidy

variable [DecidableEq σ]

theorem Leads.set (htidy : K.tidy s) (hsection : s.isSection)
    (haccepts : S.accepts s (.table t)) (h : Leads s t p) (v : Value ρ) :
    ∃ t', set p v t = .ok t' ∧
      (S.accepts s (.table t') ↔ ∃ s', s.find p = some s' ∧ S.accepts s' v) := by
  induction p generalizing s t with
  | nil => cases h
  | cons k p ih =>
    cases p with
    | nil =>
      refine ⟨insertEntry k v t, rfl, ?_⟩
      rw [accepts_insertEntry htidy hsection haccepts]
      cases hsub : s.sub k <;> simp [Shape.find, hsub]
    | cons k' rest =>
      obtain ⟨s₁, t₁, hsub, hsection₁, hk, h⟩ := h
      have haccepts₁ := accepts_inside hsection haccepts hsub hk
      obtain ⟨t', hset, hiff⟩ := ih (tidy_sub htidy hsub) hsection₁ haccepts₁ h
      refine ⟨insertEntry k (.table t') t, ?_, ?_⟩
      · simp [Document.set, inner_table hk, hset, Except.map]
      · rw [accepts_insertEntry htidy hsection haccepts, hsub]
        simp [Shape.find, hsub, hiff]

/-- A path that starts in an empty document leaves one name in it. -/
theorem set_empty (h : Document.set p v [] = .ok t') : ∃ j w, t' = [(j, w)] := by
  cases p with
  | nil => cases h
  | cons k p =>
    cases p with
    | nil =>
      cases h
      exact ⟨k, v, rfl⟩
    | cons k' rest =>
      simp only [Document.set, inner, lookup] at h
      cases hset : Document.set (k' :: rest) v [] with
      | error e => simp [hset, Except.map] at h
      | ok next =>
        simp only [hset, Except.map, Except.ok.injEq] at h
        exact ⟨k, .table next, h.symm⟩

theorem Blocked.set (htidy : K.tidy s) (hsection : s.isSection)
    (haccepts : S.accepts s (.table t)) (h : S.Blocked s t p)
    (hset : Document.set p v t = .ok t') : ¬ S.accepts s (.table t') := by
  induction p generalizing s t t' with
  | nil => cases hset
  | cons k p ih =>
    cases p with
    | nil => cases h
    | cons k' rest =>
      simp only [Blocked] at h
      simp only [Document.set] at hset
      split at h
      · rename_i r hk
        simp [inner, hk] at hset
      · rename_i t₁ hk
        obtain ⟨s₁, hsub, hsection₁, h⟩ := h
        have haccepts₁ := accepts_inside hsection haccepts hsub hk
        simp only [inner_table hk] at hset
        cases hnext : Document.set (k' :: rest) v t₁ with
        | error e => simp [hnext, Except.map] at hset
        | ok next =>
          simp only [hnext, Except.map, Except.ok.injEq] at hset
          subst hset
          rw [accepts_insertEntry htidy hsection haccepts, hsub]
          simpa using ih (tidy_sub htidy hsub) hsection₁ haccepts₁ h hnext
      · rename_i hk
        simp only [inner, hk] at hset
        cases hnext : Document.set (k' :: rest) v [] with
        | error e => simp [hnext, Except.map] at hset
        | ok next =>
          simp only [hnext, Except.map, Except.ok.injEq] at hset
          subst hset
          obtain ⟨j, w, rfl⟩ := set_empty hnext
          rw [accepts_insertEntry htidy hsection haccepts]
          rintro ⟨s', hsub, hs'⟩
          exact h s' hsub j w hs'

/-- With two fields that no document may leave out, one name never is enough. -/
theorem refuses_single (h : 2 ≤ s.demands) (htidy : K.tidy s) (j : String)
    (v : Value ρ) : ¬ S.accepts s (.table [(j, v)]) := by
  cases s with
  | field => simp [Shape.demands] at h
  | map => simp [Shape.demands] at h
  | struct fields =>
    intro haccepts
    simp only [Kinds.tidy, Bool.and_eq_true, decide_eq_true_eq] at htidy
    have hgiven := (accepts_struct.mp haccepts).2
    have hdemanded : ∀ f ∈ fields, f.2.absent.isNone → f.1 = j := by
      intro f hf hnone
      by_contra hne
      have := hgiven f hf
      simp only [lookup, if_neg (Ne.symm hne), given] at this
      rw [Option.isNone_iff_eq_none.mp hnone] at this
      cases this
    have hnodup : ((fields.filter fun f => f.2.absent.isNone).map Prod.fst).Nodup :=
      htidy.1.sublist (List.filter_sublist.map Prod.fst)
    have hsame : ∀ x ∈ (fields.filter fun f => f.2.absent.isNone).map Prod.fst, x = j := by
      intro x hx
      obtain ⟨f, hf, rfl⟩ := List.mem_map.mp hx
      obtain ⟨hf, hnone⟩ := List.mem_filter.mp hf
      exact hdemanded f hf hnone
    rw [List.eq_replicate_of_mem hsame, List.nodup_replicate, List.length_map] at hnodup
    simp only [Shape.demands] at h
    omega

/-- In the document of a configuration every path leads to its end or is blocked. -/
theorem leads_or_blocked (htidy : K.tidy s) (hfits : K.fits s (.record cs)) (hp : p ≠ []) :
    Leads s (S.encodeFields cs) p ∨ S.Blocked s (S.encodeFields cs) p := by
  induction p generalizing s cs with
  | nil => exact absurd rfl hp
  | cons k p ih =>
    cases p with
    | nil => exact .inl trivial
    | cons k' rest =>
      have hnodup := fits_nodup htidy hfits
      have hlookup := lookup_encodeFields (S := S) hnodup k
      simp only [Leads, Blocked]
      cases hc : lookup k cs with
      | none =>
        rw [hc, Option.bind_none] at hlookup
        rw [hlookup]
        refine .inr ?_
        intro s' hsub
        cases s with
        | field => cases hsub
        | struct fields =>
          obtain ⟨c, hc', -⟩ := fits_struct hfits hsub
          rw [hc] at hc'
          cases hc'
        | map entry d =>
          cases hsub
          simp only [Kinds.tidy, Bool.and_eq_true, decide_eq_true_eq] at htidy
          exact refuses_single htidy.2 htidy.1
      | some c =>
        obtain ⟨s', hsub, hfits'⟩ := fits_lookup hfits hc
        rw [hc, Option.bind_some] at hlookup
        rw [hlookup]
        cases c with
        | value x =>
          simp only [encode]
          cases hw : S.write x with
          | some r => exact .inr trivial
          | none =>
            refine .inr ?_
            intro s'' hsub' j v
            obtain rfl := Option.some.inj (hsub.symm.trans hsub')
            cases s' with
            | field t d =>
              have homitted := (S.written hfits').mp hw
              simp [accepts, decode, S.refuses _ homitted]
            | struct => cases hfits'
            | map => cases hfits'
        | record cs' =>
          have hsection' := isSection_of_fits hfits'
          simp only [encode]
          rcases ih (tidy_sub htidy hsub) hfits' (by simp) with h | h
          · exact .inl ⟨s', _, hsub, hsection', rfl, h⟩
          · exact .inr ⟨s', hsub, hsection', h⟩

/-- What is written in full is read back under its name, written or not. -/
theorem part_encode (htidy : K.tidy s) (hsection : s.isSection) {type : τ} {d : Option σ} {x : σ}
    (hsub : s.sub k = some (.field type d)) (hof : K.of type x) (hexact : K.exact type) :
    S.part s k (S.encode (.value x)) = some (.value x) := by
  simp only [encode]
  cases hw : S.write x with
  | some r => simp [part, hsub, decode, S.faithful hexact hof hw]
  | none =>
    have homitted : K.omitted type = some x := (S.written hof).mp hw
    have htidy' := tidy_sub htidy hsub
    simp only [Kinds.tidy, homitted, Bool.and_eq_true, decide_eq_true_eq] at htidy'
    cases s with
    | field => cases hsection
    | map entry d =>
      cases hsub
      simp [Kinds.tidy, Shape.demands] at htidy
    | struct fields =>
      simp only [Shape.sub] at hsub
      simp [part, hsub, Shape.absent, htidy'.1.resolve_left (by simp)]

/-- A field whose type is written in full is read back as it was. -/
theorem find_decode_encode (htidy : K.tidy s) (hsection : s.isSection)
    (hfits : K.fits s (.record cs)) (h : S.decode s (.table (S.encodeFields cs)) = some c')
    {type : τ} {d : Option σ} (hp : s.find p = some (.field type d)) (hexact : K.exact type) :
    c'.find p = (Conf.record cs).find p := by
  induction p generalizing s cs c' with
  | nil =>
    cases hp
    cases hsection
  | cons k p ih =>
    have hlookup := lookup_encodeFields (S := S) (fits_nodup htidy hfits) k
    have hread := find_decode hsection h k p
    have hown : (Conf.record cs).find (k :: p) = (lookup k cs).bind (·.find p) := rfl
    obtain ⟨s₁, hsub, hp⟩ := Option.bind_eq_some_iff.mp hp
    rw [hown]
    cases hc : lookup k cs with
    | none =>
      rw [hc, Option.bind_none] at hlookup
      cases s with
      | field => cases hsection
      | struct fields =>
        obtain ⟨c, hc', -⟩ := fits_struct hfits hsub
        rw [hc] at hc'
        cases hc'
      | map entry d =>
        rw [hread, hlookup]
        rfl
    | some c =>
      obtain ⟨s₂, hsub₂, hfits₁⟩ := fits_lookup hfits hc
      obtain rfl := Option.some.inj (hsub.symm.trans hsub₂)
      rw [hc, Option.bind_some] at hlookup
      cases c with
      | value x =>
        cases s₁ with
        | struct => cases hfits₁
        | map => cases hfits₁
        | field type₁ d₁ =>
          cases p with
          | cons => cases hp
          | nil =>
            cases hp
            rw [hread, hlookup, part_encode htidy hsection hsub hfits₁ hexact]
      | record cs₁ =>
        obtain ⟨c₁, hc₁, hfind⟩ := decode_inside hsection h hsub hlookup
        rw [hfind]
        exact ih (tidy_sub htidy hsub) (isSection_of_fits hfits₁) hfits₁ hc₁ hp

end Tidy

theorem lookup_place (hne : k ≠ j) (rest : List String) (v : Value ρ) (t : Table ρ) :
    lookup k (place (j :: rest) v t) = lookup k t := by
  rcases place_cons j rest v t with h | ⟨x, h⟩
  · rw [h]
  · rw [h, lookup_insertEntry, if_neg hne]

/-- A write at a path that leads apart changes nothing on the way of another one. -/
theorem Leads.place (hp : Leads s t p) (hq : Leads s t q) (hpq : Apart p q) (v : Value ρ) :
    Leads s (place p v t) q := by
  induction p generalizing s t q with
  | nil => cases hp
  | cons k p ih =>
    cases q with
    | nil => cases hq
    | cons j q =>
      cases q with
      | nil => trivial
      | cons j' q =>
        obtain ⟨s₁, t₁, hsub, hsection, hj, hq⟩ := hq
        by_cases hkj : j = k
        · subst hkj
          have hpq' := (apart_cons.mp hpq).resolve_left (by simp)
          cases p with
          | nil => exact absurd hpq' not_apart_nil
          | cons k' p =>
            obtain ⟨s₂, t₂, hsub₂, -, hk, hp⟩ := hp
            obtain rfl := Option.some.inj (hsub.symm.trans hsub₂)
            have ht : t₁ = t₂ := by
              rw [hk] at hj
              cases hj
              rfl
            subst ht
            refine ⟨s₁, Document.place (k' :: p) v t₁, hsub, hsection, ?_, ih hp hq hpq'⟩
            rw [place_inside (inner_table hk), lookup_insertEntry, if_pos rfl]
        · exact ⟨s₁, t₁, hsub, hsection, (lookup_place hkj p v t).trans hj, hq⟩

theorem Blocked.place (hp : Leads s t p) (hq : S.Blocked s t q) (hpq : Apart p q)
    (v : Value ρ) : S.Blocked s (place p v t) q := by
  induction p generalizing s t q with
  | nil => cases hp
  | cons k p ih =>
    cases q with
    | nil => trivial
    | cons j q =>
      cases q with
      | nil => cases hq
      | cons j' q =>
        by_cases hkj : j = k
        · subst hkj
          have hpq' := (apart_cons.mp hpq).resolve_left (by simp)
          cases p with
          | nil => exact absurd hpq' not_apart_nil
          | cons k' p =>
            obtain ⟨s₂, t₂, hsub₂, -, hk, hp⟩ := hp
            simp only [Blocked, hk] at hq
            obtain ⟨s₁, hsub, hsection, hq⟩ := hq
            obtain rfl := Option.some.inj (hsub.symm.trans hsub₂)
            rw [place_inside (inner_table hk)]
            simp only [Blocked, lookup_insertEntry, if_true]
            exact ⟨s₁, hsub, hsection, ih hp hq hpq'⟩
        · simp only [Blocked, lookup_place hkj]
          exact hq

/-- After a write the configuration has the value at its path, and is as before at every path that
leads apart. -/
theorem decode_place (hsection : s.isSection) (hp : Leads s t p)
    (h : S.decode s (.table t) = some c) (h' : S.decode s (.table (place p v t)) = some c') :
    c'.find p = (s.find p).bind (S.decode · v) ∧ ∀ q, Apart p q → c'.find q = c.find q := by
  induction p generalizing s t c c' with
  | nil => cases hp
  | cons k p ih =>
    have helse : ∀ j, j ≠ k → ∀ q, c'.find (j :: q) = c.find (j :: q) := by
      intro j hj q
      rw [find_decode hsection h, find_decode hsection h', lookup_place hj]
    cases p with
    | nil =>
      constructor
      · rw [find_decode hsection h', place, lookup_insertEntry, if_pos rfl]
        simp only [part, Shape.find]
        cases s.sub k with
        | none => rfl
        | some s' => cases hv : S.decode s' v <;> simp [hv, Conf.find]
      · intro q hq
        cases q with
        | nil => exact absurd hq.symm not_apart_nil
        | cons j q => exact helse j (Ne.symm (apart_single.mp hq)) q
    | cons k' p =>
      obtain ⟨s₁, t₁, hsub, hsection₁, hk, hp⟩ := hp
      have hplaced : lookup k (place (k :: k' :: p) v t) = some (.table (place (k' :: p) v t₁)) := by
        rw [place_inside (inner_table hk), lookup_insertEntry, if_pos rfl]
      obtain ⟨c₁, hc₁, hfind⟩ := decode_inside hsection h hsub hk
      obtain ⟨c₁', hc₁', hfind'⟩ := decode_inside hsection h' hsub hplaced
      obtain ⟨hat, haway⟩ := ih hsection₁ hp hc₁ hc₁'
      constructor
      · rw [hfind', hat]
        simp only [Shape.find, hsub, Option.bind_some]
      · intro q hq
        cases q with
        | nil => exact absurd hq.symm not_apart_nil
        | cons j q =>
          by_cases hj : j = k
          · subst hj
            rw [hfind, hfind']
            exact haway q ((apart_cons.mp hq).resolve_left (by simp))
          · exact helse j hj q

/-- The document with a value written, if it still can be read. -/
def tries (S : Serde K ρ) (s : Shape τ σ) (t : Table ρ) (e : List String × Value ρ) :
    Option (Table ρ) :=
  match Document.set e.1 e.2 t with
  | .error _ => none
  | .ok t' => if S.accepts s (.table t') then some t' else none

/-- The way of a path is the same in two documents. -/
def Alike (S : Serde K ρ) (s : Shape τ σ) (t₀ t : Table ρ) (p : List String) : Prop :=
  Leads s t₀ p ∧ Leads s t p ∨ S.Blocked s t₀ p ∧ S.Blocked s t p

/-- Several values written one after the other. -/
def writes (t : Table ρ) (es : List (List String × Value ρ)) : Table ρ :=
  es.foldl (fun t e => place e.1 e.2 t) t

variable {e : List String × Value ρ} {es es' : List (List String × Value ρ)} {t₀ : Table ρ}

section Tries

variable [DecidableEq σ]

theorem tries_leads (htidy : K.tidy s) (hsection : s.isSection)
    (haccepts : S.accepts s (.table t)) (h : Leads s t e.1) :
    S.tries s t e = some t' ↔
      t' = place e.1 e.2 t ∧ ∃ s', s.find e.1 = some s' ∧ S.accepts s' e.2 := by
  obtain ⟨placed, hset, hiff⟩ := h.set htidy hsection haccepts e.2
  rw [tries, hset, set_place hset, ← hiff]
  simp only [Option.ite_none_right_eq_some, Option.some.injEq]
  exact ⟨fun h => ⟨h.2.symm, h.1⟩, fun h => ⟨h.2, h.1.symm⟩⟩

theorem tries_blocked (htidy : K.tidy s) (hsection : s.isSection)
    (haccepts : S.accepts s (.table t)) (h : S.Blocked s t e.1) : S.tries s t e = none := by
  rw [tries]
  cases hset : Document.set e.1 e.2 t with
  | error => rfl
  | ok t' => exact if_neg (h.set htidy hsection haccepts hset)

/-- What is written was on the way of its path. -/
theorem leads_of_tries (htidy : K.tidy s) (hsection : s.isSection)
    (haccepts : S.accepts s (.table t)) (halike : S.Alike s t₀ t e.1)
    (h : S.tries s t e = some t') : Leads s t e.1 ∧ t' = place e.1 e.2 t := by
  rcases halike with ⟨-, hleads⟩ | ⟨-, hblocked⟩
  · exact ⟨hleads, ((tries_leads htidy hsection haccepts hleads).mp h).1⟩
  · rw [tries_blocked htidy hsection haccepts hblocked] at h
    cases h

/-- Where the way is the same, a value is taken by both documents or by none. -/
theorem Alike.tries (htidy : K.tidy s) (hsection : s.isSection)
    (haccepts₀ : S.accepts s (.table t₀)) (haccepts : S.accepts s (.table t))
    (h : S.Alike s t₀ t e.1) : (S.tries s t e).isSome = (S.tries s t₀ e).isSome := by
  rcases h with ⟨h₀, h⟩ | ⟨h₀, h⟩
  · rw [Bool.eq_iff_iff, Option.isSome_iff_exists, Option.isSome_iff_exists]
    simp only [tries_leads htidy hsection haccepts h, tries_leads htidy hsection haccepts₀ h₀,
      exists_and_right, exists_eq, true_and]
  · rw [tries_blocked htidy hsection haccepts h, tries_blocked htidy hsection haccepts₀ h₀]

theorem alike_refl (htidy : K.tidy s) (hfits : K.fits s (.record cs)) (hp : p ≠ []) :
    S.Alike s (S.encodeFields cs) (S.encodeFields cs) p := by
  rcases leads_or_blocked (S := S) htidy hfits hp with h | h
  · exact .inl ⟨h, h⟩
  · exact .inr ⟨h, h⟩

end Tries

theorem Alike.place (h : S.Alike s t₀ t q) (hp : Leads s t p) (hpq : Apart p q) (v : Value ρ) :
    S.Alike s t₀ (Document.place p v t) q := by
  rcases h with ⟨h₀, h⟩ | ⟨h₀, h⟩
  · exact .inl ⟨h₀, hp.place h hpq v⟩
  · exact .inr ⟨h₀, Blocked.place hp h hpq v⟩

theorem tries_accepts (h : S.tries s t e = some t') : S.accepts s (.table t') := by
  rw [tries] at h
  split at h
  · cases h
  · split_ifs at h with haccepts
    cases h
    exact haccepts

/-- Values at paths that lead apart may be written in any order. -/
theorem writes_perm (hapart : es.Pairwise fun a b => Apart a.1 b.1) (h : es.Perm es')
    (t : Table ρ) : writes t es = writes t es' := by
  refine h.foldl_eq' ?_ t
  intro a ha b hb t
  by_cases hab : a = b
  · rw [hab]
  · have : Std.Symm fun a b : List String × Value ρ => Apart a.1 b.1 := ⟨fun _ _ => Apart.symm⟩
    have hab := hapart.forall ha hb hab
    exact (place_comm hab a.2 b.2 t).symm

/-- A document with values written reads as before, but for these values. -/
theorem decode_writes [DecidableEq σ] (htidy : K.tidy s) (hsection : s.isSection)
    (hdecode : S.decode s (.table t) = some c) (hapart : es.Pairwise fun a b => Apart a.1 b.1)
    (halike : ∀ e ∈ es, Leads s t e.1 ∧ (S.tries s t e).isSome) :
    ∃ c', S.decode s (.table (writes t es)) = some c' ∧
      (∀ e ∈ es, c'.find e.1 = (s.find e.1).bind (S.decode · e.2)) ∧
      ∀ q, (∀ e ∈ es, Apart e.1 q) → c'.find q = c.find q := by
  induction es generalizing t c with
  | nil => exact ⟨c, hdecode, by simp, fun _ _ => rfl⟩
  | cons e es ih =>
    obtain ⟨he, hes⟩ := List.pairwise_cons.mp hapart
    obtain ⟨⟨hleads, htaken⟩, hrest⟩ := List.forall_mem_cons.mp halike
    have haccepts : S.accepts s (.table t) := Option.isSome_iff_exists.mpr ⟨c, hdecode⟩
    obtain ⟨t', ht'⟩ := Option.isSome_iff_exists.mp htaken
    obtain ⟨rfl, -⟩ := (tries_leads htidy hsection haccepts hleads).mp ht'
    have haccepts' := tries_accepts ht'
    obtain ⟨c₁, hc₁⟩ := Option.isSome_iff_exists.mp haccepts'
    obtain ⟨hat, haway⟩ := decode_place hsection hleads hdecode hc₁
    have hrest' : ∀ e' ∈ es, Leads s (Document.place e.1 e.2 t) e'.1 ∧
        (S.tries s (Document.place e.1 e.2 t) e').isSome := by
      intro e' he'
      obtain ⟨hleads', htaken'⟩ := hrest e' he'
      have hplaced := hleads.place hleads' (he e' he') e.2
      have halike' : S.Alike s t (Document.place e.1 e.2 t) e'.1 := .inl ⟨hleads', hplaced⟩
      exact ⟨hplaced, (halike'.tries htidy hsection haccepts haccepts').trans htaken'⟩
    obtain ⟨c', hc', hvalues, hothers⟩ := ih hc₁ hes hrest'
    refine ⟨c', hc', ?_, ?_⟩
    · intro e' he'
      rcases List.mem_cons.mp he' with rfl | he'
      · exact (hothers _ fun e₁ h₁ => (he e₁ h₁).symm).trans hat
      · exact hvalues e' he'
    · intro q hq
      obtain ⟨hq, hqs⟩ := List.forall_mem_cons.mp hq
      exact (hothers q hqs).trans (haway q hq)

end Serde
end Document
