import Walgit.Tables

/-!
# Reading a document by the shape of a configuration

A configuration is a tree of fields. Its shape says which fields a section has, what type a field
is of and what it is when the document leaves it out; a section refuses names that it does not
have. How a plain value is read and written is a parameter.
-/
namespace Document

open SortedMap

/-- A configuration: the values of the fields, section by section. -/
inductive Conf (σ : Type) where
  | value (s : σ)
  | record (fields : List (String × Conf σ))

/-- A field that has no default is required. -/
inductive Shape (τ σ : Type) where
  | field (type : τ) (default : Option σ)
  | struct (fields : List (String × Shape τ σ))
  /-- Entries of one shape under names of the document's own choice. -/
  | map (entry : Shape τ σ) (default : List (String × Conf σ))

variable {τ ρ σ : Type}

def Conf.value? : Conf σ → Option σ
  | .value s => some s
  | .record _ => none

/-- The part of a configuration at a path. -/
def Conf.find (c : Conf σ) : List String → Option (Conf σ)
  | [] => some c
  | k :: rest =>
    match c with
    | .value _ => none
    | .record fields => (lookup k fields).bind (find · rest)

/-- The shape of what a section has under a name. -/
def Shape.sub : Shape τ σ → String → Option (Shape τ σ)
  | .field _ _, _ => none
  | .struct fields, k => lookup k fields
  | .map entry _, _ => some entry

/-- The shape at a path. -/
def Shape.find (s : Shape τ σ) : List String → Option (Shape τ σ)
  | [] => some s
  | k :: rest => (s.sub k).bind (find · rest)

def Shape.isSection : Shape τ σ → Bool
  | .field _ _ => false
  | _ => true

mutual

/-- What a section or field is when the document does not mention it. -/
def Shape.absent : Shape τ σ → Option (Conf σ)
  | .field _ d => d.map .value
  | .struct fields => (absentFields fields).map .record
  | .map _ d => some (.record d)

def Shape.absentFields : List (String × Shape τ σ) → Option (List (String × Conf σ))
  | [] => some []
  | (k, s) :: fields =>
    match s.absent, absentFields fields with
    | some c, some rest => some ((k, c) :: rest)
    | _, _ => none

end

/-- The fields of a section that no document may leave out. -/
def Shape.demands : Shape τ σ → ℕ
  | .struct fields => (fields.filter fun f => f.2.absent.isNone).length
  | _ => 0

/-- The types of fields. -/
structure Kinds (τ σ : Type) where
  of : τ → σ → Bool
  /-- The value of an optional type that is not written at all. -/
  omitted : τ → Option σ
  /-- Types whose values survive being written and read. -/
  exact : τ → Bool

namespace Kinds

variable (K : Kinds τ σ) [DecidableEq σ]

mutual

/-- Fields have different names, defaults are of their type, an optional field is absent by
default, and no entry of a map is complete with one field. -/
def tidy : Shape τ σ → Bool
  | .field t d => decide (K.omitted t = none ∨ d = K.omitted t) && d.all (K.of t)
  | .struct fields => decide (fields.map Prod.fst).Nodup && tidyFields fields
  | .map entry _ => tidy entry && decide (2 ≤ entry.demands)

def tidyFields : List (String × Shape τ σ) → Bool
  | [] => true
  | (_, s) :: fields => tidy s && tidyFields fields

end

mutual

/-- A configuration of a shape. -/
def fits : Shape τ σ → Conf σ → Bool
  | .field t _, .value s => K.of t s
  | .struct fields, .record cs => fitsFields fields cs
  | .map entry _, .record cs =>
    decide (cs.map Prod.fst).Nodup && cs.all fun e => fits entry e.2
  | _, _ => false

def fitsFields : List (String × Shape τ σ) → List (String × Conf σ) → Bool
  | [], [] => true
  | (k, s) :: fields, (j, c) :: cs => decide (k = j) && fits s c && fitsFields fields cs
  | _, _ => false

end

end Kinds

/-- How the values of fields are read and written. -/
structure Serde (K : Kinds τ σ) (ρ : Type) where
  read : τ → Value ρ → Option σ
  /-- None: the value is left out of the document. -/
  write : σ → Option ρ
  /-- A section that is given as something else than a table. -/
  unpack : Shape τ σ → ρ → Option (Conf σ)
  written {t : τ} {s : σ} : K.of t s → (write s = none ↔ K.omitted t = some s)
  readable {t : τ} {s : σ} {r : ρ} : K.of t s → write s = some r → (read t (.plain r)).isSome
  faithful {t : τ} {s : σ} {r : ρ} :
    K.exact t → K.of t s → write s = some r → read t (.plain r) = some s
  refuses {t : τ} {s : σ} (entries : Table ρ) :
    K.omitted t = some s → read t (.table entries) = none

namespace Serde

variable {K : Kinds τ σ} (S : Serde K ρ)

mutual

def decode : Shape τ σ → Value ρ → Option (Conf σ)
  | .field t _, v => (S.read t v).map .value
  | .struct fields, .table es =>
    if es.all fun e => fields.any fun f => f.1 = e.1 then (decodeFields fields es).map .record
    else none
  | .map entry _, .table es => (es.mapM fun e => (decode entry e.2).map (e.1, ·)).map .record
  | .struct fields, .plain r => S.unpack (.struct fields) r
  | .map entry d, .plain r => S.unpack (.map entry d) r

def decodeFields : List (String × Shape τ σ) → Table ρ → Option (List (String × Conf σ))
  | [], _ => some []
  | (k, s) :: fields, es =>
    match (match lookup k es with | some v => decode s v | none => s.absent),
      decodeFields fields es with
    | some c, some rest => some ((k, c) :: rest)
    | _, _ => none

end

mutual

def encode : Conf σ → Option (Value ρ)
  | .value s => (S.write s).map .plain
  | .record fields => some (.table (encodeFields fields))

def encodeFields : List (String × Conf σ) → Table ρ
  | [] => []
  | (k, c) :: fields =>
    match encode c with
    | some v => insertEntry k v (encodeFields fields)
    | none => encodeFields fields

end

def accepts (s : Shape τ σ) (v : Value ρ) : Bool := (S.decode s v).isSome

/-- What a field becomes: read from its value, or the default. -/
def given (s : Shape τ σ) : Option (Value ρ) → Option (Conf σ)
  | some v => S.decode s v
  | none => s.absent

/-- What a section has under a name. -/
def part (s : Shape τ σ) (k : String) : Option (Value ρ) → Option (Conf σ)
  | some v => (s.sub k).bind (S.decode · v)
  | none =>
    match s with
    | .struct fields => (lookup k fields).bind Shape.absent
    | _ => none

end Serde

section Lookup

variable {α β : Type} {k : String} {a : α} {l : List (String × α)}

theorem mem_of_lookup (h : lookup k l = some a) : (k, a) ∈ l := by
  induction l with
  | nil => cases h
  | cons b l ih =>
    simp only [lookup] at h
    split_ifs at h with hbk
    · cases h
      simp [← hbk]
    · exact List.mem_cons_of_mem b (ih h)

theorem lookup_isSome : (lookup k l).isSome ↔ k ∈ l.map Prod.fst := by
  induction l with
  | nil => simp [lookup]
  | cons b l ih =>
    simp only [lookup, List.map_cons, List.mem_cons]
    split_ifs with hbk
    · simp [hbk]
    · rw [ih]
      exact ⟨.inr, fun h => h.resolve_left fun hk => hbk hk.symm⟩

theorem lookup_of_mem (hnodup : (l.map Prod.fst).Nodup) (h : (k, a) ∈ l) :
    lookup k l = some a := by
  induction l with
  | nil => cases h
  | cons b l ih =>
    obtain ⟨hb, hl⟩ := List.nodup_cons.mp hnodup
    rcases List.mem_cons.mp h with rfl | h
    · simp [lookup]
    · have hne : b.1 ≠ k := by
        rintro rfl
        exact hb (List.mem_map.mpr ⟨_, h, rfl⟩)
      simp only [lookup, if_neg hne, ih hl h]

theorem mem_insertEntry_self : (k, a) ∈ insertEntry k a l :=
  mem_of_lookup (by simp [lookup_insertEntry])

end Lookup

namespace Serde

variable {K : Kinds τ σ} {S : Serde K ρ} {s s' : Shape τ σ} {c c' : Conf σ} {t t' : Table ρ}
  {v : Value ρ} {k : String} {p q : List String} {fields : List (String × Shape τ σ)}
  {cs : List (String × Conf σ)} {entry : Shape τ σ} {d : List (String × Conf σ)}

theorem decodeFields_isSome :
    (S.decodeFields fields t).isSome ↔
      ∀ f ∈ fields, (S.given f.2 (lookup f.1 t)).isSome := by
  induction fields with
  | nil => simp [decodeFields]
  | cons f fields ih =>
    obtain ⟨k, s⟩ := f
    have hgiven : (match lookup k t with | some v => S.decode s v | none => s.absent) =
        S.given s (lookup k t) := by
      cases lookup k t <;> rfl
    rw [List.forall_mem_cons, ← ih, decodeFields, hgiven]
    cases S.given s (lookup k t) <;> cases S.decodeFields fields t <;> simp

theorem accepts_struct :
    S.accepts (.struct fields) (.table t) ↔
      (∀ e ∈ t, e.1 ∈ fields.map Prod.fst) ∧
        ∀ f ∈ fields, (S.given f.2 (lookup f.1 t)).isSome := by
  have hnames : (t.all fun e => fields.any fun f => f.1 = e.1) = true ↔
      ∀ e ∈ t, e.1 ∈ fields.map Prod.fst := by
    simp
  rw [accepts, decode]
  split_ifs with hall
  · rw [Option.isSome_map, decodeFields_isSome]
    exact (and_iff_right (hnames.mp hall)).symm
  · simp only [Option.isSome_none, Bool.false_eq_true, false_iff, not_and]
    intro hknown
    exact absurd (hnames.mpr hknown) hall

theorem mapM_isSome {α β : Type} {f : α → Option β} {l : List α} :
    (l.mapM f).isSome ↔ ∀ a ∈ l, (f a).isSome := by
  induction l with
  | nil => simp
  | cons a l ih =>
    rw [List.forall_mem_cons, ← ih, List.mapM_cons]
    cases f a <;> cases l.mapM f <;> simp

theorem accepts_map :
    S.accepts (.map entry d) (.table t) ↔ ∀ e ∈ t, S.accepts entry e.2 := by
  rw [accepts, decode, Option.isSome_map, mapM_isSome]
  simp only [Option.isSome_map, accepts]

theorem tidy_sub [DecidableEq σ] (htidy : K.tidy s) (h : s.sub k = some s') : K.tidy s' := by
  cases s with
  | field => cases h
  | struct fields =>
    simp only [Kinds.tidy, Bool.and_eq_true] at htidy
    replace htidy := htidy.2
    simp only [Shape.sub] at h
    induction fields with
    | nil => cases h
    | cons f fields ih =>
      simp only [Kinds.tidyFields, Bool.and_eq_true] at htidy
      simp only [lookup] at h
      split_ifs at h
      · cases h
        exact htidy.1
      · exact ih h htidy.2
  | map entry d =>
    simp only [Kinds.tidy, Bool.and_eq_true] at htidy
    cases h
    exact htidy.1

/-- A section with one name written is accepted when what is written there is. -/
theorem accepts_insertEntry [DecidableEq σ] (htidy : K.tidy s) (hsection : s.isSection)
    (haccepts : S.accepts s (.table t)) :
    S.accepts s (.table (insertEntry k v t)) ↔ ∃ s', s.sub k = some s' ∧ S.accepts s' v := by
  cases s with
  | field => cases hsection
  | struct fields =>
    simp only [Kinds.tidy, Bool.and_eq_true, decide_eq_true_eq] at htidy
    obtain ⟨hknown, hgiven⟩ := accepts_struct.mp haccepts
    rw [accepts_struct]
    constructor
    · rintro ⟨hknown', hgiven'⟩
      have hk : (lookup k fields).isSome := lookup_isSome.mpr (hknown' (k, v) mem_insertEntry_self)
      obtain ⟨s', hs'⟩ := Option.isSome_iff_exists.mp hk
      have h := hgiven' (k, s') (mem_of_lookup hs')
      simp only [lookup_insertEntry, if_true] at h
      exact ⟨s', hs', h⟩
    · rintro ⟨s', hs', hv⟩
      refine ⟨?_, ?_⟩
      · intro e he
        rcases mem_insertEntry he with rfl | he
        · exact lookup_isSome.mp (by simp [Shape.sub] at hs'; simp [hs'])
        · exact hknown e he
      · intro f hf
        rw [lookup_insertEntry]
        split_ifs with hfk
        · have hfs : lookup f.1 fields = some f.2 := lookup_of_mem htidy.1 hf
          rw [hfk] at hfs
          have : f.2 = s' := Option.some.inj (hfs.symm.trans hs')
          rw [this]
          exact hv
        · exact hgiven f hf
  | map entry d =>
    rw [accepts_map] at haccepts ⊢
    constructor
    · intro h
      exact ⟨entry, rfl, h (k, v) mem_insertEntry_self⟩
    · rintro ⟨s', hs', hv⟩ e he
      cases hs'
      rcases mem_insertEntry he with rfl | he
      · exact hv
      · exact haccepts e he

/-- What a section that is read has under each name. -/
theorem decode_part (hsection : s.isSection) (h : S.decode s (.table t) = some c) :
    ∃ cs, c = .record cs ∧ ∀ k, lookup k cs = S.part s k (lookup k t) := by
  cases s with
  | field => cases hsection
  | struct fields =>
    simp only [decode] at h
    split_ifs at h with hall
    obtain ⟨cs, hcs, rfl⟩ := Option.map_eq_some_iff.mp h
    refine ⟨cs, rfl, ?_⟩
    intro k
    have hpart : S.part (.struct fields) k (lookup k t) =
        (lookup k fields).bind fun s => S.given s (lookup k t) := by
      cases lookup k t <;> rfl
    rw [hpart]
    clear h hpart hsection hall
    induction fields generalizing cs with
    | nil =>
      cases hcs
      rfl
    | cons f fields ih =>
      obtain ⟨j, s⟩ := f
      simp only [decodeFields] at hcs
      split at hcs
      · rename_i c rest hc hrest
        cases hcs
        simp only [lookup]
        split_ifs with hjk
        · subst hjk
          rw [Option.bind_some, ← hc]
          cases lookup j t <;> rfl
        · exact ih rest hrest
      · cases hcs
  | map entry d =>
    simp only [decode] at h
    obtain ⟨cs, hcs, rfl⟩ := Option.map_eq_some_iff.mp h
    refine ⟨cs, rfl, ?_⟩
    intro k
    have hpart : S.part (.map entry d) k (lookup k t) = (lookup k t).bind (S.decode entry) := by
      cases lookup k t <;> rfl
    rw [hpart]
    clear h hpart hsection
    induction t generalizing cs with
    | nil =>
      cases hcs
      rfl
    | cons e t ih =>
      rw [List.mapM_cons] at hcs
      cases hdec : S.decode entry e.2 with
      | none => simp [hdec] at hcs
      | some c =>
        cases hrest : t.mapM fun e => (S.decode entry e.2).map (e.1, ·) with
        | none => simp [hdec, hrest] at hcs
        | some rest =>
          simp only [hdec, hrest, Option.map_some, Option.pure_def, Option.bind_eq_bind,
            Option.bind_some, Option.some.injEq] at hcs
          subst hcs
          simp only [lookup]
          split_ifs with hek
          · rw [Option.bind_some, hdec]
          · exact ih rest hrest

theorem mem_encodeFields {e : String × Value ρ} (h : e ∈ S.encodeFields cs) :
    ∃ c, (e.1, c) ∈ cs ∧ S.encode c = some e.2 := by
  induction cs with
  | nil => cases h
  | cons f cs ih =>
    obtain ⟨k, c⟩ := f
    simp only [encodeFields] at h
    split at h
    · rename_i v hv
      rcases mem_insertEntry h with rfl | h
      · exact ⟨c, List.mem_cons_self, hv⟩
      · obtain ⟨c', hc', hv'⟩ := ih h
        exact ⟨c', List.mem_cons_of_mem _ hc', hv'⟩
    · obtain ⟨c', hc', hv'⟩ := ih h
      exact ⟨c', List.mem_cons_of_mem _ hc', hv'⟩

theorem lookup_encodeFields (hnodup : (cs.map Prod.fst).Nodup) (k : String) :
    lookup k (S.encodeFields cs) = (lookup k cs).bind S.encode := by
  induction cs with
  | nil => rfl
  | cons f cs ih =>
    obtain ⟨j, c⟩ := f
    obtain ⟨hj, hcs⟩ := List.nodup_cons.mp hnodup
    have hmissing : lookup j cs = none := by
      rw [← Option.not_isSome_iff_eq_none, lookup_isSome]
      exact hj
    simp only [encodeFields, lookup]
    cases hc : S.encode c with
    | none =>
      rw [ih hcs]
      split_ifs with hjk
      · subst hjk
        rw [hmissing, Option.bind_none, Option.bind_some, hc]
      · rfl
    | some v =>
      rw [lookup_insertEntry, ih hcs]
      split_ifs with hkj hjk hjk
      · rw [Option.bind_some, hc]
      · exact absurd hkj.symm hjk
      · exact absurd hjk.symm hkj
      · rfl

theorem fitsFields_names (h : K.fitsFields fields cs) :
    cs.map Prod.fst = fields.map Prod.fst := by
  induction fields generalizing cs with
  | nil =>
    cases cs with
    | nil => rfl
    | cons => simp [Kinds.fitsFields] at h
  | cons f fields ih =>
    cases cs with
    | nil => simp [Kinds.fitsFields] at h
    | cons e cs =>
      simp only [Kinds.fitsFields, Bool.and_eq_true, decide_eq_true_eq] at h
      rw [List.map_cons, List.map_cons, ih h.2, h.1.1]

/-- The names of a configuration's section differ. -/
theorem fits_nodup [DecidableEq σ] (htidy : K.tidy s) (h : K.fits s (.record cs)) :
    (cs.map Prod.fst).Nodup := by
  cases s with
  | field => cases h
  | struct fields =>
    simp only [Kinds.tidy, Bool.and_eq_true, decide_eq_true_eq] at htidy
    rw [fitsFields_names h]
    exact htidy.1
  | map entry d =>
    simp only [Kinds.fits, Bool.and_eq_true, decide_eq_true_eq] at h
    exact h.1

theorem fits_lookup (h : K.fits s (.record cs)) (hc : lookup k cs = some c) :
    ∃ s', s.sub k = some s' ∧ K.fits s' c := by
  cases s with
  | field => cases h
  | struct fields =>
    replace h : K.fitsFields fields cs = true := h
    simp only [Shape.sub]
    induction fields generalizing cs with
    | nil =>
      cases cs with
      | nil => cases hc
      | cons => simp [Kinds.fitsFields] at h
    | cons f fields ih =>
      cases cs with
      | nil => cases hc
      | cons e cs =>
        simp only [Kinds.fitsFields, Bool.and_eq_true, decide_eq_true_eq] at h
        simp only [lookup] at hc ⊢
        rw [h.1.1]
        split_ifs at hc ⊢ with hk
        · cases hc
          exact ⟨f.2, rfl, h.1.2⟩
        · exact ih hc h.2
  | map entry d =>
    simp only [Kinds.fits, Bool.and_eq_true, List.all_eq_true] at h
    exact ⟨entry, rfl, h.2 (k, c) (mem_of_lookup hc)⟩

/-- A section has all its fields. -/
theorem fits_struct (h : K.fits (.struct fields) (.record cs)) (hk : lookup k fields = some s') :
    ∃ c, lookup k cs = some c ∧ K.fits s' c := by
  have hmem : k ∈ cs.map Prod.fst := by
    rw [fitsFields_names h]
    exact lookup_isSome.mp (Option.isSome_iff_exists.mpr ⟨s', hk⟩)
  obtain ⟨c, hc⟩ := Option.isSome_iff_exists.mp (lookup_isSome.mpr hmem)
  obtain ⟨s'', hsub, hfits⟩ := fits_lookup h hc
  obtain rfl := Option.some.inj (hk.symm.trans hsub)
  exact ⟨c, hc, hfits⟩

/-- Only a section is read into a record. -/
theorem isSection_of_fits (h : K.fits s (.record cs)) : s.isSection := by
  cases s with
  | field => cases h
  | struct => rfl
  | map => rfl

mutual

/-- What a configuration writes it reads again. -/
theorem given_encode [DecidableEq σ] : ∀ (s : Shape τ σ) (c : Conf σ),
    K.tidy s → K.fits s c → (S.given s (S.encode c)).isSome
  | .field t d, .value x, htidy, hfits => by
    simp only [encode]
    cases hw : S.write x with
    | none =>
      have homitted : K.omitted t = some x := (S.written hfits).mp hw
      simp only [Kinds.tidy, homitted, Bool.and_eq_true, decide_eq_true_eq] at htidy
      simp [given, Shape.absent, htidy.1.resolve_left (by simp)]
    | some r => simpa [given, decode] using S.readable hfits hw
  | .struct fields, .record cs, htidy, hfits => by
    have hnodup := fits_nodup htidy hfits
    have hnames : cs.map Prod.fst = fields.map Prod.fst := fitsFields_names hfits
    simp only [Kinds.tidy, Bool.and_eq_true] at htidy
    have hfields := given_encodeFields fields cs htidy.2 hfits
    refine accepts_struct.mpr ⟨?_, ?_⟩
    · intro e he
      obtain ⟨c, hc, -⟩ := mem_encodeFields he
      rw [← hnames]
      exact List.mem_map_of_mem (f := Prod.fst) hc
    · intro f hf
      obtain ⟨c, hc, hgiven⟩ := hfields f hf
      rw [lookup_encodeFields hnodup, lookup_of_mem hnodup hc]
      exact hgiven
  | .map entry d, .record cs, htidy, hfits => by
    simp only [Kinds.tidy, Bool.and_eq_true] at htidy
    simp only [Kinds.fits, Bool.and_eq_true, List.all_eq_true] at hfits
    refine (accepts_map (d := d)).mpr ?_
    intro e he
    obtain ⟨c, hc, henc⟩ := mem_encodeFields he
    have h := given_encode entry c htidy.1 (hfits.2 _ hc)
    rw [henc] at h
    exact h
  | .field _ _, .record _, _, hfits => by cases hfits
  | .struct _, .value _, _, hfits => by cases hfits
  | .map _ _, .value _, _, hfits => by cases hfits

theorem given_encodeFields [DecidableEq σ] : ∀ (fields : List (String × Shape τ σ))
    (cs : List (String × Conf σ)), K.tidyFields fields → K.fitsFields fields cs →
      ∀ f ∈ fields, ∃ c, (f.1, c) ∈ cs ∧ (S.given f.2 (S.encode c)).isSome
  | [], _, _, _, f, hf => by cases hf
  | (k, s) :: fields, [], _, hfits, _, _ => by simp [Kinds.fitsFields] at hfits
  | (k, s) :: fields, (j, c) :: cs, htidy, hfits, f, hf => by
    simp only [Kinds.tidyFields, Bool.and_eq_true] at htidy
    simp only [Kinds.fitsFields, Bool.and_eq_true, decide_eq_true_eq] at hfits
    rcases List.mem_cons.mp hf with rfl | hf
    · refine ⟨c, ?_, given_encode s c htidy.1 hfits.1.2⟩
      rw [hfits.1.1]
      exact List.mem_cons_self
    · obtain ⟨c', hc', hgiven⟩ := given_encodeFields fields cs htidy.2 hfits.2 f hf
      exact ⟨c', List.mem_cons_of_mem _ hc', hgiven⟩

end

end Serde
end Document
