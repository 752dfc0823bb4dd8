import Walgit.EnvOverrides

/-!
# What a run over environment variables does

For variables whose paths lead apart, what is reported as ignored and what the configuration
becomes depend neither on the order of the variables nor on each other.
-/
namespace Walgit.HostConfig

open Document SortedMap Text Serde

/-- The path of a variable; empty if it is none of `WALGIT__`. -/
def envPath (name : String) : List String :=
  ((Auth.stripPrefix "WALGIT__" name).map pathOf).getD []

/-- Every name of the path says something. -/
def wellFormed (var : String × String) : Bool := (envPath var.1).all (· ≠ "")

/-- A variable of the group `[placement]`, by its name. -/
def OfGroup (name : String) : Prop := (Auth.stripPrefix "WALGIT__PLACEMENT__" name).isSome

instance : DecidablePred OfGroup := fun name =>
  inferInstanceAs (Decidable ((Auth.stripPrefix "WALGIT__PLACEMENT__" name).isSome = true))

section Admitted

variable {ρ : Type} (T : Toml ρ)

def entry (var : String × String) : List String × Value ρ := (envPath var.1, valueOf T var.2)

/-- The variable alone is accepted on top of the base. -/
def admitted (base : Config) (var : String × String) : Bool :=
  wellFormed var && (T.tries config (document T base) (entry T var)).isSome

def refused (base : Config) (var : String × String) : Bool :=
  wellFormed var && (T.tries config (document T base) (entry T var)).isNone

def entries (base : Config) (vars : List (String × String)) : List (List String × Value ρ) :=
  (vars.filter (admitted T base)).map (entry T)

end Admitted

/-- What the loop over some variables does. -/
structure Ran {ρ : Type} (T : Toml ρ) (base : Config) (s : Overrides ρ)
    (vars : List (String × String)) (s' : Overrides ρ) : Prop where
  varsSeen : s'.varsSeen = s.varsSeen ++ vars.map Prod.fst
  doc : s'.doc = writes s.doc (entries T base vars)
  touched : s'.touched = (s.touched || vars.any (admitted T base))
  ignored : s'.ignored.map Prod.fst =
    s.ignored.map Prod.fst ++ (vars.filter (refused T base)).map Prod.fst
  portOverride : s'.portOverride = s.portOverride

section Grouped

variable {ρ : Type} (T : Toml ρ) (base : Config) (vars : List (String × String))

def Grouped : Prop := ∃ var ∈ vars, OfGroup var.1

/-- The base as its own document is read. -/
def again : Config := (T.decode config (.table (document T base))).getD base

end Grouped

variable {ρ : Type} {T : Toml ρ} {base c : Config} {vars vars' : List (String × String)}
  {var : String × String} {s s' s₁ : Overrides ρ} {t doc : Table ρ} {path : List String}
  {value : Value ρ}

section Names

theorem splitUnderscores_ne_nil (l : List Char) : splitUnderscores l ≠ [] := by
  induction l using splitUnderscores.induct with
  | case1 rest => simp [splitUnderscores]
  | case2 c rest hnot word words h ih => simp [splitUnderscores, h]
  | case3 c rest hnot h ih => exact absurd h ih
  | case4 => simp [splitUnderscores]

theorem pathOf_ne_nil (rest : String) : pathOf rest ≠ [] := by
  simp [pathOf, splitUnderscores_ne_nil]

theorem envPath_ne_nil {name : String} (hname : (Auth.stripPrefix "WALGIT__" name).isSome) :
    envPath name ≠ [] := by
  obtain ⟨rest, hrest⟩ := Option.isSome_iff_exists.mp hname
  simp [envPath, hrest, pathOf_ne_nil]

theorem splitUnderscores_eq_single {l w : List Char} (h : splitUnderscores l = [w]) : l = w := by
  induction l using splitUnderscores.induct generalizing w with
  | case1 rest => simp [splitUnderscores, splitUnderscores_ne_nil] at h
  | case2 c rest hnot word words hsplit ih =>
    simp only [splitUnderscores, hsplit, List.cons.injEq] at h
    obtain ⟨rfl, rfl⟩ := h
    rw [ih hsplit]
  | case3 c rest hnot hsplit ih => exact absurd hsplit (splitUnderscores_ne_nil rest)
  | case4 =>
    cases h
    rfl

theorem splitUnderscores_single {l : List Char} (h : ¬ ['_', '_'] <:+: l) :
    splitUnderscores l = [l] := by
  induction l using splitUnderscores.induct with
  | case1 rest => exact absurd (List.prefix_append ['_', '_'] rest).isInfix h
  | case2 c rest hnot word words hsplit ih =>
    have hrest := ih fun hinfix => h (List.infix_cons hinfix)
    simp [splitUnderscores, hrest]
  | case3 c rest hnot hsplit ih => exact absurd hsplit (splitUnderscores_ne_nil rest)
  | case4 => rfl

theorem stripPrefix_some {pre name rest : String} (h : Auth.stripPrefix pre name = some rest) :
    name = pre ++ rest := by
  unfold Auth.stripPrefix at h
  split_ifs at h with hstarts
  cases h
  have hprefix : pre.toList <+: name.toList := List.isPrefixOf_iff_prefix.mp hstarts
  obtain ⟨tail, htail⟩ := hprefix
  rw [← String.toList_inj]
  simp [← htail]

/-- A variable of the group has a path into `[placement]`. -/
theorem envPath_group {name rest : String}
    (h : Auth.stripPrefix "WALGIT__PLACEMENT__" name = some rest) :
    envPath name = "placement" :: pathOf rest := by
  have hname : name = "WALGIT__" ++ ("PLACEMENT__" ++ rest) := by
    rw [stripPrefix_some h, ← String.append_assoc]
    rfl
  have hlower : toAsciiLowercase "PLACEMENT" = "placement" := by decide
  rw [envPath, hname, Auth.stripPrefix_append, Option.map_some, Option.getD_some, pathOf]
  simp [splitUnderscores, pathOf, hlower]

/-- Of variables whose paths lead apart no two have a path in common. -/
theorem eq_of_path {var' : String × String}
    (hapart : vars.Pairwise fun a b => Apart (envPath a.1) (envPath b.1)) (hvar : var ∈ vars)
    (hvar' : var' ∈ vars) (h : ¬ Apart (envPath var.1) (envPath var'.1)) : var = var' := by
  have : Std.Symm fun a b : String × String => Apart (envPath a.1) (envPath b.1) :=
    ⟨fun _ _ => Apart.symm⟩
  by_contra hne
  exact h (hapart.forall hvar hvar' hne)

theorem eq_of_same_path {var' : String × String}
    (hapart : vars.Pairwise fun a b => Apart (envPath a.1) (envPath b.1)) (hvar : var ∈ vars)
    (hvar' : var' ∈ vars) (h : envPath var.1 = envPath var'.1) : var = var' :=
  eq_of_path hapart hvar hvar' fun hboth => hboth.ne h

/-- Next to a variable of the group, no other one is at the group itself. -/
theorem path_ne_group (hapart : vars.Pairwise fun a b => Apart (envPath a.1) (envPath b.1))
    (hgrouped : Grouped vars) (hvar : var ∈ vars) : envPath var.1 ≠ ["placement"] := by
  intro hpath
  obtain ⟨var', hvar', hgroup⟩ := hgrouped
  obtain ⟨rest, hrest⟩ := Option.isSome_iff_exists.mp hgroup
  have hsame := eq_of_path hapart hvar hvar' (by
    rw [hpath, envPath_group hrest]
    exact fun hboth => hboth.1 (by simp))
  rw [hsame, envPath_group hrest, List.cons.injEq] at hpath
  exact pathOf_ne_nil rest hpath.2

theorem any_group : vars.any (OfGroup ·.1) = true ↔ Grouped vars := by
  simp only [List.any_eq_true, decide_eq_true_eq, Grouped]

end Names

section Run

theorem trial_eq :
    trial T doc path value = .ok t ↔ T.tries config doc (path, value) = some t := by
  simp only [trial, tries]
  cases set path value doc with
  | error e => simp
  | ok t' => by_cases haccepts : T.accepts config (.table t') <;> simp [haccepts]

theorem encode_record (cs : List (String × Config)) :
    document T (.record cs) = T.encodeFields cs := rfl

theorem fits_record (h : kinds.fits config base) : ∃ cs, base = .record cs := by
  cases base with
  | value => cases h
  | record cs => exact ⟨cs, rfl⟩

/-- The document of a configuration is a configuration. -/
theorem accepts_document (h : kinds.fits config base) :
    T.accepts config (.table (document T base)) := by
  obtain ⟨cs, rfl⟩ := fits_record h
  exact given_encode config (.record cs) config_tidy h

theorem alike_document (h : kinds.fits config base) (hpath : path ≠ []) :
    T.Alike config (document T base) (document T base) path := by
  obtain ⟨cs, rfl⟩ := fits_record h
  exact alike_refl config_tidy h hpath

/-- One variable of `WALGIT__` on a document on which its path is as in the base. -/
theorem applyVar_step (h : kinds.fits config base)
    (hname : (Auth.stripPrefix "WALGIT__" var.1).isSome)
    (haccepts : T.accepts config (.table s.doc))
    (halike : T.Alike config (document T base) s.doc (envPath var.1)) :
    Ran T base s [var] (applyVar T s var) := by
  obtain ⟨rest, hrest⟩ := Option.isSome_iff_exists.mp hname
  have hport : var.1 ≠ "PORT" := by
    intro hport
    have hnone : Auth.stripPrefix "WALGIT__" "PORT" = none := by decide
    rw [hport, hnone] at hrest
    cases hrest
  have hpath : envPath var.1 = pathOf rest := by simp [envPath, hrest]
  have hsame : (T.tries config s.doc (entry T var)).isSome =
      (T.tries config (document T base) (entry T var)).isSome :=
    Alike.tries config_tidy rfl (accepts_document h) haccepts halike
  have hne : (pathOf rest).isEmpty = false := by simp [pathOf_ne_nil]
  simp only [applyVar, if_neg hport, hrest, hne, Bool.false_or]
  by_cases hformed : (pathOf rest).any (· = "") = true
  · have hnot : wellFormed var = false := by
      rw [wellFormed, hpath]
      simpa using hformed
    constructor <;> simp [hformed, entries, admitted, refused, hnot, writes]
  · have hformed' : wellFormed var = true := by
      rw [wellFormed, hpath, List.all_eq_true]
      intro x hx
      simp only [decide_eq_true_eq]
      rintro rfl
      exact hformed (by simpa using hx)
    simp only [if_neg hformed]
    cases htry : T.tries config s.doc (entry T var) with
    | none =>
      rw [htry] at hsame
      have hrefused : refused T base var = true := by
        simp [refused, hformed', ← Option.not_isSome_iff_eq_none, ← hsame]
      have hadmitted : admitted T base var = false := by
        simp [admitted, ← hsame]
      cases htrial : trial T s.doc (pathOf rest) (valueOf T var.2) with
      | ok t =>
        have := trial_eq.mp htrial
        rw [← hpath] at this
        rw [entry] at htry
        rw [htry] at this
        cases this
      | error why => constructor <;> simp [entries, hadmitted, hrefused, writes]
    | some t =>
      rw [htry] at hsame
      have hrefused : refused T base var = false := by
        simp [refused, ← hsame]
      have hadmitted : admitted T base var = true := by
        simp [admitted, hformed', ← hsame]
      have hplaced := (leads_of_tries config_tidy rfl haccepts halike htry).2
      rw [entry, hpath] at htry
      rw [trial_eq.mpr htry]
      constructor <;> simp [entries, hadmitted, hrefused, writes, hplaced]

theorem writes_append (t : Table ρ) (es es' : List (List String × Value ρ)) :
    writes t (es ++ es') = writes (writes t es) es' := List.foldl_append

theorem entries_cons (var : String × String) (vars : List (String × String)) :
    entries T base (var :: vars) = entries T base [var] ++ entries T base vars := by
  cases h : admitted T base var <;> simp [entries, h]

theorem Ran.cons (h : Ran T base s [var] s₁) (h' : Ran T base s₁ vars s') :
    Ran T base s (var :: vars) s' where
  varsSeen := by simp [h'.varsSeen, h.varsSeen]
  doc := by rw [h'.doc, h.doc, entries_cons var vars, writes_append]
  touched := by simp [h'.touched, h.touched, Bool.or_assoc]
  ignored := by
    rw [h'.ignored, h.ignored, List.append_assoc, ← List.map_append, ← List.filter_append]
    rfl
  portOverride := h'.portOverride.trans h.portOverride

/-- A variable that is accepted writes one value; the document stays a configuration, and the
paths of the others are as they were. -/
theorem step_keeps (h : kinds.fits config base) (haccepts : T.accepts config (.table s.doc))
    (halike : T.Alike config (document T base) s.doc (envPath var.1)) :
    T.accepts config (.table (writes s.doc (entries T base [var]))) ∧
      ∀ q, Apart (envPath var.1) q → T.Alike config (document T base) s.doc q →
        T.Alike config (document T base) (writes s.doc (entries T base [var])) q := by
  cases hadmitted : admitted T base var with
  | false =>
    have hnone : entries T base [var] = [] := by simp [entries, hadmitted]
    rw [hnone]
    exact ⟨haccepts, fun _ _ hq => hq⟩
  | true =>
    have hone : entries T base [var] = [entry T var] := by simp [entries, hadmitted]
    have hsome : (T.tries config s.doc (entry T var)).isSome := by
      rw [Alike.tries config_tidy rfl (accepts_document h) haccepts halike]
      exact (Bool.and_eq_true_iff.mp hadmitted).2
    obtain ⟨t, ht⟩ := Option.isSome_iff_exists.mp hsome
    obtain ⟨hleads, rfl⟩ := leads_of_tries config_tidy rfl haccepts halike ht
    rw [hone]
    exact ⟨tries_accepts ht, fun q hapart hq => hq.place hleads hapart _⟩

theorem run_eq (h : kinds.fits config base)
    (hnames : ∀ var ∈ vars, (Auth.stripPrefix "WALGIT__" var.1).isSome)
    (hapart : vars.Pairwise fun a b => Apart (envPath a.1) (envPath b.1))
    (haccepts : T.accepts config (.table s.doc))
    (halike : ∀ var ∈ vars, T.Alike config (document T base) s.doc (envPath var.1)) :
    Ran T base s vars (vars.foldl (applyVar T) s) := by
  induction vars generalizing s with
  | nil => constructor <;> simp [entries, writes]
  | cons var vars ih =>
    obtain ⟨hname, hnames⟩ := List.forall_mem_cons.mp hnames
    obtain ⟨hfirst, hapart⟩ := List.pairwise_cons.mp hapart
    obtain ⟨hvar, halike⟩ := List.forall_mem_cons.mp halike
    have hstep := applyVar_step h hname haccepts hvar
    obtain ⟨haccepts₁, hkeeps⟩ := step_keeps h haccepts hvar
    refine hstep.cons (ih hnames hapart ?_ ?_)
    · rw [hstep.doc]
      exact haccepts₁
    · intro var' hvar'
      rw [hstep.doc]
      exact hkeeps _ (hfirst var' hvar') (halike var' hvar')

end Run

section Group

variable {pt out : Table ρ} {keys : List String} {env : Table ρ} {k : String} {cW : Config}

theorem lookup_copyKeys (k : String) (pt out : Table ρ) (keys : List String) :
    lookup k (keys.foldl (copyKey pt) out) =
      if k ∈ keys then (lookup k pt).or (lookup k out) else lookup k out := by
  induction keys generalizing out with
  | nil => simp
  | cons j keys ih =>
    rw [List.foldl_cons, ih]
    have hcopy : lookup k (copyKey pt out j) =
        if k = j then (lookup k pt).or (lookup k out) else lookup k out := by
      unfold copyKey
      cases hj : lookup j pt with
      | none =>
        split_ifs with hkj
        · rw [hkj, hj]
          rfl
        · rfl
      | some v =>
        rw [lookup_insertEntry]
        split_ifs with hkj
        · rw [hkj, hj]
          rfl
        · rfl
    rw [hcopy]
    by_cases hkj : k = j
    · subst hkj
      cases lookup k pt <;> simp
    · simp [hkj]

theorem copyKeys_sorted (hout : out.Pairwise fun a b => a.1 < b.1) :
    (keys.foldl (copyKey pt) out).Pairwise fun a b => a.1 < b.1 := by
  induction keys generalizing out with
  | nil => exact hout
  | cons j keys ih =>
    refine ih ?_
    unfold copyKey
    split
    · exact insertEntry_sorted _ _ hout
    · exact hout

theorem lookup_insertAll (k : String) (hnodup : (env.map Prod.fst).Nodup) (fresh : Table ρ) :
    lookup k (env.foldl (fun fresh e => insertEntry e.1 e.2 fresh) fresh) =
      (lookup k env).or (lookup k fresh) := by
  induction env generalizing fresh with
  | nil => rfl
  | cons e env ih =>
    obtain ⟨he, hnodup⟩ := List.nodup_cons.mp hnodup
    rw [List.foldl_cons, ih hnodup, lookup_insertEntry]
    simp only [lookup]
    by_cases hk : e.1 = k
    · subst hk
      have hmissing : lookup e.1 env = none := by
        rw [← Option.not_isSome_iff_eq_none, lookup_isSome]
        exact he
      simp [hmissing]
    · simp [hk, Ne.symm hk]

theorem accepts_insertAll {s : Section} (htidy : kinds.tidy s) (hsection : s.isSection)
    (haccepts : T.accepts s (.table t))
    (henv : ∀ e ∈ env, ∃ s', s.sub e.1 = some s' ∧ T.accepts s' e.2) :
    T.accepts s (.table (env.foldl (fun fresh e => insertEntry e.1 e.2 fresh) t)) := by
  induction env generalizing t with
  | nil => exact haccepts
  | cons e env ih =>
    obtain ⟨he, henv⟩ := List.forall_mem_cons.mp henv
    exact ih ((accepts_insertEntry htidy hsection haccepts).mpr he) henv

theorem placement_tidy : kinds.tidy placementConfig := by decide +kernel

theorem config_placement : config.sub "placement" = some placementConfig := by rfl

/-- Every field of the group is a list of texts, of which a document may have none. -/
theorem placement_field {e : String × Config} (he : e ∈ placementDefaults) :
    ∃ l, e.2 = .value (.texts l) ∧
      placementConfig.sub e.1 = some (.field .texts (some (.texts l))) := by
  simp only [placementDefaults, List.mem_cons, List.not_mem_nil, or_false] at he
  rcases he with rfl | rfl | rfl | rfl <;> exact ⟨_, rfl, by rfl⟩

/-- What the fields of the group are read as by default: whether they are written or not. -/
theorem part_default {e : String × Config} (he : e ∈ placementDefaults) :
    T.part placementConfig e.1 (lookup e.1 (T.encodeFields placementDefaults)) = some e.2 ∧
      T.part placementConfig e.1 none = some e.2 := by
  have hnodup : (placementDefaults.map Prod.fst).Nodup := by decide
  obtain ⟨l, hl, hsub⟩ := placement_field he
  constructor
  · rw [lookup_encodeFields hnodup, lookup_of_mem hnodup he, Option.bind_some, hl]
    exact part_encode placement_tidy rfl hsub rfl rfl
  · have hsub' : lookup e.1 _ =
        some (Shape.field FieldType.texts (some (FieldValue.texts l))) := hsub
    simp [part, placementConfig, hsub', Shape.absent, hl]

theorem placement_names (h : (placementConfig.sub k).isSome) :
    k ∈ placementDefaults.map Prod.fst := by
  simp only [placementConfig, Shape.sub] at h
  simpa [placementDefaults] using lookup_isSome.mp h

/-- The group has what the keys name from the document, and its defaults otherwise. -/
theorem group_spec (hW : T.decode config (.table t) = some cW)
    (hpt : lookup "placement" t = some (.table pt)) :
    ∃ c, T.decode config (.table (insertEntry "placement"
        (.table (freshPlacement T (keys.foldl (copyKey pt) []))) t)) = some c ∧
      (∀ q, Apart ["placement"] q → c.find q = cW.find q) ∧
      ∀ e ∈ placementDefaults, c.find ["placement", e.1] =
        if e.1 ∈ keys then cW.find ["placement", e.1] else some e.2 := by
  have haccepts : T.accepts config (.table t) := Option.isSome_iff_exists.mpr ⟨cW, hW⟩
  have hinside := accepts_inside rfl haccepts config_placement hpt
  have hnodup : ((keys.foldl (copyKey pt) []).map Prod.fst).Nodup :=
    (List.pairwise_map.mpr (copyKeys_sorted List.Pairwise.nil)).imp ne_of_lt
  have hdefaults : T.accepts placementConfig (.table (T.encodeFields placementDefaults)) :=
    given_encode placementConfig (.record placementDefaults) placement_tidy (by decide)
  have hfresh : T.accepts placementConfig
      (.table (freshPlacement T (keys.foldl (copyKey pt) []))) := by
    refine accepts_insertAll placement_tidy rfl hdefaults ?_
    intro e he
    have hlookup := lookup_of_mem hnodup he
    rw [lookup_copyKeys] at hlookup
    split_ifs at hlookup
    · refine accepts_lookup rfl hinside (k := e.1) ?_
      simpa [lookup] using hlookup
    · cases hlookup
  have hwhole := (accepts_insertEntry (k := "placement") config_tidy rfl haccepts).mpr
    ⟨placementConfig, config_placement, hfresh⟩
  obtain ⟨c, hc⟩ := Option.isSome_iff_exists.mp hwhole
  obtain ⟨-, haway⟩ := decode_place (p := ["placement"]) rfl trivial hW hc
  refine ⟨c, hc, haway, ?_⟩
  intro e he
  obtain ⟨hwritten, habsent⟩ := part_default (T := T) he
  rw [find_decode_two rfl rfl config_placement (by rw [lookup_insertEntry, if_pos rfl]) hc,
    find_decode_two rfl rfl config_placement hpt hW, freshPlacement, lookup_insertAll _ hnodup,
    lookup_copyKeys]
  split_ifs with hkey
  · cases hlookup : lookup e.1 pt with
    | none => simpa [lookup, habsent] using hwritten
    | some v => simp
  · simpa [lookup] using hwritten

/-- A section stays one while values are written elsewhere or into it. -/
theorem lookup_writes {es : List (List String × Value ρ)} (hes : ∀ e ∈ es, e.1 ≠ [k])
    (hk : lookup k t = some (.table pt)) :
    ∃ pt', lookup k (writes t es) = some (.table pt') := by
  induction es generalizing t pt with
  | nil => exact ⟨pt, hk⟩
  | cons e es ih =>
    obtain ⟨he, hrest⟩ := List.forall_mem_cons.mp hes
    obtain ⟨p, v⟩ := e
    have hplaced : ∃ pt', lookup k (place p v t) = some (.table pt') := by
      cases p with
      | nil => exact ⟨pt, hk⟩
      | cons j p =>
        by_cases hkj : k = j
        · subst hkj
          cases p with
          | nil => exact absurd rfl he
          | cons j' p =>
            rw [place_inside (inner_table hk), lookup_insertEntry, if_pos rfl]
            exact ⟨_, rfl⟩
        · rw [lookup_place hkj]
          exact ⟨pt, hk⟩
    obtain ⟨pt', hpt'⟩ := hplaced
    exact ih hrest hpt'

theorem lookup_document (h : kinds.fits config base) :
    ∃ pt, lookup "placement" (document T base) = some (.table pt) := by
  obtain ⟨cs, rfl⟩ := fits_record h
  obtain ⟨c, hc, hfits⟩ := fits_struct h config_placement
  rw [encode_record, lookup_encodeFields (fits_nodup config_tidy h), hc, Option.bind_some]
  cases c with
  | value => cases hfits
  | record cs' => exact ⟨T.encodeFields cs', rfl⟩

end Group

section Keys

theorem placementKeys_isEmpty :
    (placementKeys (vars.map Prod.fst)).isEmpty = false ↔ Grouped vars := by
  rw [← Bool.not_eq_true, List.isEmpty_iff]
  simp only [placementKeys, List.map_eq_nil_iff, List.filterMap_eq_nil_iff, List.forall_mem_map,
    Grouped, OfGroup, Option.isSome_iff_ne_none]
  push Not
  exact Iff.rfl

/-- No field of the group has two underscores in its name. -/
theorem default_single {e : String × Config} (he : e ∈ placementDefaults) :
    ¬ ['_', '_'] <:+: e.1.toList := by
  simp only [placementDefaults, List.mem_cons, List.not_mem_nil, or_false] at he
  rcases he with rfl | rfl | rfl | rfl <;> decide

theorem pathOf_eq_single {rest k : String} (hk : ¬ ['_', '_'] <:+: k.toList) :
    pathOf rest = [k] ↔ toAsciiLowercase rest = k := by
  constructor
  · intro h
    simp only [pathOf, List.map_eq_singleton_iff] at h
    obtain ⟨word, hword, hk⟩ := h
    rw [← splitUnderscores_eq_single hword, String.ofList_toList] at hk
    exact hk
  · intro h
    have hrest : ¬ ['_', '_'] <:+: rest.toList := by
      intro hinfix
      apply hk
      rw [← h, toAsciiLowercase, String.toList_ofList]
      exact hinfix.map Char.toLower
    simp [pathOf, splitUnderscores_single hrest, h]

theorem mem_placementKeys {e : String × Config} (he : e ∈ placementDefaults) :
    e.1 ∈ placementKeys (vars.map Prod.fst) ↔
      ∃ var ∈ vars, OfGroup var.1 ∧ envPath var.1 = ["placement", e.1] := by
  simp only [placementKeys, List.mem_map, List.mem_filterMap, OfGroup]
  constructor
  · rintro ⟨rest, ⟨name, ⟨var, hvar, rfl⟩, hrest⟩, hlower⟩
    refine ⟨var, hvar, Option.isSome_iff_exists.mpr ⟨rest, hrest⟩, ?_⟩
    rw [envPath_group hrest, (pathOf_eq_single (default_single he)).mpr hlower]
  · rintro ⟨var, hvar, hgroup, hpath⟩
    obtain ⟨rest, hrest⟩ := Option.isSome_iff_exists.mp hgroup
    rw [envPath_group hrest] at hpath
    exact ⟨rest, ⟨var.1, ⟨var, hvar, rfl⟩, hrest⟩,
      (pathOf_eq_single (default_single he)).mp (List.cons.inj hpath).2⟩

end Keys

section Report

/-- The document of the loop with the group replaced. -/
def grouped (T : Toml ρ) (doc : Table ρ) (names : List String) : Table ρ :=
  match envPlacementOverrides doc names with
  | none => doc
  | some env => insertEntry "placement" (.table (freshPlacement T env)) doc

/-- What the base becomes. -/
def outcome (T : Toml ρ) (base : Config) (vars : List (String × String)) : Config :=
  if vars.any (admitted T base) || vars.any (OfGroup ·.1) then
    (T.decode config (.table (grouped T (writes (document T base) (entries T base vars))
      (vars.map Prod.fst)))).getD base
  else base

theorem tries_of_mem_entries {e : List String × Value ρ} (he : e ∈ entries T base vars) :
    (T.tries config (document T base) e).isSome := by
  obtain ⟨var, hvar, rfl⟩ := List.mem_map.mp he
  exact (Bool.and_eq_true_iff.mp (List.mem_filter.mp hvar).2).2

theorem entries_apart (hapart : vars.Pairwise fun a b => Apart (envPath a.1) (envPath b.1)) :
    (entries T base vars).Pairwise fun a b => Apart a.1 b.1 :=
  List.pairwise_map.mpr (hapart.sublist List.filter_sublist)

variable (h : kinds.fits config base)
  (hnames : ∀ var ∈ vars, (Auth.stripPrefix "WALGIT__" var.1).isSome)
  (hapart : vars.Pairwise fun a b => Apart (envPath a.1) (envPath b.1))

include h

theorem decode_document : T.decode config (.table (document T base)) = some (again T base) := by
  obtain ⟨c, hc⟩ := Option.isSome_iff_exists.mp (accepts_document (T := T) h)
  rw [again, hc]
  rfl

include hnames hapart

/-- The document of the loop: the base with the values of the variables it accepts. -/
theorem decode_entries :
    ∃ cW, T.decode config (.table (writes (document T base) (entries T base vars))) = some cW ∧
      (∀ var ∈ vars, admitted T base var →
        cW.find (envPath var.1) = (config.find (envPath var.1)).bind (T.decode · (valueOf T var.2))) ∧
      ∀ q, (∀ var ∈ vars, admitted T base var → Apart (envPath var.1) q) →
        cW.find q = (again T base).find q := by
  have hleads : ∀ e ∈ entries T base vars, Leads config (document T base) e.1 ∧
      (T.tries config (document T base) e).isSome := by
    intro e he
    have htries := tries_of_mem_entries he
    obtain ⟨t, ht⟩ := Option.isSome_iff_exists.mp htries
    obtain ⟨var, hvar, rfl⟩ := List.mem_map.mp he
    have hpath := envPath_ne_nil (hnames var (List.mem_filter.mp hvar).1)
    exact ⟨(leads_of_tries config_tidy rfl (accepts_document h) (alike_document h hpath) ht).1,
      htries⟩
  obtain ⟨cW, hcW, hvalues, hothers⟩ := decode_writes config_tidy rfl (decode_document h)
    (entries_apart hapart) hleads
  refine ⟨cW, hcW, ?_, ?_⟩
  · intro var hvar hadmitted
    exact hvalues (entry T var) (List.mem_map_of_mem (List.mem_filter.mpr ⟨hvar, hadmitted⟩))
  · intro q hq
    refine hothers q ?_
    intro e he
    obtain ⟨var, hvar, rfl⟩ := List.mem_map.mp he
    obtain ⟨hvar, hadmitted⟩ := List.mem_filter.mp hvar
    exact hq var hvar hadmitted

omit hnames in
theorem overrides_grouped (hgrouped : Grouped vars) :
    ∃ pt, lookup "placement" (writes (document T base) (entries T base vars)) =
        some (.table pt) ∧
      envPlacementOverrides (writes (document T base) (entries T base vars))
        (vars.map Prod.fst) =
          some ((placementKeys (vars.map Prod.fst)).foldl (copyKey pt) []) := by
  have helsewhere : ∀ e ∈ entries T base vars, e.1 ≠ ["placement"] := by
    intro e he
    obtain ⟨var, hvar, rfl⟩ := List.mem_map.mp he
    exact path_ne_group hapart hgrouped (List.mem_filter.mp hvar).1
  obtain ⟨pt₀, hpt₀⟩ := lookup_document (T := T) h
  obtain ⟨pt, hpt⟩ := lookup_writes helsewhere hpt₀
  refine ⟨pt, hpt, ?_⟩
  simp [envPlacementOverrides, placementKeys_isEmpty.mpr hgrouped, hpt]

omit h hnames hapart in
theorem overrides_none (hgrouped : ¬ Grouped vars) (doc : Table ρ) :
    envPlacementOverrides doc (vars.map Prod.fst) = none := by
  have hempty : (placementKeys (vars.map Prod.fst)).isEmpty = true := by
    rw [← Bool.not_eq_false, placementKeys_isEmpty]
    exact hgrouped
  rw [envPlacementOverrides, if_pos hempty]

omit hnames in
/-- With a variable of the group, the group is rebuilt from the names that were seen. -/
theorem decode_grouped (hgrouped : Grouped vars) {cW : Config}
    (hcW : T.decode config (.table (writes (document T base) (entries T base vars))) = some cW) :
    ∃ c, T.decode config (.table (grouped T (writes (document T base) (entries T base vars))
        (vars.map Prod.fst))) = some c ∧
      (∀ q, Apart ["placement"] q → c.find q = cW.find q) ∧
      ∀ e ∈ placementDefaults, c.find ["placement", e.1] =
        if e.1 ∈ placementKeys (vars.map Prod.fst) then cW.find ["placement", e.1]
        else some e.2 := by
  obtain ⟨pt, hpt, henv⟩ := overrides_grouped (T := T) h hapart hgrouped
  rw [grouped, henv]
  exact group_spec hcW hpt

omit hnames in
theorem applyGroup_eq {s : Overrides ρ} (hseen : s.varsSeen = vars.map Prod.fst)
    (hdoc : s.doc = writes (document T base) (entries T base vars)) :
    (applyGroup T s).doc =
        grouped T (writes (document T base) (entries T base vars)) (vars.map Prod.fst) ∧
      (applyGroup T s).touched = (s.touched || vars.any (OfGroup ·.1)) ∧
      (applyGroup T s).ignored = s.ignored ∧
      (applyGroup T s).portOverride = s.portOverride := by
  rw [applyGroup, grouped, hdoc, hseen]
  by_cases hgrouped : Grouped vars
  · obtain ⟨pt, -, henv⟩ := overrides_grouped (T := T) h hapart hgrouped
    have hany : vars.any (OfGroup ·.1) = true := any_group.mpr hgrouped
    rw [henv, hany, Bool.or_true]
    exact ⟨rfl, rfl, rfl, rfl⟩
  · have hany : vars.any (OfGroup ·.1) = false := by
      rw [← Bool.not_eq_true, any_group]
      exact hgrouped
    rw [overrides_none hgrouped, hany, Bool.or_false]
    exact ⟨hdoc, rfl, rfl, rfl⟩

omit hnames in
theorem decode_outcome {cW : Config}
    (hcW : T.decode config (.table (writes (document T base) (entries T base vars))) = some cW) :
    ∃ c, T.decode config (.table (grouped T (writes (document T base) (entries T base vars))
      (vars.map Prod.fst))) = some c := by
  by_cases hgrouped : Grouped vars
  · obtain ⟨c, hc, -, -⟩ := decode_grouped h hapart hgrouped hcW
    exact ⟨c, hc⟩
  · rw [grouped, overrides_none hgrouped]
    exact ⟨cW, hcW⟩

/-- The report names the variables that the base refuses, and its configuration is the outcome. -/
theorem report_eq : ∃ ignored, applyEnvReport T base vars = .ok (outcome T base vars, ignored) ∧
    ignored.map Prod.fst = (vars.filter (refused T base)).map Prod.fst := by
  have hrun := run_eq (s := ⟨[], document T base, false, [], none⟩) h hnames hapart
    (accepts_document h) fun var hvar => alike_document h (envPath_ne_nil (hnames var hvar))
  generalize hs : vars.foldl (applyVar T) ⟨[], document T base, false, [], none⟩ = s at hrun
  have hseen : s.varsSeen = vars.map Prod.fst := hrun.varsSeen
  have hdoc : s.doc = writes (document T base) (entries T base vars) := hrun.doc
  have htouched : s.touched = vars.any (admitted T base) := hrun.touched.trans (Bool.false_or _)
  have hport : s.portOverride = none := hrun.portOverride
  refine ⟨s.ignored, ?_, by simpa using hrun.ignored⟩
  obtain ⟨hfinal, htouched', hignored, hnone⟩ := applyGroup_eq h hapart hseen hdoc
  obtain ⟨cW, hcW, -, -⟩ := decode_entries (T := T) h hnames hapart
  obtain ⟨c, hc⟩ := decode_outcome h hapart hcW
  simp only [applyEnvReport, hs, hnone, hport, hignored, htouched', htouched, hfinal, hc, outcome,
    Option.getD_some]
  split_ifs <;> rfl

end Report

section Order

theorem copyKeys_perm {keys keys' : List String} (hperm : keys.Perm keys') (pt out : Table ρ) :
    keys.foldl (copyKey pt) out = keys'.foldl (copyKey pt) out := by
  refine hperm.foldl_eq' ?_ out
  intro j _ k _ out
  by_cases hjk : j = k
  · rw [hjk]
  · unfold copyKey
    cases lookup j pt <;> cases lookup k pt <;> simp [insertEntry_comm (Ne.symm hjk)]

theorem grouped_perm {names names' : List String} (hperm : names.Perm names') (doc : Table ρ) :
    grouped T doc names = grouped T doc names' := by
  have hkeys : (placementKeys names).Perm (placementKeys names') :=
    (hperm.filterMap _).map _
  have hempty : (placementKeys names).isEmpty = (placementKeys names').isEmpty := by
    rw [Bool.eq_iff_iff, List.isEmpty_iff, List.isEmpty_iff]
    exact ⟨fun h => (h ▸ hkeys).nil_eq.symm, fun h => (h ▸ hkeys).eq_nil⟩
  have henv : envPlacementOverrides doc names = envPlacementOverrides doc names' := by
    simp only [envPlacementOverrides, hempty, copyKeys_perm hkeys]
  rw [grouped, grouped, henv]

theorem outcome_perm (hapart : vars.Pairwise fun a b => Apart (envPath a.1) (envPath b.1))
    (hperm : vars.Perm vars') : outcome T base vars = outcome T base vars' := by
  have hentries : (entries T base vars).Perm (entries T base vars') :=
    (hperm.filter _).map _
  rw [outcome, outcome, hperm.any_eq, hperm.any_eq, writes_perm (entries_apart hapart) hentries,
    grouped_perm (hperm.map Prod.fst)]

end Order

end Walgit.HostConfig
