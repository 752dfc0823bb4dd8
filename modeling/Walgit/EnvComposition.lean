import Walgit.EnvRuns

/-!
# How environment overrides compose

The group rule of `[placement]` goes by the names that were seen: a variable of the group that is
refused leaves the value of the base in its field, and one spelled with other letters behind
`WALGIT__` is lost. Everything else composes, if the base restates what nobody sets.
-/
namespace Walgit.HostConfig

open Document SortedMap Text Serde

section Composition

variable {ρ : Type} (T : Toml ρ) (base : Config) (vars : List (String × String))

/-- A variable that is not reported as ignored. -/
def Taken (ignored : List (String × String)) (var : String × String) : Prop :=
  wellFormed var ∧ var.1 ∉ ignored.map Prod.fst

/-- The configuration is the base with exactly the values of the variables taken at their paths;
with a variable of the group, `[placement]` has nothing of the base. -/
structure Composed (c : Config) (ignored : List (String × String)) : Prop where
  values : ∀ var ∈ vars, Taken ignored var →
    c.find (envPath var.1) = (config.find (envPath var.1)).bind (T.decode · (valueOf T var.2))
  elsewhere : ∀ q, (∀ var ∈ vars, Taken ignored var → Apart (envPath var.1) q) →
    (Grouped vars → Apart ["placement"] q) → c.find q = base.find q
  placement : Grouped vars → ∀ e ∈ placementDefaults,
    (∀ var ∈ vars, Taken ignored var → envPath var.1 ≠ ["placement", e.1]) →
      c.find ["placement", e.1] = some e.2

/-- The overrides have one result in every order of the variables, and it is composed. -/
def Composes : Prop :=
  ∃ c ignored, applyEnvReport T base vars = .ok (c, ignored) ∧ Composed T base vars c ignored ∧
    ∀ vars', vars.Perm vars' → ∃ ignored', applyEnvReport T base vars' = .ok (c, ignored') ∧
      (ignored.map Prod.fst).Perm (ignored'.map Prod.fst)

/-- What the base and the variables must be like. -/
structure Plain : Prop where
  /-- What the base has elsewhere is read back as it is, if anything is set. -/
  restated : (∃ var ∈ vars, admitted T base var) ∨ Grouped vars →
    ∀ q, (∀ var ∈ vars, admitted T base var → Apart (envPath var.1) q) →
      (Grouped vars → Apart ["placement"] q) → (again T base).find q = base.find q
  /-- A variable of the group that the base refuses names a field that has its default there. -/
  refused : ∀ var ∈ vars, OfGroup var.1 → ¬ admitted T base var →
    ∀ e ∈ placementDefaults, envPath var.1 = ["placement", e.1] →
      base.find ["placement", e.1] = some e.2
  /-- Next to a variable of the group, one with another spelling sets a field to its default. -/
  spelled : Grouped vars → ∀ var ∈ vars, ¬ OfGroup var.1 → admitted T base var →
    ∀ e ∈ placementDefaults, envPath var.1 = ["placement", e.1] →
      (config.find (envPath var.1)).bind (T.decode · (valueOf T var.2)) = some e.2

end Composition

variable {ρ : Type} {T : Toml ρ} {base c : Config} {vars vars' : List (String × String)}
  {var : String × String} {ignored : List (String × String)}

section Fields

theorem taken_iff (hapart : vars.Pairwise fun a b => Apart (envPath a.1) (envPath b.1))
    (hignored : ignored.map Prod.fst = (vars.filter (refused T base)).map Prod.fst)
    (hvar : var ∈ vars) : Taken ignored var ↔ admitted T base var := by
  rw [Taken, hignored]
  constructor
  · rintro ⟨hformed, hnot⟩
    have hrefused : refused T base var = false := by
      rw [← Bool.not_eq_true]
      intro hrefused
      exact hnot (List.mem_map_of_mem (List.mem_filter.mpr ⟨hvar, hrefused⟩))
    simpa [refused, admitted, hformed] using hrefused
  · intro hadmitted
    refine ⟨(Bool.and_eq_true_iff.mp hadmitted).1, ?_⟩
    intro hmem
    obtain ⟨var', hvar', hname⟩ := List.mem_map.mp hmem
    obtain ⟨hvar', hrefused⟩ := List.mem_filter.mp hvar'
    have hsame := eq_of_same_path hapart hvar hvar' (by rw [hname])
    rw [← hsame] at hrefused
    simp only [refused, admitted, Bool.and_eq_true] at hrefused hadmitted
    simp [Option.isNone_iff_eq_none.mp hrefused.2] at hadmitted

variable (h : kinds.fits config base)
  (hnames : ∀ var ∈ vars, (Auth.stripPrefix "WALGIT__" var.1).isSome)
  (hapart : vars.Pairwise fun a b => Apart (envPath a.1) (envPath b.1))

include h hnames hapart

omit hapart in
/-- What is accepted has a place in the configuration. -/
theorem find_of_admitted (hvar : var ∈ vars) (hadmitted : admitted T base var) :
    (config.find (envPath var.1)).isSome := by
  obtain ⟨t, ht⟩ := Option.isSome_iff_exists.mp (Bool.and_eq_true_iff.mp hadmitted).2
  have halike := alike_document (T := T) h (envPath_ne_nil (hnames var hvar))
  have hleads := (leads_of_tries config_tidy rfl (accepts_document h) halike ht).1
  obtain ⟨-, s', hs', -⟩ := (tries_leads config_tidy rfl (accepts_document h) hleads).mp ht
  exact Option.isSome_iff_exists.mpr ⟨s', hs'⟩

/-- Next to a variable of the group, what is accepted leads to a field of the group or elsewhere. -/
theorem path_of_admitted (hgrouped : Grouped vars) (hvar : var ∈ vars)
    (hadmitted : admitted T base var) :
    Apart ["placement"] (envPath var.1) ∨
      ∃ e ∈ placementDefaults, envPath var.1 = ["placement", e.1] := by
  have hfind := find_of_admitted (T := T) h hnames hvar hadmitted
  cases hpath : envPath var.1 with
  | nil => exact absurd hpath (envPath_ne_nil (hnames var hvar))
  | cons k rest =>
    by_cases hk : "placement" = k
    · subst hk
      refine .inr ?_
      rw [hpath] at hfind
      cases rest with
      | nil =>
        exact absurd hpath (path_ne_group hapart hgrouped hvar)
      | cons j rest =>
        have hsub : (placementConfig.sub j).isSome := by
          cases hj : placementConfig.sub j with
          | none =>
            simp [Shape.find, config_placement, hj] at hfind
          | some s' => rfl
        obtain ⟨e, he, rfl⟩ := List.mem_map.mp (placement_names hsub)
        refine ⟨e, he, ?_⟩
        cases rest with
        | nil => rfl
        | cons i rest =>
          obtain ⟨l, -, hl⟩ := placement_field he
          have hnone : (Shape.field FieldType.texts (some (FieldValue.texts l))).sub i = none := rfl
          simp [Shape.find, config_placement, hl, hnone] at hfind
    · exact .inl (apart_single.mpr hk)

omit h hnames hapart in
theorem outcome_eq (hset : (∃ var ∈ vars, admitted T base var) ∨ Grouped vars)
    (hc : T.decode config (.table (grouped T (writes (document T base) (entries T base vars))
      (vars.map Prod.fst))) = some c) : outcome T base vars = c := by
  have hany : (vars.any (admitted T base) || vars.any (OfGroup ·.1)) = true := by
    rw [Bool.or_eq_true, List.any_eq_true, any_group]
    exact hset
  rw [outcome, if_pos hany, hc, Option.getD_some]

omit hnames in
/-- What the outcome has outside of the group, if anything is set. -/
theorem outcome_find (hset : (∃ var ∈ vars, admitted T base var) ∨ Grouped vars) {cW : Config}
    (hcW : T.decode config (.table (writes (document T base) (entries T base vars))) = some cW)
    {q : List String} (hq : Grouped vars → Apart ["placement"] q) :
    (outcome T base vars).find q = cW.find q := by
  by_cases hgrouped : Grouped vars
  · obtain ⟨c, hc, haway, -⟩ := decode_grouped h hapart hgrouped hcW
    rw [outcome_eq hset hc, haway q (hq hgrouped)]
  · rw [outcome_eq (c := cW) hset]
    rw [grouped, overrides_none hgrouped]
    exact hcW

theorem outcome_elsewhere (hset : (∃ var ∈ vars, admitted T base var) ∨ Grouped vars)
    {q : List String} (hq : ∀ var ∈ vars, admitted T base var → Apart (envPath var.1) q)
    (hgroup : Grouped vars → Apart ["placement"] q) :
    (outcome T base vars).find q = (again T base).find q := by
  obtain ⟨cW, hcW, -, hothers⟩ := decode_entries (T := T) h hnames hapart
  rw [outcome_find h hapart hset hcW hgroup, hothers q hq]

/-- A field of the group has its default, unless a variable of the group names it. -/
theorem outcome_default (hgrouped : Grouped vars) {e : String × Config}
    (he : e ∈ placementDefaults)
    (hnone : ∀ var ∈ vars, OfGroup var.1 → envPath var.1 ≠ ["placement", e.1]) :
    (outcome T base vars).find ["placement", e.1] = some e.2 := by
  obtain ⟨cW, hcW, -, -⟩ := decode_entries (T := T) h hnames hapart
  obtain ⟨c, hc, -, hfields⟩ := decode_grouped h hapart hgrouped hcW
  rw [outcome_eq (.inr hgrouped) hc, hfields e he, if_neg]
  rw [mem_placementKeys he]
  rintro ⟨var, hvar, hgroup, hpath⟩
  exact hnone var hvar hgroup hpath

/-- What a variable of the group sets, if it is accepted. -/
theorem outcome_set (hvar : var ∈ vars) (hgroup : OfGroup var.1) (hadmitted : admitted T base var)
    {e : String × Config} (he : e ∈ placementDefaults)
    (hpath : envPath var.1 = ["placement", e.1]) :
    (outcome T base vars).find ["placement", e.1] =
      (config.find (envPath var.1)).bind (T.decode · (valueOf T var.2)) := by
  have hgrouped : Grouped vars := ⟨var, hvar, hgroup⟩
  obtain ⟨cW, hcW, hvalues, -⟩ := decode_entries (T := T) h hnames hapart
  obtain ⟨c, hc, -, hfields⟩ := decode_grouped h hapart hgrouped hcW
  have hkey := (mem_placementKeys he).mpr ⟨var, hvar, hgroup, hpath⟩
  rw [outcome_eq (.inr hgrouped) hc, hfields e he, if_pos hkey, ← hvalues var hvar hadmitted, hpath]

/-- A variable of the group that is refused leaves what the base has. -/
theorem outcome_refused (hvar : var ∈ vars) (hgroup : OfGroup var.1)
    (hrefused : ¬ admitted T base var) {e : String × Config} (he : e ∈ placementDefaults)
    (hpath : envPath var.1 = ["placement", e.1]) :
    (outcome T base vars).find ["placement", e.1] = base.find ["placement", e.1] := by
  have hgrouped : Grouped vars := ⟨var, hvar, hgroup⟩
  obtain ⟨cW, hcW, -, hothers⟩ := decode_entries (T := T) h hnames hapart
  obtain ⟨c, hc, -, hfields⟩ := decode_grouped h hapart hgrouped hcW
  have hkey := (mem_placementKeys he).mpr ⟨var, hvar, hgroup, hpath⟩
  have hother : ∀ var' ∈ vars, admitted T base var' → Apart (envPath var'.1) ["placement", e.1] := by
    intro var' hvar' hadmitted
    by_contra hnot
    rw [← hpath] at hnot
    have hsame := eq_of_path hapart hvar' hvar hnot
    rw [hsame] at hadmitted
    exact hrefused hadmitted
  obtain ⟨l, -, hl⟩ := placement_field he
  have hfield : config.find ["placement", e.1] = some (.field .texts (some (.texts l))) := by
    simp [Shape.find, config_placement, hl]
  obtain ⟨cs, rfl⟩ := fits_record h
  have hagain := find_decode_encode config_tidy rfl h (decode_document (T := T) h) hfield rfl
  rw [outcome_eq (.inr hgrouped) hc, hfields e he, if_pos hkey, hothers _ hother, hagain]

end Fields

theorem outcome_unset (hset : ¬ ((∃ var ∈ vars, admitted T base var) ∨ Grouped vars)) :
    outcome T base vars = base := by
  rw [outcome, if_neg]
  rw [Bool.or_eq_true, List.any_eq_true, any_group]
  exact hset

section Result

variable (h : kinds.fits config base)
  (hnames : ∀ var ∈ vars, (Auth.stripPrefix "WALGIT__" var.1).isSome)
  (hapart : vars.Pairwise fun a b => Apart (envPath a.1) (envPath b.1))

include h hnames hapart

theorem plain_of_composed
    (hignored : ignored.map Prod.fst = (vars.filter (refused T base)).map Prod.fst)
    (hcomposed : Composed T base vars (outcome T base vars) ignored) : Plain T base vars where
  restated := by
    intro hset q hq hgroup
    rw [← outcome_elsewhere h hnames hapart hset hq hgroup]
    refine hcomposed.elsewhere q ?_ hgroup
    intro var hvar htaken
    exact hq var hvar ((taken_iff hapart hignored hvar).mp htaken)
  refused := by
    intro var hvar hgroup hrefused e he hpath
    rw [← outcome_refused h hnames hapart hvar hgroup hrefused he hpath]
    refine hcomposed.placement ⟨var, hvar, hgroup⟩ e he ?_
    intro var' hvar' htaken hpath'
    have hsame := eq_of_same_path hapart hvar' hvar (hpath'.trans hpath.symm)
    rw [hsame] at htaken
    exact hrefused ((taken_iff hapart hignored hvar).mp htaken)
  spelled := by
    intro hgrouped var hvar hnot hadmitted e he hpath
    have hvalue := hcomposed.values var hvar ((taken_iff hapart hignored hvar).mpr hadmitted)
    rw [← hvalue, hpath]
    refine outcome_default h hnames hapart hgrouped he ?_
    intro var' hvar' hgroup hpath'
    have hsame := eq_of_same_path hapart hvar' hvar (hpath'.trans hpath.symm)
    rw [hsame] at hgroup
    exact hnot hgroup

theorem composed_of_plain
    (hignored : ignored.map Prod.fst = (vars.filter (refused T base)).map Prod.fst)
    (hplain : Plain T base vars) : Composed T base vars (outcome T base vars) ignored where
  values := by
    intro var hvar htaken
    have hadmitted := (taken_iff hapart hignored hvar).mp htaken
    have hset : (∃ var ∈ vars, admitted T base var) ∨ Grouped vars := .inl ⟨var, hvar, hadmitted⟩
    obtain ⟨cW, hcW, hvalues, -⟩ := decode_entries (T := T) h hnames hapart
    by_cases hgrouped : Grouped vars
    · rcases path_of_admitted h hnames hapart hgrouped hvar hadmitted with haway | ⟨e, he, hpath⟩
      · rw [outcome_find h hapart hset hcW fun _ => haway]
        exact hvalues var hvar hadmitted
      · by_cases hgroup : OfGroup var.1
        · rw [← outcome_set h hnames hapart hvar hgroup hadmitted he hpath, hpath]
        · rw [hplain.spelled hgrouped var hvar hgroup hadmitted e he hpath, hpath]
          refine outcome_default h hnames hapart hgrouped he ?_
          intro var' hvar' hgroup' hpath'
          have hsame := eq_of_same_path hapart hvar' hvar (hpath'.trans hpath.symm)
          rw [hsame] at hgroup'
          exact hgroup hgroup'
    · rw [outcome_find h hapart hset hcW fun hg => absurd hg hgrouped]
      exact hvalues var hvar hadmitted
  elsewhere := by
    intro q hq hgroup
    have hq' : ∀ var ∈ vars, admitted T base var → Apart (envPath var.1) q := fun var hvar ha =>
      hq var hvar ((taken_iff hapart hignored hvar).mpr ha)
    by_cases hset : (∃ var ∈ vars, admitted T base var) ∨ Grouped vars
    · rw [outcome_elsewhere h hnames hapart hset hq' hgroup]
      exact hplain.restated hset q hq' hgroup
    · rw [outcome_unset hset]
  placement := by
    intro hgrouped e he hnone
    by_cases hnamed : ∃ var ∈ vars, OfGroup var.1 ∧ envPath var.1 = ["placement", e.1]
    · obtain ⟨var, hvar, hgroup, hpath⟩ := hnamed
      have hrefused : ¬ admitted T base var := fun ha =>
        hnone var hvar ((taken_iff hapart hignored hvar).mpr ha) hpath
      rw [outcome_refused h hnames hapart hvar hgroup hrefused he hpath]
      exact hplain.refused var hvar hgroup hrefused e he hpath
    · refine outcome_default h hnames hapart hgrouped he ?_
      intro var hvar hgroup hpath
      exact hnamed ⟨var, hvar, hgroup, hpath⟩

/-- In another order the result is the same, and the same variables are reported. -/
theorem report_perm (hperm : vars.Perm vars')
    (hignored : ignored.map Prod.fst = (vars.filter (refused T base)).map Prod.fst) :
    ∃ ignored', applyEnvReport T base vars' = .ok (outcome T base vars, ignored') ∧
      (ignored.map Prod.fst).Perm (ignored'.map Prod.fst) := by
  obtain ⟨ignored', hreport, hignored'⟩ := report_eq (T := T) h
    (fun var hvar => hnames var (hperm.mem_iff.mpr hvar)) (hapart.perm hperm Apart.symm)
  refine ⟨ignored', ?_, ?_⟩
  · rw [hreport, outcome_perm hapart hperm]
  · rw [hignored, hignored']
    exact (hperm.filter _).map _

end Result

/-- Environment overrides compose exactly when the base restates what nobody sets, no refused
variable of the group names a field that the base changes, and no field of the group is set under
another spelling. -/
theorem composes_iff (h : kinds.fits config base)
    (hnames : ∀ var ∈ vars, (Auth.stripPrefix "WALGIT__" var.1).isSome)
    (hapart : vars.Pairwise fun a b => Apart (envPath a.1) (envPath b.1)) :
    Composes T base vars ↔ Plain T base vars := by
  obtain ⟨ignored, hreport, hignored⟩ := report_eq (T := T) h hnames hapart
  constructor
  · rintro ⟨c, ignored', hreport', hcomposed, -⟩
    rw [hreport] at hreport'
    cases hreport'
    exact plain_of_composed h hnames hapart hignored hcomposed
  · intro hplain
    refine ⟨_, ignored, hreport, composed_of_plain h hnames hapart hignored hplain, ?_⟩
    intro vars' hperm
    exact report_perm h hnames hapart hperm hignored

/-- A host whose file keeps one repository from being served. -/
def excluding : Config :=
  update (fun _ => .texts ["acme/monorepo"]) ["placement", "serve_exclude"] defaults

theorem excluding_fits : kinds.fits config excluding := by decide +kernel

theorem excluding_batch :
    (kinds.fits config excluding ∧
      ∀ var ∈ [("WALGIT__WAL__MAX_BATCH", "7"), ("WALGIT__CACHE__DIR", "/var/walgit")],
        (Auth.stripPrefix "WALGIT__" var.1).isSome) ∧
    (Composes literalToml excluding
        [("WALGIT__WAL__MAX_BATCH", "7"), ("WALGIT__CACHE__DIR", "/var/walgit")] ↔
      Plain literalToml excluding
        [("WALGIT__WAL__MAX_BATCH", "7"), ("WALGIT__CACHE__DIR", "/var/walgit")]) := by
  have hnames : ∀ var ∈ [("WALGIT__WAL__MAX_BATCH", "7"), ("WALGIT__CACHE__DIR", "/var/walgit")],
      (Auth.stripPrefix "WALGIT__" var.1).isSome := by decide +kernel
  refine ⟨⟨excluding_fits, hnames⟩, composes_iff excluding_fits hnames ?_⟩
  simp only [List.pairwise_cons, List.mem_singleton, forall_eq, List.not_mem_nil, false_imp_iff,
    implies_true, List.Pairwise.nil, and_true, Apart]
  decide +kernel

/-- The file's exclusion survives a refused variable of the group. -/
theorem excluding_survives :
    ¬ Composes literalToml excluding [("WALGIT__PLACEMENT__SERVE_EXCLUDE", "5")] := by
  rintro ⟨c, ignored, hreport, hcomposed, -⟩
  have hnames : ∀ var ∈ [("WALGIT__PLACEMENT__SERVE_EXCLUDE", "5")],
      (Auth.stripPrefix "WALGIT__" var.1).isSome := by decide +kernel
  obtain ⟨ignored', hreport', hignored⟩ :=
    report_eq (T := literalToml) excluding_fits hnames (List.pairwise_singleton _ _)
  obtain ⟨hc, hsame⟩ := Prod.mk.inj (Except.ok.inj (hreport.symm.trans hreport'))
  rw [hc, hsame] at hcomposed
  have hplain := plain_of_composed excluding_fits hnames (List.pairwise_singleton _ _) hignored
    hcomposed
  have hpath : envPath "WALGIT__PLACEMENT__SERVE_EXCLUDE" = ["placement", "serve_exclude"] := by
    decide +kernel
  have hrefused : ¬ admitted literalToml excluding ("WALGIT__PLACEMENT__SERVE_EXCLUDE", "5") := by
    obtain ⟨pt, hpt⟩ := lookup_document (T := literalToml) excluding_fits
    intro hadmitted
    obtain ⟨t, ht⟩ := Option.isSome_iff_exists.mp (Bool.and_eq_true_iff.mp hadmitted).2
    rw [entry, hpath] at ht
    have hleads : Leads config (document literalToml excluding) ["placement", "serve_exclude"] :=
      ⟨placementConfig, pt, config_placement, rfl, hpt, trivial⟩
    obtain ⟨-, s, hs, haccepts⟩ :=
      (tries_leads config_tidy rfl (accepts_document excluding_fits) hleads).mp ht
    have hfield : config.find ["placement", "serve_exclude"] = some (texts []) := by rfl
    obtain rfl := Option.some.inj (hfield.symm.trans hs)
    exact absurd haccepts (by decide +kernel)
  have hdefault := hplain.refused _ (List.mem_singleton_self _) (by decide +kernel) hrefused
    ("serve_exclude", .value (.texts [])) (by simp [placementDefaults]) hpath
  have hfile : (excluding.find ["placement", "serve_exclude"]).bind Conf.value? =
      some (.texts ["acme/monorepo"]) := by decide +kernel
  rw [hdefault] at hfile
  simp [Conf.value?] at hfile

end Walgit.HostConfig
