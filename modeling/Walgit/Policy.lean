import Mathlib.Data.List.Forall2
import Walgit.Receive
import Walgit.Worklist

/-!
# The push policy

A repository may have protect rules. A rule applies to the refs and principals it matches, and
denies the operations it restricts to whoever is not in its bypass list.
-/
namespace Walgit

open Text

inductive Restrict where
  | create
  | update
  | delete
  | forcePush
  deriving DecidableEq, Repr

structure ProtectEffect where
  /-- Absent: all four operations. -/
  restricts : Option (List Restrict) := none
  bypass : List String := []
  deriving DecidableEq, Repr

/-- What a rule matches; the refs and principals it names. -/
structure Match where
  refs : List String := []
  principals : List String := []
  deriving DecidableEq, Repr

structure Rule where
  name : String
  match_ : Match := {}
  /-- The other effects are specified and not enforced. -/
  protect : Option ProtectEffect := none
  deriving DecidableEq, Repr

structure Group where
  name : String
  members : List String := []
  deriving DecidableEq, Repr

structure RepoPolicy where
  groups : List Group := []
  rules : List Rule := []
  deriving DecidableEq, Repr

namespace Policy

/-- The text after a prefix. -/
def stripPrefix (p s : String) : Option String :=
  if startsWith p s then some (String.ofList (s.toList.drop p.length)) else none

def bytes (s : String) : List UInt8 := s.toList.flatMap String.utf8EncodeChar

def star : UInt8 := 42

def question : UInt8 := 63

def slash : UInt8 := 47

/-- The suffixes of a text that begin before its first slash or at it. -/
def segmentTails : List UInt8 → List (List UInt8)
  | [] => [[]]
  | b :: text => (b :: text) :: if b = slash then [] else segmentTails text

/-- `*` and `?` stop at a slash, `**` crosses it. -/
def globBytes : List UInt8 → List UInt8 → Bool
  | [], text => text.isEmpty
  | p :: pat, text =>
    if p = star then
      match pat with
      | [] => (segmentTails text).any (globBytes [])
      | [q] => if q = star then true else (segmentTails text).any (globBytes [q])
      | q :: s :: rest =>
        if q ≠ star then (segmentTails text).any (globBytes (q :: s :: rest))
        else if s = slash then rest.isEmpty || text.tails.any (globBytes rest)
        else text.tails.any (globBytes (s :: rest))
    else match text with
      | [] => false
      | b :: text => (if p = question then b ≠ slash else b = p) && globBytes pat text

def globMatch (pat text : String) : Bool :=
  if pat = "HEAD" then text == "HEAD" else globBytes (bytes pat) (bytes text)

/-- Inclusion by any pattern, less what a `^` pattern excludes; without inclusions all match. -/
def listMatches (includes excludes : String → Bool) (patterns : List String) : Bool :=
  let excluded := patterns.any fun p => (stripPrefix "^" p).any excludes
  let included := patterns.filter fun p => (stripPrefix "^" p).isNone
  (included.any includes || included.isEmpty) && !excluded

def patternListMatches (patterns : List String) (text : String) : Bool :=
  listMatches (globMatch · text) (globMatch · text) patterns

end Policy

open Policy

namespace RepoPolicy

/-- The roster of a name, the last one given. -/
def group (p : RepoPolicy) (name : String) : Option Group :=
  p.groups.reverse.find? fun g => g.name == name

end RepoPolicy

namespace Policy

/-- A search through a list of actor specs that stops at the first match. -/
def anyMatches (matched : String → List String → Bool × List String) :
    List String → List String → Bool × List String
  | [], seen => (false, seen)
  | m :: ms, seen =>
    match matched m seen with
    | (true, seen) => (true, seen)
    | (false, seen) => anyMatches matched ms seen

/-- `seen` holds the groups the search has entered; one of them is not entered again. -/
def principalMatches (p : RepoPolicy) (principal : List String) :
    ℕ → String → List String → Bool × List String
  | 0, _, seen => (false, seen)
  | fuel + 1, spec, seen =>
    match stripPrefix "group:" spec with
    | some name =>
      if name ∈ seen then (false, seen)
      else match p.group name with
        | none => (false, name :: seen)
        | some g => anyMatches (principalMatches p principal fuel) g.members (name :: seen)
    | none =>
      if startsWith "@" spec then (false, seen)
      else (principal.any fun q => toAsciiLowercase spec == toAsciiLowercase q, seen)

/-- Groups nest at most as deep as there are groups. -/
def admits (p : RepoPolicy) (principal : List String) (spec : String) : Bool :=
  (principalMatches p principal (p.groups.length + 1) spec []).1

/-- Like a pattern list; an exclusion of a group that does not exist excludes everyone. -/
def actorListMatches (p : RepoPolicy) (principal : List String) (patterns : List String) : Bool :=
  listMatches (admits p principal)
    (fun spec => (stripPrefix "group:" spec).any (fun name => (p.group name).isNone) ||
      admits p principal spec) patterns

end Policy

inductive RefOp where
  | noOp
  | create
  | delete
  | update
  deriving DecidableEq, Repr

def classify (old new : String) : RefOp :=
  if old = "" then if new = "" then .noOp else .create
  else if new = "" then .delete
  else if old = new then .noOp
  else .update

namespace ProtectEffect

def restrictSet (e : ProtectEffect) : List Restrict :=
  e.restricts.getD [.create, .update, .delete, .forcePush]

/-- The rule restricts the operation; a forced update is also an update. -/
def restricted (e : ProtectEffect) (op : RefOp) (force : Bool) : Bool :=
  let set := e.restrictSet
  match op with
  | .create => set.contains .create
  | .delete => set.contains .delete
  | .update => (force && set.contains .forcePush) || set.contains .update
  | .noOp => false

def bypasses (e : ProtectEffect) (p : RepoPolicy) (principal : List String) : Bool :=
  !e.bypass.isEmpty && actorListMatches p principal e.bypass

end ProtectEffect

def Match.covers (m : Match) (p : RepoPolicy) (principal : List String) (name : String) : Bool :=
  (m.refs.isEmpty || patternListMatches m.refs name) &&
    (m.principals.isEmpty || actorListMatches p principal m.principals)

namespace RepoPolicy

variable (p : RepoPolicy) (principal : List String)

def hasProtect : Bool := p.rules.any fun r => r.protect.isSome

/-- The rule stands against the operation on the ref. -/
def denies (name : String) (op : RefOp) (force : Bool) (r : Rule) : Bool :=
  r.protect.any fun e => r.match_.covers p principal name && !e.bypasses p principal &&
    e.restricted op force

def rejectedBy (r : Rule) : String := "rejected by rule '" ++ r.name ++ "'"

def denyReason (isForce : RefUpdate → Bool) (u : RefUpdate) : Option String :=
  let op := classify u.oldOid u.newOid
  if op = .noOp then none
  else
    let force := isForce u || startsWith "refs/tags/" u.name
    (p.rules.find? (p.denies principal u.name op force)).map rejectedBy

/-- What is published and the verdict on each update. -/
def evaluate (isForce : RefUpdate → Bool) (t : RefTransaction) :
    RefTransaction × List (String × Option String) :=
  let perRef := t.updates.map fun u => (u.name, p.denyReason principal isForce u)
  let allowed := t.updates.filter fun u => (p.denyReason principal isForce u).isNone
  if t.atomic && perRef.any (fun r => r.2.isSome) then ({ t with updates := [] }, perRef)
  else ({ t with updates := allowed }, perRef)

/-- The names of the updates that do not move their ref forward. -/
def forces (ancestor : String → String → Bool) (t : RefTransaction) : List String :=
  if p.hasProtect then
    (t.updates.filter fun u =>
      classify u.oldOid u.newOid = .update && !ancestor u.oldOid u.newOid).map RefUpdate.name
  else []

end RepoPolicy

section Verdicts

variable {p : RepoPolicy} {principal : List String} {isForce isForce' : RefUpdate → Bool}
  {u : RefUpdate}

/-- What a forced update is allowed, an unforced one is. -/
theorem ProtectEffect.restricted_mono {e : ProtectEffect} {op : RefOp} {force force' : Bool}
    (himp : force → force') (h : e.restricted op force) : e.restricted op force' := by
  unfold restricted at h ⊢
  cases op <;> simp_all only [Bool.or_eq_true, Bool.and_eq_true]
  rcases h with ⟨hforce, hset⟩ | hset
  · exact Or.inl ⟨himp hforce, hset⟩
  · exact Or.inr hset

theorem RepoPolicy.denyReason_eq_none : p.denyReason principal isForce u = none ↔
    classify u.oldOid u.newOid = .noOp ∨ ∀ r ∈ p.rules, p.denies principal u.name
      (classify u.oldOid u.newOid) (isForce u || startsWith "refs/tags/" u.name) r = false := by
  simp only [denyReason]
  split_ifs with hop
  · simp [hop]
  · simp [hop]

theorem RepoPolicy.denyReason_mono (himp : isForce u → isForce' u)
    (h : p.denyReason principal isForce' u = none) : p.denyReason principal isForce u = none := by
  rw [denyReason_eq_none] at h ⊢
  refine h.imp_right fun hall r hr => ?_
  have hno := hall r hr
  unfold denies at hno ⊢
  cases hprotect : r.protect with
  | none => rfl
  | some e =>
    simp only [hprotect, Option.any_some] at hno ⊢
    by_contra hdenied
    simp only [Bool.not_eq_false, Bool.and_eq_true] at hdenied
    have hforce : (isForce u || startsWith "refs/tags/" u.name) = true →
        (isForce' u || startsWith "refs/tags/" u.name) = true := by
      simp only [Bool.or_eq_true]
      exact Or.imp_left himp
    have hrestricted := ProtectEffect.restricted_mono hforce hdenied.2
    rw [hdenied.1.1, hdenied.1.2, hrestricted] at hno
    exact absurd hno (by decide)

/-- Some rule stands against the update. -/
def RepoPolicy.Denied (p : RepoPolicy) (principal : List String) (isForce : RefUpdate → Bool)
    (u : RefUpdate) : Prop :=
  classify u.oldOid u.newOid ≠ .noOp ∧ ∃ r ∈ p.rules, p.denies principal u.name
    (classify u.oldOid u.newOid) (isForce u || startsWith "refs/tags/" u.name) r = true

instance : Decidable (p.Denied principal isForce u) :=
  inferInstanceAs (Decidable (_ ∧ ∃ r ∈ p.rules, p.denies principal u.name _ _ r = true))

theorem RepoPolicy.denyReason_isNone : (p.denyReason principal isForce u).isNone = true ↔
    ¬ p.Denied principal isForce u := by
  rw [Option.isNone_iff_eq_none, denyReason_eq_none, Denied]
  simp only [not_and, not_exists, Bool.not_eq_true, ne_eq, or_iff_not_imp_left]

/-- The policy with a further rule at some place. -/
def RepoPolicy.addRule (p : RepoPolicy) (i : ℕ) (r : Rule) : RepoPolicy :=
  { p with rules := p.rules.take i ++ r :: p.rules.drop i }

theorem RepoPolicy.mem_addRule {i : ℕ} {r r' : Rule} (h : r' ∈ p.rules) :
    r' ∈ (p.addRule i r).rules := by
  rw [← List.take_append_drop i p.rules, List.mem_append] at h
  simp only [addRule, List.mem_append, List.mem_cons]
  tauto

theorem principalMatches_congr {p' : RepoPolicy} (h : p'.groups = p.groups) (fuel : ℕ) :
    principalMatches p' principal fuel = principalMatches p principal fuel := by
  have hgroup : p'.group = p.group := by
    funext name
    rw [RepoPolicy.group, RepoPolicy.group, h]
  induction fuel with
  | zero => rfl
  | succ fuel ih =>
    funext spec seen
    simp only [principalMatches, hgroup, ih]

/-- What a rule denies depends on the rosters, not on the other rules. -/
theorem RepoPolicy.denies_congr {p' : RepoPolicy} (h : p'.groups = p.groups) :
    p'.denies principal = p.denies principal := by
  have hadmits : admits p' principal = admits p principal := by
    funext spec
    rw [admits, admits, h, principalMatches_congr h]
  have hactors : actorListMatches p' principal = actorListMatches p principal := by
    have hgroup : p'.group = p.group := by
      funext name
      rw [RepoPolicy.group, RepoPolicy.group, h]
    funext patterns
    rw [actorListMatches, actorListMatches, hadmits, hgroup]
  funext name op force r
  simp only [denies, Match.covers, ProtectEffect.bypasses, hactors]

/-- What the policy lets through, told by its verdicts. -/
theorem RepoPolicy.evaluate_publish (t : RefTransaction) : (p.evaluate principal isForce t).1 =
    Receive.evaluate (fun u => (p.denyReason principal isForce u).isNone) t := by
  have hdenied : (t.updates.map fun u => (u.name, p.denyReason principal isForce u)).any
      (fun r => r.2.isSome) =
      !t.updates.all fun u => (p.denyReason principal isForce u).isNone := by
    rw [List.any_map, List.not_all_eq_any_not]
    simp [Function.comp_def]
  unfold evaluate Receive.evaluate
  simp only [hdenied]
  split_ifs <;> rfl

theorem RepoPolicy.Denied.addRule (h : p.Denied principal isForce u) (i : ℕ) (r : Rule) :
    (p.addRule i r).Denied principal isForce u := by
  obtain ⟨hop, r', hr', hdenies⟩ := h
  refine ⟨hop, r', mem_addRule hr', ?_⟩
  have hsame : (p.addRule i r).denies principal = p.denies principal := denies_congr rfl
  rwa [hsame]

/-- What is published are the updates that no rule stands against, in order, or none of them; the
verdicts are in the order of the request; and no rule takes a denial back. -/
theorem RepoPolicy.evaluate_selective (p : RepoPolicy) (principal : List String)
    (isForce : RefUpdate → Bool) (t : RefTransaction) :
    (p.evaluate principal isForce t).1 = { t with
      updates := if t.atomic ∧ ∃ u ∈ t.updates, p.Denied principal isForce u then []
        else t.updates.filter fun u => ¬ p.Denied principal isForce u } ∧
    List.Forall₂ (fun u r => r.1 = u.name ∧ (r.2.isSome ↔ p.Denied principal isForce u)) t.updates
      (p.evaluate principal isForce t).2 ∧
    ∀ i r, (∀ u, p.Denied principal isForce u → (p.addRule i r).Denied principal isForce u) ∧
      ((p.addRule i r).evaluate principal isForce t).1.updates.Sublist
        (p.evaluate principal isForce t).1.updates := by
  have hpublish : ∀ q : RepoPolicy, (q.evaluate principal isForce t).1 = { t with
      updates := if t.atomic ∧ ∃ u ∈ t.updates, q.Denied principal isForce u then []
        else t.updates.filter fun u => ¬ q.Denied principal isForce u } := by
    intro q
    have hall : t.updates.all (fun u => (q.denyReason principal isForce u).isNone) = false ↔
        ∃ u ∈ t.updates, q.Denied principal isForce u := by
      simp only [List.all_eq_false, denyReason_isNone, not_not]
    have hfilter : t.updates.filter (fun u => (q.denyReason principal isForce u).isNone) =
        t.updates.filter fun u => ¬ q.Denied principal isForce u :=
      List.filter_congr fun u _ => by rw [Bool.eq_iff_iff, denyReason_isNone, decide_eq_true_eq]
    rw [evaluate_publish, Receive.evaluate, hfilter]
    simp only [Bool.and_eq_true, Bool.not_eq_true', hall]
    split_ifs <;> rfl
  refine ⟨hpublish p, ?_, fun i r => ⟨fun u hu => hu.addRule i r, ?_⟩⟩
  · have hverdicts : (p.evaluate principal isForce t).2 =
        t.updates.map fun u => (u.name, p.denyReason principal isForce u) := by
      unfold evaluate
      dsimp only
      split_ifs <;> rfl
    rw [hverdicts, List.forall₂_map_right_iff]
    refine List.forall₂_same.mpr fun u _ => ⟨rfl, ?_⟩
    rw [← Option.not_isNone, Bool.not_eq_true', ← Bool.not_eq_true, denyReason_isNone, not_not]
  · rw [hpublish, hpublish]
    dsimp only
    split_ifs with hnew hold hold
    · exact .refl _
    · exact List.nil_sublist _
    · obtain ⟨hatomic, u, hu, hdenied⟩ := hold
      exact absurd ⟨hatomic, u, hu, hdenied.addRule i r⟩ hnew
    · refine List.monotone_filter_right _ fun u hu => ?_
      simp only [decide_eq_true_eq] at hu ⊢
      exact fun hdenied => hu (hdenied.addRule i r)

end Verdicts

namespace Policy

section Fuel

variable {p : RepoPolicy} {principal : List String}

theorem anyMatches_congr {f f' : String → List String → Bool × List String}
    {P : List String → Prop} (h : ∀ m seen, P seen → f m seen = f' m seen ∧ P (f m seen).2)
    (ms : List String) {seen : List String} (hseen : P seen) :
    anyMatches f ms seen = anyMatches f' ms seen ∧ P (anyMatches f ms seen).2 := by
  induction ms generalizing seen with
  | nil => exact ⟨rfl, hseen⟩
  | cons m ms ih =>
    obtain ⟨heq, hnext⟩ := h m seen hseen
    simp only [anyMatches, ← heq]
    cases hm : f m seen with
    | mk found seen' =>
      rw [hm] at hnext
      cases found
      · exact ih hnext
      · exact ⟨rfl, hnext⟩

/-- Fuel for every group not entered yet is enough. -/
theorem principalMatches_fuel {n m : ℕ} {spec : String} {seen : List String}
    (hn : Worklist.fresh Group.name p.groups seen < n)
    (hm : Worklist.fresh Group.name p.groups seen < m) :
    principalMatches p principal n spec seen = principalMatches p principal m spec seen ∧
      seen ⊆ (principalMatches p principal n spec seen).2 := by
  induction n generalizing m spec seen with
  | zero => simp at hn
  | succ n ih =>
    cases m with
    | zero => simp at hm
    | succ m =>
      simp only [principalMatches]
      split
      · rename_i name _
        split_ifs with hseen
        · exact ⟨rfl, List.Subset.refl seen⟩
        · split
          · exact ⟨rfl, List.subset_cons_self name seen⟩
          · rename_i g hg
            have hmem : g ∈ p.groups := List.mem_reverse.mp (List.mem_of_find?_eq_some hg)
            obtain rfl : g.name = name := by simpa using List.find?_some hg
            have hlt := Worklist.fresh_cons_lt hmem hseen
            have hinner : ∀ spec entered, g.name :: seen ⊆ entered →
                principalMatches p principal n spec entered =
                    principalMatches p principal m spec entered ∧
                  g.name :: seen ⊆ (principalMatches p principal n spec entered).2 := by
              intro spec entered hentered
              have hle : Worklist.fresh Group.name p.groups entered ≤
                  Worklist.fresh Group.name p.groups (g.name :: seen) :=
                Worklist.fresh_anti hentered
              have hstep : principalMatches p principal n spec entered =
                    principalMatches p principal m spec entered ∧
                  entered ⊆ (principalMatches p principal n spec entered).2 :=
                ih (by omega) (by omega)
              exact ⟨hstep.1, List.Subset.trans hentered hstep.2⟩
            have hsearch := anyMatches_congr hinner g.members (List.Subset.refl (g.name :: seen))
            exact ⟨hsearch.1, List.Subset.trans (List.subset_cons_self g.name seen) hsearch.2⟩
      · split_ifs
        · exact ⟨rfl, List.Subset.refl seen⟩
        · exact ⟨rfl, List.Subset.refl seen⟩

/-- More fuel finds no more. -/
theorem admits_fuel {n : ℕ} (hn : p.groups.length < n) (spec : String) :
    (principalMatches p principal n spec []).1 = admits p principal spec := by
  have hle : Worklist.fresh Group.name p.groups [] ≤ p.groups.length :=
    List.length_filter_le _ _
  exact congrArg Prod.fst (principalMatches_fuel (by omega) (by omega)).1

end Fuel

end Policy

end Walgit
