import Walgit.Registry

/-!
# Creation of a repository

A call that enters the gate without a handle creates the repository by its own conditional PUT or
learns that it exists. The handle cache answers before that.
-/
namespace Walgit

namespace Registries

/-- What one step does to a call, with the lives there are after it. -/
inductive Advances (s : Registries) (e : RegistryEvent) (k : ℕ) (c : OpenCall) :
    OpenCall → List Life → Prop
  | cached (h : ℕ) (he : e = .lookup k ∨ e = .enter k) (hrepos : s.repos c.host = some h) :
      Advances s e k c { c with phase := .done (.ok h) } s.lives
  | waits (hphase : c.phase = .looking) : Advances s e k c { c with phase := .waiting } s.lives
  | enters (hphase : c.phase = .waiting) : Advances s e k c { c with phase := .entered } s.lives
  | reads (x : StoredObject) (hkind : c.kind = .openRepo) (hstored : s.stored = some x) :
      Advances s e k c { c with phase := .held x.life } s.lives
  | missing (hkind : c.kind = .openRepo) :
      Advances s e k c { c with phase := .done .notFound } s.lives
  | refused (hphase : c.phase = .entered) :
      Advances s e k c { c with phase := .done .alreadyExists } s.lives
  | creates (access : Option RepoAccess) (now : Timestamp) (writer : String) (phase : OpenPhase)
      (hkind : c.kind = .createWithAccess access) (hphase : c.phase = .entered)
      (hnext : phase = .held s.lives.length ∨ phase = .done .failed) :
      Advances s e k c { c with created := some s.lives.length, phase := phase }
        (s.lives ++ [⟨k, createdManifest access now writer⟩])
  | localises (life : ℕ) (hphase : c.phase = .held life) :
      Advances s e k c { c with phase := .localised life } s.lives
  | inserts (life h : ℕ) (hphase : c.phase = .localised life) :
      Advances s e k c { c with phase := .done (.ok h) } s.lives
  | fails : Advances s e k c { c with phase := .done .failed } s.lives

section Steps

variable {s s' : Registries} {e : RegistryEvent}

theorem stepCall_advances {k : ℕ} {c : OpenCall} (h : s.stepCall k c e = some s')
    (he : ∀ j, e = .lookup j ∨ e = .enter j → j = k) :
    ∃ c', s'.calls = s.calls.set k c' ∧ Advances s e k c c' s'.lives := by
  cases e with
  | lookup j =>
    obtain rfl := he j (Or.inl rfl)
    simp only [stepCall] at h
    split at h
    · rename_i h' hphase hrepos
      cases h
      exact ⟨_, rfl, .cached h' (Or.inl rfl) hrepos⟩
    · rename_i hphase hrepos
      cases h
      exact ⟨_, rfl, .waits hphase⟩
    · cases h
  | enter j =>
    obtain rfl := he j (Or.inr rfl)
    simp only [stepCall] at h
    split_ifs at h
    split at h
    · rename_i h' hphase hrepos
      cases h
      exact ⟨_, rfl, .cached h' (Or.inr rfl) hrepos⟩
    · rename_i hphase hrepos
      cases h
      exact ⟨_, rfl, .enters hphase⟩
    · cases h
  | get j =>
    simp only [stepCall] at h
    split at h
    · rename_i x hkind hphase hstored
      cases h
      exact ⟨_, rfl, .reads x hkind hstored⟩
    · rename_i hkind hphase hstored
      cases h
      exact ⟨_, rfl, .missing hkind⟩
    · cases h
  | put j now writer answered =>
    simp only [stepCall] at h
    split at h
    · rename_i access x hkind hphase hstored
      cases h
      cases answered
      · exact ⟨_, rfl, .fails⟩
      · exact ⟨_, rfl, .refused hphase⟩
    · rename_i access hkind hphase hstored
      cases h
      cases answered
      · exact ⟨_, rfl, .creates access now writer _ hkind hphase (Or.inr rfl)⟩
      · exact ⟨_, rfl, .creates access now writer _ hkind hphase (Or.inl rfl)⟩
    · cases h
  | initLocal j =>
    simp only [stepCall] at h
    split at h
    · rename_i life hphase
      cases h
      exact ⟨_, rfl, .localises life hphase⟩
    · cases h
  | insert j =>
    simp only [stepCall] at h
    split at h
    · rename_i life hphase
      cases h
      exact ⟨_, rfl, .inserts life _ hphase⟩
    · cases h
  | fail j =>
    simp only [stepCall] at h
    split at h
    · cases h
    · cases h
      exact ⟨_, rfl, .fails⟩
  | _ => simp [stepCall] at h

theorem stepDeletion_calls {d : ℕ} {x : Deletion} (h : s.stepDeletion d x e = some s') :
    s'.calls = s.calls ∧ s'.lives = s.lives := by
  unfold stepDeletion at h
  split at h <;> first
    | (split at h <;> cases h <;> exact ⟨rfl, rfl⟩)
    | cases h

/-- Every step starts a call, leaves the calls alone, or advances one of them. -/
theorem step_calls (h : step s e = some s') :
    (∃ host kind, s'.calls = s.calls ++ [⟨host, kind, .looking, none⟩] ∧ s'.lives = s.lives) ∨
    (s'.calls = s.calls ∧ s'.lives = s.lives) ∨
    ∃ k c c', s.calls[k]? = some c ∧ s'.calls = s.calls.set k c' ∧
      Advances s e k c c' s'.lives := by
  have hcall : ∀ k, (∀ j, e = .lookup j ∨ e = .enter j → j = k) →
      ((s.calls[k]?).bind fun c => s.stepCall k c e) = some s' →
      ∃ k c c', s.calls[k]? = some c ∧ s'.calls = s.calls.set k c' ∧
        Advances s e k c c' s'.lives := by
    intro k he hbind
    obtain ⟨c, hc, hstep⟩ := Option.bind_eq_some_iff.mp hbind
    obtain ⟨c', hcalls, hadvances⟩ := stepCall_advances hstep he
    exact ⟨k, c, c', hc, hcalls, hadvances⟩
  have hdeletion : ∀ d, ((s.deletions[d]?).bind fun x => s.stepDeletion d x e) = some s' →
      s'.calls = s.calls ∧ s'.lives = s.lives := by
    intro d hbind
    obtain ⟨x, -, hstep⟩ := Option.bind_eq_some_iff.mp hbind
    exact stepDeletion_calls hstep
  cases e with
  | call host kind =>
    cases h
    exact Or.inl ⟨host, kind, rfl, rfl⟩
  | lookup k | enter k | get k | put k _ _ _ | initLocal k | insert k | fail k =>
    exact Or.inr (Or.inr (hcall k (by simp) h))
  | sync j =>
    obtain ⟨handle, -, hrest⟩ := Option.bind_eq_some_iff.mp h
    obtain ⟨x, -, hrest⟩ := Option.bind_eq_some_iff.mp hrest
    cases hrest
    exact Or.inr (Or.inl ⟨rfl, rfl⟩)
  | write j key =>
    obtain ⟨handle, -, hrest⟩ := Option.bind_eq_some_iff.mp h
    split_ifs at hrest
    cases hrest
    exact Or.inr (Or.inl ⟨rfl, rfl⟩)
  | commit j m =>
    obtain ⟨handle, -, hrest⟩ := Option.bind_eq_some_iff.mp h
    obtain ⟨x, -, hrest⟩ := Option.bind_eq_some_iff.mp hrest
    split_ifs at hrest
    cases hrest
    exact Or.inr (Or.inl ⟨rfl, rfl⟩)
  | evict host =>
    cases h
    exact Or.inr (Or.inl ⟨rfl, rfl⟩)
  | delete host =>
    simp only [step] at h
    split at h <;> cases h <;> exact Or.inr (Or.inl ⟨rfl, rfl⟩)
  | drop d | removeManifest d | listPage d _ | deleteListed d | removeDir d | failDelete d =>
    exact Or.inr (Or.inl (hdeletion d h))

end Steps

/-- A creation asks the handle cache while it is empty. -/
def uncached (s : Registries) : RegistryEvent → Bool
  | .lookup k | .enter k =>
    (s.calls[k]?).all fun c => c.kind = .openRepo || (s.repos c.host).isNone
  | _ => true

end Registries

/-- What a creation's own PUT did, as its phase tells it. -/
def OpenCall.Honest (c : OpenCall) : Prop :=
  match c.phase with
  | .looking | .waiting | .entered => c.created = none
  | .held life | .localised life => c.created = some life
  | .done (.ok _) => c.created.isSome
  | .done .alreadyExists => c.created = none
  | .done .notFound => False
  | .done .failed => True

namespace Registries

/-- The call created this life with the access record it was given. -/
def Began (lives : List Life) (k : ℕ) (access : Option RepoAccess) (life : ℕ) : Prop :=
  ∃ l, lives[life]? = some l ∧ l.call = k ∧ l.manifest.access = access

theorem Began.append {lives : List Life} {k life : ℕ} {access : Option RepoAccess}
    (h : Began lives k access life) (l : Life) : Began (lives ++ [l]) k access life := by
  obtain ⟨l', hl, hrest⟩ := h
  exact ⟨l', by rw [List.getElem?_append_left (List.getElem?_eq_some_iff.mp hl).1, hl], hrest⟩

/-- Creations are honest, and a life that a call created is one it began. -/
def Exclusive (s : Registries) : Prop :=
  ∀ k c, s.calls[k]? = some c → ((∃ access, c.kind = .createWithAccess access) → c.Honest) ∧
    ∀ life ∈ c.created, ∃ access, c.kind = .createWithAccess access ∧ Began s.lives k access life

section Steps

variable {s s' : Registries} {e : RegistryEvent}

theorem Advances.kind {k : ℕ} {c c' : OpenCall} {lives : List Life}
    (h : Advances s e k c c' lives) : c'.kind = c.kind := by
  cases h <;> rfl

/-- Lives are only ever added. -/
theorem Advances.lives {k : ℕ} {c c' : OpenCall} {lives : List Life}
    (h : Advances s e k c c' lives) : lives = s.lives ∨ ∃ l, lives = s.lives ++ [l] := by
  cases h with
  | creates access now writer phase hkind hphase hnext => exact Or.inr ⟨_, rfl⟩
  | _ => exact Or.inl rfl

theorem Advances.honest {k : ℕ} {c c' : OpenCall} {lives : List Life}
    (h : Advances s e k c c' lives) (hc : s.calls[k]? = some c) (hun : s.uncached e)
    (hkind : ∃ access, c.kind = .createWithAccess access) (hhonest : c.Honest) : c'.Honest := by
  obtain ⟨access, hkind⟩ := hkind
  cases h with
  | cached h he hrepos =>
    rcases he with rfl | rfl <;> simp [uncached, hc, hkind, hrepos] at hun
  | waits hphase =>
    simpa only [OpenCall.Honest, hphase] using hhonest
  | enters hphase =>
    simpa only [OpenCall.Honest, hphase] using hhonest
  | reads x hopen hstored =>
    rw [hopen] at hkind
    cases hkind
  | missing hopen =>
    rw [hopen] at hkind
    cases hkind
  | refused hphase =>
    simpa only [OpenCall.Honest, hphase] using hhonest
  | creates access' now writer phase hkind' hphase hnext =>
    rcases hnext with rfl | rfl
    · rfl
    · trivial
  | localises life hphase =>
    simpa only [OpenCall.Honest, hphase] using hhonest
  | inserts life h hphase =>
    simp only [OpenCall.Honest, hphase] at hhonest
    simp [OpenCall.Honest, hhonest]
  | fails => trivial

theorem Advances.began {k : ℕ} {c c' : OpenCall} {lives : List Life}
    (h : Advances s e k c c' lives) {life : ℕ} (hlife : c'.created = some life) :
    c.created = some life ∨
      ∃ access, c.kind = .createWithAccess access ∧ Began lives k access life := by
  cases h with
  | creates access now writer phase hkind hphase hnext =>
    cases hlife
    exact Or.inr ⟨access, hkind, ⟨k, createdManifest access now writer⟩, by simp, rfl, rfl⟩
  | _ => exact Or.inl hlife

theorem Exclusive.step (h : Exclusive s) (hun : s.uncached e) (hstep : step s e = some s') :
    Exclusive s' := by
  intro k c hc
  rcases step_calls hstep with ⟨host, kind, hcalls, hlives⟩ | ⟨hcalls, hlives⟩ |
    ⟨j, b, b', hb, hcalls, hadvances⟩
  · rw [hlives]
    rw [hcalls, List.getElem?_append] at hc
    split_ifs at hc
    · exact h k c hc
    · obtain rfl := List.mem_singleton.mp (List.mem_of_getElem? hc)
      exact ⟨fun _ => rfl, by simp⟩
  · rw [hlives]
    rw [hcalls] at hc
    exact h k c hc
  · have hgrown : ∀ {access life}, Began s.lives k access life → Began s'.lives k access life := by
      intro access life hbegan
      rcases hadvances.lives with hlives | ⟨l, hlives⟩
      · rwa [hlives]
      · exact hlives ▸ hbegan.append l
    have hkept : ∀ {b : OpenCall} {life}, (∀ life ∈ b.created, ∃ access,
        b.kind = .createWithAccess access ∧ Began s.lives k access life) → b.created = some life →
        ∃ access, b.kind = .createWithAccess access ∧ Began s'.lives k access life := by
      intro b life hbegan hlife
      obtain ⟨access, hkind, hlived⟩ := hbegan life hlife
      exact ⟨access, hkind, hgrown hlived⟩
    rw [hcalls] at hc
    rcases eq_or_ne j k with rfl | hne
    · obtain rfl : b' = c := by
        rw [List.getElem?_set_self (List.getElem?_eq_some_iff.mp hb).1] at hc
        exact Option.some.inj hc
      obtain ⟨hhonest, hbegan⟩ := h j b hb
      refine ⟨fun hcreate => ?_, fun life hlife => ?_⟩
      · rw [hadvances.kind] at hcreate
        exact hadvances.honest hb hun hcreate (hhonest hcreate)
      · rw [hadvances.kind]
        rcases hadvances.began hlife with hold | hnew
        · exact hkept hbegan hold
        · exact hnew
    · rw [List.getElem?_set_ne hne] at hc
      obtain ⟨hhonest, hbegan⟩ := h k c hc
      exact ⟨hhonest, fun life hlife => hkept hbegan hlife⟩

/-- A creation succeeds only through its own PUT, once in each life, with the access record it was
given; one that ends otherwise without a fault learns that the repository exists. -/
theorem creation_exclusive {events : List RegistryEvent}
    (hun : Runs.AllSteps step (fun s e => s.uncached e = true) init events)
    (hrun : Runs.run step init events = some s) :
    (∀ (k : ℕ) (c : OpenCall) access r, s.calls[k]? = some c →
      c.kind = .createWithAccess access → c.phase = .done r →
      (∃ h life, r = .ok h ∧ c.created = some life ∧ Began s.lives k access life) ∨
        r = .alreadyExists ∧ c.created = none ∨ r = .failed) ∧
    ∀ (j k : ℕ) (b c : OpenCall) life, s.calls[j]? = some b → s.calls[k]? = some c →
      b.created = some life → c.created = some life → j = k := by
  have hexclusive : Exclusive s := Runs.invariant (I := Exclusive)
    (fun _ _ _ h hok hstep => h.step hok hstep) hrun hun (by simp [Exclusive, init])
  refine ⟨fun k c access r hc hkind hphase => ?_, fun j k b c life hb hc hbl hcl => ?_⟩
  · obtain ⟨hhonest, hbegan⟩ := hexclusive k c hc
    have hsays := hhonest ⟨access, hkind⟩
    simp only [OpenCall.Honest, hphase] at hsays
    cases r with
    | ok h =>
      obtain ⟨life, hlife⟩ := Option.isSome_iff_exists.mp hsays
      obtain ⟨access', hkind', hlived⟩ := hbegan life hlife
      rw [hkind] at hkind'
      cases hkind'
      exact Or.inl ⟨h, life, rfl, hlife, hlived⟩
    | alreadyExists => exact Or.inr (Or.inl ⟨rfl, hsays⟩)
    | notFound => exact hsays.elim
    | failed => exact Or.inr (Or.inr rfl)
  · obtain ⟨-, -, l, hl, hj, -⟩ := (hexclusive j b hb).2 life hbl
    obtain ⟨-, -, l', hl', hk, -⟩ := (hexclusive k c hc).2 life hcl
    rw [hl] at hl'
    cases hl'
    exact hj.symm.trans hk

end Steps

section Hosts

/-- What is left of a creation when nothing fails and nothing is cached. -/
def creating (k : ℕ) : List RegistryEvent :=
  [.lookup k, .enter k, .put k ⟨1, 0⟩ "w" true, .initLocal k, .insert k]

def visible (v : Visibility) : OpenKind :=
  .createWithAccess (some ⟨v, .empty, 1, "u0", none, "created"⟩)

/-- Two hosts create the repository at once, and the first PUT wins. -/
def twoCreations : List RegistryEvent :=
  [.call 0 (visible .privateRepo), .call 1 (visible .publicRepo), .lookup 1, .enter 1] ++
    creating 0 ++ [.put 1 ⟨1, 0⟩ "w" true]

theorem creation_exclusive_twoCreations :
    ∃ s c c' life, Runs.run step init twoCreations = some s ∧ s.calls = [c, c'] ∧
      c.phase = .done (.ok 0) ∧ c.created = some life ∧
      Began s.lives 0 (some ⟨.privateRepo, .empty, 1, "u0", none, "created"⟩) life ∧
      c'.phase = .done .alreadyExists := by
  have hrun : (Runs.run step init twoCreations).map (fun s => s.calls.map fun c =>
      (c.kind, c.phase)) = some [(visible .privateRepo, .done (.ok 0)),
        (visible .publicRepo, .done .alreadyExists)] := by decide
  obtain ⟨s, hs, hcalls⟩ := Option.map_eq_some_iff.mp hrun
  obtain ⟨c, rest, hsplit, hc, hrest⟩ := List.map_eq_cons_iff.mp hcalls
  obtain ⟨c', rest', rfl, hc', hnil⟩ := List.map_eq_cons_iff.mp hrest
  obtain rfl := List.map_eq_nil_iff.mp hnil
  simp only [Prod.mk.injEq] at hc hc'
  have hfirst : s.calls[0]? = some c := by simp [hsplit]
  obtain ⟨h, life, -, hlife, hbegan⟩ | ⟨hno, -⟩ | hno :=
    (creation_exclusive (by decide) hs).1 0 c _ _ hfirst hc.1 hc.2
  · exact ⟨s, c, c', life, hs, hsplit, hc.2, hlife, hbegan, hc'.2⟩
  · cases hno
  · cases hno

/-- A host that has the private repository open is asked to create it in public. -/
def cachedCreation : List RegistryEvent :=
  [.call 0 (visible .privateRepo)] ++ creating 0 ++ [.call 0 (visible .publicRepo), .lookup 1]

/-- It says that it did. -/
theorem creation_not_exclusive :
    ∃ s, Runs.run step init cachedCreation = some s ∧
      s.calls.map (fun c => (c.kind, c.phase, c.created)) =
        [(visible .privateRepo, .done (.ok 0), some 0), (visible .publicRepo, .done (.ok 0), none)] ∧
      s.lives.map (fun l => (l.call, l.manifest.access.map RepoAccess.visibility)) =
        [(0, some .privateRepo)] := by
  have hrun : (Runs.run step init cachedCreation).map (fun s =>
      (s.calls.map (fun c => (c.kind, c.phase, c.created)),
        s.lives.map fun l => (l.call, l.manifest.access.map RepoAccess.visibility))) =
      some ([(visible .privateRepo, .done (.ok 0), some 0),
        (visible .publicRepo, .done (.ok 0), none)], [(0, some .privateRepo)]) := by decide
  obtain ⟨s, hs, heq⟩ := Option.map_eq_some_iff.mp hrun
  simp only [Prod.mk.injEq] at heq
  exact ⟨s, hs, heq⟩

end Hosts

end Registries

end Walgit
