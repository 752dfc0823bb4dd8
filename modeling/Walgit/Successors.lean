import Walgit.Creation

/-!
# Deletion and what comes after

A deletion removes the manifest, then whatever it finds under the prefix, then the host's local
directory. What a later life puts where a deletion still passes is lost with the rest.
-/
namespace Walgit

/-- A deletion that removed the manifest may still delete this key. -/
def Deletion.mayDelete (x : Deletion) (key : String) : Bool :=
  match x.phase with
  | .sweeping after page => page.contains key || (page.getLast?.or after).all (· < key)
  | _ => false

/-- A deletion that removed the manifest may still remove its host's directory. -/
def Deletion.mayRemoveDir (x : Deletion) : Bool :=
  match x.phase with
  | .sweeping .. | .swept => true
  | _ => false

/-- The life began after the deletion removed the manifest. -/
def Deletion.precedes (x : Deletion) (life : ℕ) : Bool := x.removed.any (· ≤ life)

/-- The deletion that takes the step. -/
def RegistryEvent.deletion : RegistryEvent → Option ℕ
  | .drop d | .removeManifest d | .listPage d _ | .deleteListed d | .removeDir d
  | .failDelete d => some d
  | _ => none

namespace Registries

/-- The key that the event writes, and the life it writes for. -/
def puts (s : Registries) : RegistryEvent → Option (String × ℕ)
  | .put _ _ _ _ => if s.stored.isNone then some (Keys.manifest, s.lives.length) else none
  | .write h key => s.handles[h]?.map fun handle => (key, handle.life)
  | .commit h _ => s.handles[h]?.map fun handle => (Keys.manifest, handle.life)
  | _ => none

/-- The host whose directory the event writes, and the life it writes for. -/
def localises (s : Registries) : RegistryEvent → Option (ℕ × ℕ)
  | .initLocal k => s.calls[k]?.bind fun c => match c.phase with
    | .held life => some (c.host, life)
    | _ => none
  | .sync h => s.handles[h]?.bind fun handle => s.stored.map fun x => (handle.host, x.life)
  | _ => none

/-- Nothing is written where a deletion that ended an earlier life still passes. -/
def clear (s : Registries) (e : RegistryEvent) : Bool :=
  s.deletions.all fun x =>
    (s.puts e).all (fun p => !(x.precedes p.2 && x.mayDelete p.1)) &&
      (s.localises e).all fun p => !(x.host = p.1 && x.precedes p.2 && x.mayRemoveDir)

/-- Lives are counted before anything is written for them. -/
structure Bounded (s : Registries) : Prop where
  store : ∀ key o, s.store.find? key = some o → o.life < s.lives.length
  handles : ∀ h ∈ s.handles, h.life < s.lives.length
  calls : ∀ c ∈ s.calls, ∀ life, c.phase = .held life ∨ c.phase = .localised life →
    life < s.lives.length
  dirs : ∀ host life, s.dirs host = some life → life < s.lives.length

/-- What one step does to a deletion. -/
inductive Deletes (s : Registries) (e : RegistryEvent) (x : Deletion) : Deletion → Prop
  | drops (hphase : x.phase = .checked) : Deletes s e x { x with phase := .dropped }
  | removes (hphase : x.phase = .dropped) :
      Deletes s e x { x with phase := .sweeping none [], removed := some s.lives.length }
  | lists (after : Option String) (n : ℕ) (hphase : x.phase = .sweeping after [])
      (hsome : (s.listed after).take (n + 1) ≠ []) :
      Deletes s e x { x with phase := .sweeping after ((s.listed after).take (n + 1)) }
  | listsNone (after : Option String) (hphase : x.phase = .sweeping after []) :
      Deletes s e x { x with phase := .swept }
  | deletes (after : Option String) (key : String) (page : List String)
      (hphase : x.phase = .sweeping after (key :: page)) :
      Deletes s e x { x with phase := .sweeping (some key) page }
  | ends : Deletes s e x { x with phase := .done }

/-- A deletion's step adds nothing and takes away only what the deletion may delete. -/
structure Spares (s s' : Registries) (x : Deletion) : Prop where
  handles : s'.handles = s.handles
  calls : s'.calls = s.calls
  lives : s'.lives = s.lives
  store : ∀ key o, s'.store.find? key = some o → s.store.find? key = some o
  dirs : ∀ host life, s'.dirs host = some life → s.dirs host = some life
  keeps : ∀ key o, s.store.find? key = some o →
    s'.store.find? key = some o ∨ x.phase = .dropped ∨ x.mayDelete key
  keepsDirs : ∀ host life, s.dirs host = some life →
    s'.dirs host = some life ∨ x.host = host ∧ x.mayRemoveDir

section Steps

variable {s s' : Registries} {e : RegistryEvent}

theorem spares_setDeletion (d : ℕ) (x y : Deletion) (repos : ℕ → Option ℕ) :
    Spares s { s.setDeletion d y with repos := repos } x :=
  ⟨rfl, rfl, rfl, fun _ _ h => h, fun _ _ h => h, fun _ _ h => Or.inl h, fun _ _ h => Or.inl h⟩

theorem spares_erase {d : ℕ} {x y : Deletion} {key : String}
    (h : x.phase = .dropped ∨ x.mayDelete key) :
    Spares s { s.setDeletion d y with store := s.store.erase key } x := by
  refine ⟨rfl, rfl, rfl, fun key' o hfind => ?_, fun _ _ h => h, fun key' o hfind => ?_,
    fun _ _ h => Or.inl h⟩
  · simp only [SortedMap.find?_erase] at hfind
    split_ifs at hfind
    exact hfind
  · simp only [SortedMap.find?_erase]
    split_ifs with heq
    · exact Or.inr (heq ▸ h)
    · exact Or.inl hfind

theorem stepDeletion_deletes {d : ℕ} {x : Deletion} (h : s.stepDeletion d x e = some s') :
    ∃ x', s'.deletions = s.deletions.set d x' ∧ Deletes s e x x' ∧ Spares s s' x := by
  cases e with
  | drop j =>
    simp only [stepDeletion] at h
    split at h
    · rename_i hphase
      cases h
      exact ⟨_, rfl, .drops hphase, spares_setDeletion ..⟩
    · cases h
  | removeManifest j =>
    simp only [stepDeletion] at h
    split at h
    · rename_i hphase
      cases h
      exact ⟨_, rfl, .removes hphase, spares_erase (Or.inl hphase)⟩
    · cases h
  | listPage j n =>
    simp only [stepDeletion] at h
    split at h
    · rename_i after hphase
      cases h
      split_ifs with hnil
      · exact ⟨_, rfl, .listsNone after hphase, spares_setDeletion ..⟩
      · exact ⟨_, rfl, .lists after n hphase hnil, spares_setDeletion ..⟩
    · cases h
  | deleteListed j =>
    simp only [stepDeletion] at h
    split at h
    · rename_i after key page hphase
      cases h
      exact ⟨_, rfl, .deletes after key page hphase,
        spares_erase (Or.inr (by simp [Deletion.mayDelete, hphase]))⟩
    · cases h
  | removeDir j =>
    simp only [stepDeletion] at h
    split at h
    · rename_i hphase
      cases h
      refine ⟨_, rfl, .ends, rfl, rfl, rfl, fun _ _ h => h, fun host life hdir => ?_,
        fun _ _ h => Or.inl h, fun host life hdir => ?_⟩
      · simp only [Function.update_apply] at hdir
        split_ifs at hdir
        exact hdir
      · simp only [Function.update_apply]
        split_ifs with heq
        · exact Or.inr ⟨heq.symm, by simp [Deletion.mayRemoveDir, hphase]⟩
        · exact Or.inl hdir
    · cases h
  | failDelete j =>
    simp only [stepDeletion] at h
    split at h
    · cases h
    · cases h
      exact ⟨_, rfl, .ends, spares_setDeletion ..⟩
  | _ => simp [stepDeletion] at h

/-- What the steps of calls and handles write is what the event says. -/
structure Writes (s s' : Registries) (e : RegistryEvent) : Prop where
  deletions : s'.deletions = s.deletions ∨
    ∃ host, s'.deletions = s.deletions ++ [⟨host, .checked, none⟩]
  store : ∀ key o, s'.store.find? key = some o → s.store.find? key = some o ∨
    s.puts e = some (key, o.life) ∧ (o.life < s'.lives.length ∨ ∃ h ∈ s.handles, h.life = o.life)
  dirs : ∀ host life, s'.dirs host = some life → s.dirs host = some life ∨
    s.localises e = some (host, life) ∧
      ((∃ c ∈ s.calls, c.phase = .held life) ∨ ∃ x, s.stored = some x ∧ x.life = life)
  handles : ∀ h ∈ s'.handles, h ∈ s.handles ∨ (∃ c ∈ s.calls, c.phase = .localised h.life) ∨
    ∃ x, s.stored = some x ∧ x.life = h.life

theorem writes_of_eq (hdeletions : s'.deletions = s.deletions) (hstore : s'.store = s.store)
    (hdirs : s'.dirs = s.dirs) (hhandles : s'.handles = s.handles) : Writes s s' e := by
  refine ⟨Or.inl hdeletions, fun _ _ h => Or.inl (hstore ▸ h), fun _ _ h => Or.inl (hdirs ▸ h),
    fun _ h => Or.inl (hhandles ▸ h)⟩

/-- A write of one key. -/
theorem store_insert {t : SortedMap String StoredObject} {key key' : String} {o o' : StoredObject}
    (h : (t.insert key o).find? key' = some o') : t.find? key' = some o' ∨ key' = key ∧ o' = o := by
  rw [SortedMap.find?_insert] at h
  split_ifs at h with heq
  · exact Or.inr ⟨heq, (Option.some.inj h).symm⟩
  · exact Or.inl h

theorem dirs_update {dirs : ℕ → Option ℕ} {host host' life life' : ℕ}
    (h : Function.update dirs host (some life) host' = some life') :
    dirs host' = some life' ∨ host' = host ∧ life' = life := by
  rw [Function.update_apply] at h
  split_ifs at h with heq
  · exact Or.inr ⟨heq, (Option.some.inj h).symm⟩
  · exact Or.inl h

theorem stepCall_writes {k : ℕ} {c : OpenCall} (hc : s.calls[k]? = some c)
    (h : s.stepCall k c e = some s') (he : ∀ j, e = .initLocal j → j = k) : Writes s s' e := by
  have hmem := List.mem_of_getElem? hc
  cases e with
  | lookup j =>
    simp only [stepCall] at h
    split at h <;> cases h <;> exact writes_of_eq rfl rfl rfl rfl
  | enter j =>
    simp only [stepCall] at h
    split_ifs at h
    split at h <;> cases h <;> exact writes_of_eq rfl rfl rfl rfl
  | get j =>
    simp only [stepCall] at h
    split at h <;> cases h <;> exact writes_of_eq rfl rfl rfl rfl
  | put j now writer answered =>
    simp only [stepCall] at h
    split at h
    · cases h
      exact writes_of_eq rfl rfl rfl rfl
    · rename_i access hkind hphase hstored
      have hput : ∀ t : Registries, t.deletions = s.deletions → t.dirs = s.dirs →
          t.handles = s.handles → t.lives.length = s.lives.length + 1 →
          t.store = s.store.insert Keys.manifest
            ⟨s.lives.length, some (createdManifest access now writer)⟩ →
          Writes s t (.put j now writer answered) := by
        intro t hdeletions hdirs hhandles hlives hstore
        refine ⟨Or.inl hdeletions, fun key o hfind => ?_, fun _ _ h => Or.inl (hdirs ▸ h),
          fun _ h => Or.inl (hhandles ▸ h)⟩
        rw [hstore] at hfind
        rcases store_insert hfind with hold | ⟨hkey, ho⟩
        · exact Or.inl hold
        · refine Or.inr ⟨?_, Or.inl ?_⟩
          · simp [puts, hstored, hkey, ho]
          · rw [hlives, ho]
            exact Nat.lt_succ_self _
      cases h
      cases answered <;> exact hput _ rfl rfl rfl (by simp [endCall, setCall]) rfl
    · cases h
  | initLocal j =>
    obtain rfl := he j rfl
    simp only [stepCall] at h
    split at h
    · rename_i life hphase
      cases h
      refine ⟨Or.inl rfl, fun _ _ h => Or.inl h, fun host life' hdir => ?_, fun _ h => Or.inl h⟩
      rcases dirs_update hdir with hold | ⟨hhost, hlife⟩
      · exact Or.inl hold
      · refine Or.inr ⟨?_, Or.inl ⟨c, hmem, ?_⟩⟩
        · simp [localises, hc, hphase, hhost, hlife]
        · rw [hphase, hlife]
    · cases h
  | insert j =>
    simp only [stepCall] at h
    split at h
    · rename_i life hphase
      cases h
      refine ⟨Or.inl rfl, fun _ _ h => Or.inl h, fun _ _ h => Or.inl h, fun h' hh => ?_⟩
      refine (List.mem_append.mp hh).imp_right fun hnew => Or.inl ⟨c, hmem, ?_⟩
      rw [List.mem_singleton.mp hnew, hphase]
    · cases h
  | fail j =>
    simp only [stepCall] at h
    split at h <;> cases h
    exact writes_of_eq rfl rfl rfl rfl
  | _ => simp [stepCall] at h

theorem step_writes (h : step s e = some s') (he : e.deletion = none) : Writes s s' e := by
  have hcall : ∀ k, (∀ j, e = .initLocal j → j = k) →
      ((s.calls[k]?).bind fun c => s.stepCall k c e) = some s' → Writes s s' e := by
    intro k hk hbind
    obtain ⟨c, hc, hstep⟩ := Option.bind_eq_some_iff.mp hbind
    exact stepCall_writes hc hstep hk
  cases e with
  | call host kind =>
    cases h
    exact writes_of_eq rfl rfl rfl rfl
  | lookup k | enter k | get k | put k _ _ _ | initLocal k | insert k | fail k =>
    exact hcall k (by simp) h
  | sync j =>
    obtain ⟨handle, hhandle, hrest⟩ := Option.bind_eq_some_iff.mp h
    obtain ⟨x, hx, hrest⟩ := Option.bind_eq_some_iff.mp hrest
    cases hrest
    refine ⟨Or.inl rfl, fun _ _ h => Or.inl h, fun host life hdir => ?_, fun h' hh => ?_⟩
    · refine (dirs_update hdir).imp_right fun ⟨hhost, hlife⟩ => ⟨?_, Or.inr ⟨x, hx, hlife.symm⟩⟩
      simp [localises, hhandle, hx, hhost, hlife]
    · refine (List.mem_or_eq_of_mem_set hh).imp_right fun hnew => Or.inr ⟨x, hx, ?_⟩
      rw [hnew]
  | write j key =>
    obtain ⟨handle, hhandle, hrest⟩ := Option.bind_eq_some_iff.mp h
    split_ifs at hrest
    cases hrest
    refine ⟨Or.inl rfl, fun key' o hfind => ?_, fun _ _ h => Or.inl h, fun _ h => Or.inl h⟩
    refine (store_insert hfind).imp_right fun ⟨hkey, ho⟩ => ⟨?_, Or.inr ⟨handle, ?_, ?_⟩⟩
    · simp [puts, hhandle, hkey, ho]
    · exact List.mem_of_getElem? hhandle
    · rw [ho]
  | commit j m =>
    obtain ⟨handle, hhandle, hrest⟩ := Option.bind_eq_some_iff.mp h
    obtain ⟨x, hx, hrest⟩ := Option.bind_eq_some_iff.mp hrest
    split_ifs at hrest with hlife
    cases hrest
    refine ⟨Or.inl rfl, fun key' o hfind => ?_, fun _ _ h => Or.inl h, fun _ h => Or.inl h⟩
    refine (store_insert hfind).imp_right fun ⟨hkey, ho⟩ => ⟨?_, Or.inr ⟨handle, ?_, ?_⟩⟩
    · simp [puts, hhandle, hkey, ho, not_not.mp hlife]
    · exact List.mem_of_getElem? hhandle
    · rw [ho]
      exact (not_not.mp hlife).symm
  | evict host =>
    cases h
    refine ⟨Or.inl rfl, fun _ _ h => Or.inl h, fun host' life hdir => ?_, fun _ h => Or.inl h⟩
    simp only [Function.update_apply] at hdir
    split_ifs at hdir
    exact Or.inl hdir
  | delete host =>
    simp only [step] at h
    split at h
    · cases h
      exact ⟨Or.inr ⟨host, rfl⟩, fun _ _ h => Or.inl h, fun _ _ h => Or.inl h,
        fun _ h => Or.inl h⟩
    · cases h
      exact writes_of_eq rfl rfl rfl rfl
  | drop d | removeManifest d | listPage d _ | deleteListed d | removeDir d | failDelete d =>
    simp [RegistryEvent.deletion] at he

theorem step_lives (h : step s e = some s') : s.lives.length ≤ s'.lives.length := by
  rcases step_calls h with ⟨host, kind, -, hlives⟩ | ⟨-, hlives⟩ | ⟨k, c, c', -, -, hadvances⟩
  · rw [hlives]
  · rw [hlives]
  · rcases hadvances.lives with hlives | ⟨l, hlives⟩ <;> simp [hlives]

/-- A call that has a manifest after the step had it before, created it or read it. -/
theorem Advances.holds {k : ℕ} {c c' : OpenCall} {lives : List Life}
    (h : Advances s e k c c' lives) {life : ℕ}
    (hphase : c'.phase = .held life ∨ c'.phase = .localised life) :
    c.phase = .held life ∨ life < lives.length ∨ ∃ x, s.stored = some x ∧ x.life = life := by
  cases h with
  | reads x hkind hstored =>
    obtain rfl : x.life = life := by simpa using hphase
    exact Or.inr (Or.inr ⟨x, hstored, rfl⟩)
  | creates access now writer phase hkind hold hnext =>
    rcases hnext with rfl | rfl
    · obtain rfl : s.lives.length = life := by simpa using hphase
      exact Or.inr (Or.inl (by simp))
    · simp at hphase
  | localises life' hheld =>
    obtain rfl : life' = life := by simpa using hphase
    exact Or.inl hheld
  | _ => simp at hphase

/-- A deletion's step, or a step that writes what the event says. -/
theorem step_deletes_or_writes (h : step s e = some s') :
    (∃ d x x', e.deletion = some d ∧ s.deletions[d]? = some x ∧
      s'.deletions = s.deletions.set d x' ∧ Deletes s e x x' ∧ Spares s s' x) ∨
    e.deletion = none ∧ Writes s s' e := by
  cases e with
  | drop d | removeManifest d | listPage d _ | deleteListed d | removeDir d | failDelete d =>
    obtain ⟨x, hx, hstep⟩ := Option.bind_eq_some_iff.mp h
    obtain ⟨x', hset, hdeletes, hspares⟩ := stepDeletion_deletes hstep
    exact Or.inl ⟨d, x, x', rfl, hx, hset, hdeletes, hspares⟩
  | _ => exact Or.inr ⟨rfl, step_writes h rfl⟩

theorem Bounded.step (h : Bounded s) (hstep : step s e = some s') : Bounded s' := by
  have hgrows := step_lives hstep
  have hstored : ∀ x, s.stored = some x → x.life < s'.lives.length :=
    fun x hx => (h.store _ x hx).trans_le hgrows
  have hcalls : ∀ c ∈ s'.calls, ∀ life, c.phase = .held life ∨ c.phase = .localised life →
      life < s'.lives.length := by
    intro c hc life hphase
    rcases step_calls hstep with ⟨host, kind, hnew, -⟩ | ⟨hsame, -⟩ |
      ⟨k, b, b', hb, hset, hadvances⟩
    · rw [hnew] at hc
      rcases List.mem_append.mp hc with hc | hc
      · exact (h.calls c hc life hphase).trans_le hgrows
      · simp [List.mem_singleton.mp hc] at hphase
    · exact (h.calls c (hsame ▸ hc) life hphase).trans_le hgrows
    · rw [hset] at hc
      rcases List.mem_or_eq_of_mem_set hc with hc | rfl
      · exact (h.calls c hc life hphase).trans_le hgrows
      · rcases hadvances.holds hphase with hold | hlt | ⟨x, hx, rfl⟩
        · exact (h.calls b (List.mem_of_getElem? hb) life (Or.inl hold)).trans_le hgrows
        · exact hlt
        · exact hstored x hx
  rcases step_deletes_or_writes hstep with ⟨d, x, x', -, -, -, -, hspares⟩ | ⟨-, hwrites⟩
  · refine ⟨fun key o ho => ?_, fun handle hh => ?_, hcalls, fun host life hdir => ?_⟩
    · exact (h.store key o (hspares.store key o ho)).trans_le hgrows
    · exact (h.handles handle (hspares.handles ▸ hh)).trans_le hgrows
    · exact (h.dirs host life (hspares.dirs host life hdir)).trans_le hgrows
  · refine ⟨fun key o ho => ?_, fun handle hh => ?_, hcalls, fun host life hdir => ?_⟩
    · rcases hwrites.store key o ho with hold | ⟨-, hlt | ⟨handle, hh, heq⟩⟩
      · exact (h.store key o hold).trans_le hgrows
      · exact hlt
      · exact heq ▸ (h.handles handle hh).trans_le hgrows
    · rcases hwrites.handles handle hh with hold | ⟨c, hc, hphase⟩ | ⟨x, hx, heq⟩
      · exact (h.handles handle hold).trans_le hgrows
      · exact (h.calls c hc _ (Or.inr hphase)).trans_le hgrows
      · exact heq ▸ hstored x hx
    · rcases hwrites.dirs host life hdir with hold | ⟨-, ⟨c, hc, hphase⟩ | ⟨x, hx, heq⟩⟩
      · exact (h.dirs host life hold).trans_le hgrows
      · exact (h.calls c hc _ (Or.inl hphase)).trans_le hgrows
      · exact heq ▸ hstored x hx

theorem mayDelete_sweeping {x : Deletion} {after : Option String} {page : List String}
    (hphase : x.phase = .sweeping after page) {key : String} :
    x.mayDelete key ↔ key ∈ page ∨ (page.getLast?.or after).all (· < key) := by
  simp only [Deletion.mayDelete, hphase, Bool.or_eq_true, List.contains_iff_mem]

theorem mem_listed {after : Option String} {key : String} :
    key ∈ s.listed after → after.all (· < key) := fun h => (List.mem_filter.mp h).2

/-- A deletion that moves on passes no key and no directory it could not delete before. -/
theorem Deletes.narrows {x x' : Deletion} (h : Deletes s e x x') :
    x'.host = x.host ∧ (x'.removed = some s.lives.length ∨ x'.removed = x.removed ∧
      (∀ key, x'.mayDelete key → x.mayDelete key) ∧ (x'.mayRemoveDir → x.mayRemoveDir)) := by
  refine ⟨by cases h <;> rfl, ?_⟩
  cases h with
  | removes hphase => exact Or.inl rfl
  | drops hphase => exact Or.inr ⟨rfl, fun key hkey => by simp [Deletion.mayDelete] at hkey,
      fun hdir => by simp [Deletion.mayRemoveDir] at hdir⟩
  | listsNone after hphase =>
    exact Or.inr ⟨rfl, fun key hkey => by simp [Deletion.mayDelete] at hkey,
      fun _ => by simp [Deletion.mayRemoveDir, hphase]⟩
  | ends => exact Or.inr ⟨rfl, fun key hkey => by simp [Deletion.mayDelete] at hkey,
      fun hdir => by simp [Deletion.mayRemoveDir] at hdir⟩
  | lists after n hphase hsome =>
    refine Or.inr ⟨rfl, fun key hkey => ?_, fun _ => by simp [Deletion.mayRemoveDir, hphase]⟩
    -- A key behind the page is behind the last key that was listed.
    have hpage : ∀ k ∈ (s.listed after).take (n + 1), after.all (· < k) :=
      fun k hk => mem_listed (List.mem_of_mem_take hk)
    refine (mayDelete_sweeping hphase).mpr (Or.inr ?_)
    rcases (mayDelete_sweeping rfl).mp hkey with hmem | hlast
    · exact hpage key hmem
    · obtain ⟨last, hlastkey⟩ := Option.isSome_iff_exists.mp (List.getLast?_isSome.mpr hsome)
      have hlt := hpage last (List.mem_of_getLast? hlastkey)
      rw [hlastkey] at hlast
      cases after with
      | none => rfl
      | some a =>
        simp only [Option.or_some, Option.all_some, decide_eq_true_eq] at hlast hlt
        exact decide_eq_true (hlt.trans hlast)
  | deletes after key page hphase =>
    refine Or.inr ⟨rfl, fun key' hkey => ?_, fun _ => by simp [Deletion.mayRemoveDir, hphase]⟩
    have hsame : (key :: page).getLast?.or after = page.getLast?.or (some key) := by
      cases page with
      | nil => rfl
      | cons k ks => simp [List.getLast?_eq_some_getLast]
    rw [mayDelete_sweeping hphase, hsame]
    exact ((mayDelete_sweeping rfl).mp hkey).imp_left (List.mem_cons_of_mem _)

theorem Deletes.early {x x' : Deletion} (h : Deletes s e x x')
    (hphase : x'.phase = .checked ∨ x'.phase = .dropped) :
    x.phase = .checked ∧ x'.removed = x.removed := by
  cases h with
  | drops hold => exact ⟨hold, rfl⟩
  | _ => simp at hphase

/-- What was written in a later life is out of every deletion's way. -/
structure Safe (s : Registries) : Prop where
  early : ∀ x ∈ s.deletions, x.phase = .checked ∨ x.phase = .dropped → x.removed = none
  store : ∀ x ∈ s.deletions, ∀ key o, s.store.find? key = some o → x.precedes o.life →
    ¬x.mayDelete key
  dirs : ∀ x ∈ s.deletions, ∀ life, s.dirs x.host = some life → x.precedes life → ¬x.mayRemoveDir

theorem Safe.deletes (h : Safe s) (hb : Bounded s) {d : ℕ} {x x' : Deletion}
    (hx : s.deletions[d]? = some x) (hset : s'.deletions = s.deletions.set d x')
    (hdeletes : Deletes s e x x') (hspares : Spares s s' x) : Safe s' := by
  have hmem := List.mem_of_getElem? hx
  obtain ⟨hhost, hnarrow⟩ := hdeletes.narrows
  have hnone : ∀ life, life < s.lives.length → x'.removed = some s.lives.length →
      ¬x'.precedes life := by
    intro life hlt hremoved hprecedes
    rw [Deletion.precedes, hremoved, Option.any_some, decide_eq_true_eq] at hprecedes
    omega
  refine ⟨fun y hy hphase => ?_, fun y hy key o ho hlater hmay => ?_,
    fun y hy life hdir hlater hmay => ?_⟩ <;> rw [hset] at hy
  · rcases List.mem_or_eq_of_mem_set hy with hy | rfl
    · exact h.early y hy hphase
    · obtain ⟨hchecked, hsame⟩ := hdeletes.early hphase
      exact hsame ▸ h.early x hmem (Or.inl hchecked)
  · have hold := hspares.store key o ho
    rcases List.mem_or_eq_of_mem_set hy with hy | rfl
    · exact h.store y hy key o hold hlater hmay
    · rcases hnarrow with hremoved | ⟨hsame, hkeys, -⟩
      · exact hnone _ (hb.store key o hold) hremoved hlater
      · rw [Deletion.precedes, hsame] at hlater
        exact h.store x hmem key o hold hlater (hkeys key hmay)
  · have hold := hspares.dirs _ life hdir
    rcases List.mem_or_eq_of_mem_set hy with hy | rfl
    · exact h.dirs y hy life hold hlater hmay
    · rcases hnarrow with hremoved | ⟨hsame, -, hdirs⟩
      · exact hnone _ (hb.dirs _ life hold) hremoved hlater
      · rw [Deletion.precedes, hsame] at hlater
        exact h.dirs x hmem life (hhost ▸ hold) hlater (hdirs hmay)

theorem Safe.writes (h : Safe s) (hclear : s.clear e) (hwrites : Writes s s' e) : Safe s' := by
  have hold : ∀ y ∈ s'.deletions, y ∈ s.deletions ∨ y.phase = .checked ∧ y.removed = none := by
    intro y hy
    rcases hwrites.deletions with hsame | ⟨host, hnew⟩
    · exact Or.inl (hsame ▸ hy)
    · rw [hnew] at hy
      exact (List.mem_append.mp hy).imp_right fun hy => by simp [List.mem_singleton.mp hy]
  have hnew : ∀ {y : Deletion} {life}, y.removed = none → ¬y.precedes life :=
    fun hnone => by simp [Deletion.precedes, hnone]
  refine ⟨fun y hy hphase => ?_, fun y hy key o ho hlater hmay => ?_,
    fun y hy life hdir hlater hmay => ?_⟩
  · rcases hold y hy with hy | ⟨-, hnone⟩
    · exact h.early y hy hphase
    · exact hnone
  · rcases hold y hy with hy | ⟨-, hnone⟩
    · rcases hwrites.store key o ho with ho | ⟨hputs, -⟩
      · exact h.store y hy key o ho hlater hmay
      · have hfree := List.all_eq_true.mp hclear y hy
        simp [hputs, hlater, hmay] at hfree
    · exact hnew hnone hlater
  · rcases hold y hy with hy | ⟨-, hnone⟩
    · rcases hwrites.dirs _ life hdir with hdir | ⟨hlocalises, -⟩
      · exact h.dirs y hy life hdir hlater hmay
      · have hfree := List.all_eq_true.mp hclear y hy
        simp [hlocalises, hlater, hmay] at hfree
    · exact hnew hnone hlater

theorem Safe.step (h : Safe s) (hb : Bounded s) (hclear : s.clear e) (hstep : step s e = some s') :
    Safe s' := by
  rcases step_deletes_or_writes hstep with ⟨d, x, x', -, hx, hset, hdeletes, hspares⟩ |
    ⟨-, hwrites⟩
  · exact h.deletes hb hx hset hdeletes hspares
  · exact h.writes hclear hwrites

/-- No step of a deletion takes away what was written in a life that began after it removed the
manifest, in the store or in a local directory. -/
theorem deletion_spares_successors {events : List RegistryEvent}
    (hclear : Runs.AllSteps step (fun s e => s.clear e = true) init events)
    (hrun : Runs.run step init events = some s) {d : ℕ} {x : Deletion}
    (hx : s.deletions[d]? = some x) (he : e.deletion = some d) (hstep : step s e = some s') :
    (∀ key o, s.store.find? key = some o → x.precedes o.life → s'.store.find? key = some o) ∧
      ∀ host life, s.dirs host = some life → x.precedes life → s'.dirs host = some life := by
  obtain ⟨hb, hsafe⟩ : Bounded s ∧ Safe s := by
    refine Runs.invariant (I := fun s => Bounded s ∧ Safe s)
      (fun _ _ _ h hok hstep => ⟨h.1.step hstep, h.2.step h.1 hok hstep⟩) hrun hclear
      ⟨⟨?_, ?_, ?_, ?_⟩, ⟨?_, ?_, ?_⟩⟩ <;> simp [init]
  have hmem := List.mem_of_getElem? hx
  obtain ⟨d', x', y, hd', hx', -, -, hspares⟩ | ⟨hnone, -⟩ := step_deletes_or_writes hstep
  · obtain rfl := Option.some.inj (he.symm.trans hd')
    obtain rfl := Option.some.inj (hx.symm.trans hx')
    refine ⟨fun key o ho hlater => ?_, fun host life hdir hlater => ?_⟩
    · rcases hspares.keeps key o ho with hkept | hdropped | hmay
      · exact hkept
      · have hnone := hsafe.early x hmem (Or.inr hdropped)
        simp [Deletion.precedes, hnone] at hlater
      · exact absurd hmay (hsafe.store x hmem key o ho hlater)
    · rcases hspares.keepsDirs host life hdir with hkept | ⟨rfl, hmay⟩
      · exact hkept
      · exact absurd hmay (hsafe.dirs x hmem life hdir hlater)
  · rw [he] at hnone
    cases hnone

end Steps

section Hosts

/-- A host creates the repository, writes to it and removes its manifest. -/
def removing : List RegistryEvent :=
  [.call 0 (visible .privateRepo)] ++ creating 0 ++
    [.write 0 "log/0000000000000001.pb", .delete 0, .drop 0, .removeManifest 0]

/-- Another host creates the repository again once nothing is left to list. -/
def createdAfter : List RegistryEvent :=
  removing ++ [.listPage 0 9, .deleteListed 0, .listPage 0 9, .call 1 (visible .publicRepo)] ++
    creating 1

/-- What there is of the repository on the second host and in the store, by its life. -/
def remains (s : Registries) : Option ℕ × Option ℕ := (s.stored.map StoredObject.life, s.dirs 1)

theorem deletion_spares_createdAfter :
    ∃ s s' o, Runs.run step init createdAfter = some s ∧ step s (.removeDir 0) = some s' ∧
      s.stored = some o ∧ o.life = 1 ∧ s'.stored = some o ∧ s'.dirs 1 = some 1 := by
  have hrun : ((Runs.run step init createdAfter).bind fun s =>
      (step s (.removeDir 0)).map fun _ => (s.remains, s.deletions.map Deletion.removed)) =
      some ((some 1, some 1), [some 1]) := by decide
  obtain ⟨s, hs, hrest⟩ := Option.bind_eq_some_iff.mp hrun
  obtain ⟨s', hs', heq⟩ := Option.map_eq_some_iff.mp hrest
  simp only [remains, Prod.mk.injEq] at heq
  obtain ⟨⟨hstored, hdir⟩, hremoved⟩ := heq
  obtain ⟨o, ho, hlife⟩ := Option.map_eq_some_iff.mp hstored
  obtain ⟨x, rest, hdeletions, hx, -⟩ := List.map_eq_cons_iff.mp hremoved
  have hlater : x.precedes 1 := by simp [Deletion.precedes, hx]
  obtain ⟨hstore, hdirs⟩ := deletion_spares_successors (by decide) hs (d := 0) (x := x)
    (by simp [hdeletions]) rfl hs'
  exact ⟨s, s', o, hs, hs', ho, hlife, hstore _ o ho (hlife ▸ hlater), hdirs 1 1 hdir hlater⟩

/-- Another host creates the repository again while the deletion still lists. -/
def createdWhile : List RegistryEvent :=
  removing ++ [.listPage 0 0, .deleteListed 0, .call 1 (visible .publicRepo)] ++ creating 1 ++
    [.listPage 0 0]

/-- The deletion finds the new manifest and deletes it. -/
theorem deletion_destroys_successor :
    ∃ s s' x, Runs.run step init createdWhile = some s ∧
      step s (.deleteListed 0) = some s' ∧ s.deletions = [x] ∧ x.precedes 1 ∧
      s.stored.map StoredObject.life = some 1 ∧ (s.calls[1]?).map OpenCall.phase =
        some (.done (.ok 1)) ∧ s'.stored.map StoredObject.life = none := by
  have hrun : ((Runs.run step init createdWhile).bind fun s =>
      (step s (.deleteListed 0)).map fun s' => (s.deletions.map fun x => x.precedes 1,
        s.stored.map StoredObject.life, (s.calls[1]?).map OpenCall.phase,
        s'.stored.map StoredObject.life)) =
      some ([true], some 1, some (.done (.ok 1)), none) := by decide
  obtain ⟨s, hs, hrest⟩ := Option.bind_eq_some_iff.mp hrun
  obtain ⟨s', hs', heq⟩ := Option.map_eq_some_iff.mp hrest
  simp only [Prod.mk.injEq] at heq
  obtain ⟨hdeletions, hbefore, hcall, hafter⟩ := heq
  obtain ⟨x, rest, hx, hprecedes, hnil⟩ := List.map_eq_cons_iff.mp hdeletions
  obtain rfl := List.map_eq_nil_iff.mp hnil
  exact ⟨s, s', x, hs, hs', hx, hprecedes, hbefore, hcall, hafter⟩

end Hosts

end Registries

end Walgit
