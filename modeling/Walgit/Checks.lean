import Mathlib.Data.List.Basic

/-!
# Chains of checks

A validator is a list of guards that throw, one after another. What passes it passed
every guard; these lemmas read the guards off a chain that returned `ok`.
-/
namespace Checks

variable {ε α β : Type}

@[simp] theorem throw_bind (e : ε) (f : α → Except ε β) :
    ((throw e : Except ε α) >>= f) = .error e := rfl

theorem ok_bind (a : α) (f : α → Except ε β) : ((.ok a : Except ε α) >>= f) = f a := rfl

theorem bind_eq_ok {x : Except ε α} {f : α → Except ε β} {b : β} :
    x >>= f = .ok b ↔ ∃ a, x = .ok a ∧ f a = .ok b := by
  cases x with
  | error e => simp [bind, Except.bind]
  | ok a => simp [bind, Except.bind]

theorem map_eq_ok {x : Except ε α} {f : α → β} {b : β} :
    x.map f = .ok b ↔ ∃ a, x = .ok a ∧ f a = b := by
  cases x with
  | error e => simp [Except.map]
  | ok a => simp [Except.map]

/-- A check in the middle of a chain. -/
theorem check_ok {x : Except ε Unit} {f : Unit → Except ε β} {b : β} :
    x >>= f = .ok b ↔ x = .ok () ∧ f () = .ok b := by
  rw [bind_eq_ok]
  exact ⟨fun ⟨_, hx, hf⟩ => ⟨hx, hf⟩, fun ⟨hx, hf⟩ => ⟨(), hx, hf⟩⟩

theorem bind_ne_error {x : Except ε α} {f : α → Except ε β} {e : ε} (hx : x ≠ .error e)
    (hf : ∀ a, x = .ok a → f a ≠ .error e) : x >>= f ≠ .error e := by
  cases x with
  | error e' => exact fun h => hx (by cases h; rfl)
  | ok a => exact hf a rfl

theorem toOption_eq_some {x : Except ε α} {a : α} : x.toOption = some a ↔ x = .ok a := by
  cases x with
  | error e => simp [Except.toOption]
  | ok b => simp [Except.toOption]

theorem isOk_iff {x : Except ε Unit} : x.isOk ↔ x = .ok () := by
  cases x with
  | error e => simp [Except.isOk, Except.toBool]
  | ok u => simp [Except.isOk, Except.toBool]

/-- A guard in the middle of a chain. -/
theorem guard_ok {c : Prop} [Decidable c] {e : ε} {f : α → Except ε β} {rest : Except ε β} {b : β} :
    (if c then (throw e : Except ε α) >>= f else rest) = .ok b ↔ ¬ c ∧ rest = .ok b := by
  split_ifs with h <;> simp [h]

/-- A guard at the end of a chain. -/
theorem last_ok {c : Prop} [Decidable c] {e : ε} {rest : Except ε β} {b : β} :
    (if c then throw e else rest) = .ok b ↔ ¬ c ∧ rest = .ok b := by
  split_ifs with h
  · simp [h]
  · simp [h]

/-- A check of every element of a list. -/
theorem forM_ok {f : α → Except ε Unit} {l : List α} :
    l.forM f = .ok () ↔ ∀ a ∈ l, f a = .ok () := by
  induction l with
  | nil => simp [List.forM, pure, Except.pure]
  | cons a l ih =>
    have hcons : (a :: l).forM f = (f a >>= fun _ => l.forM f) := rfl
    rw [hcons, bind_eq_ok, List.forall_mem_cons, ← ih]
    exact ⟨fun ⟨_, ha, hl⟩ => ⟨ha, hl⟩, fun ⟨ha, hl⟩ => ⟨(), ha, hl⟩⟩

/-- A list computed element by element. -/
theorem mapM_ok {f : α → Except ε β} {l : List α} {r : List β} (h : l.mapM f = .ok r) :
    r.length = l.length ∧ (∀ a ∈ l, ∃ b, f a = .ok b) ∧ ∀ b ∈ r, ∃ a ∈ l, f a = .ok b := by
  induction l generalizing r with
  | nil =>
    cases h
    simp
  | cons a l ih =>
    simp only [List.mapM_cons, bind_eq_ok] at h
    obtain ⟨b, hb, bs, hbs, hr⟩ := h
    cases hr
    obtain ⟨hlength, hall, hback⟩ := ih hbs
    refine ⟨by simp [hlength], ?_, ?_⟩
    · rw [List.forall_mem_cons]
      exact ⟨⟨b, hb⟩, hall⟩
    · rw [List.forall_mem_cons]
      refine ⟨⟨a, List.mem_cons_self, hb⟩, fun c hc => ?_⟩
      obtain ⟨a', ha', hf⟩ := hback c hc
      exact ⟨a', List.mem_cons_of_mem a ha', hf⟩

/-- A computation for every element goes through if it does for each. -/
theorem mapM_ok_iff {f : α → Except ε β} {l : List α} :
    (∃ r, l.mapM f = .ok r) ↔ ∀ a ∈ l, ∃ b, f a = .ok b := by
  refine ⟨fun ⟨r, h⟩ => (mapM_ok h).2.1, fun h => ?_⟩
  induction l with
  | nil => exact ⟨[], rfl⟩
  | cons a l ih =>
    rw [List.forall_mem_cons] at h
    obtain ⟨⟨b, hb⟩, hl⟩ := h
    obtain ⟨r, hr⟩ := ih hl
    exact ⟨b :: r, by simp [List.mapM_cons, hb, hr, bind, Except.bind, pure, Except.pure]⟩

/-- Every element has its result in the list. -/
theorem mapM_ok_mem {f : α → Except ε β} {l : List α} {r : List β} (h : l.mapM f = .ok r)
    {a : α} (ha : a ∈ l) : ∃ b ∈ r, f a = .ok b := by
  induction l generalizing r with
  | nil => cases ha
  | cons a' l ih =>
    simp only [List.mapM_cons, bind_eq_ok] at h
    obtain ⟨b, hb, bs, hbs, hr⟩ := h
    cases hr
    rcases List.mem_cons.mp ha with rfl | ha
    · exact ⟨b, List.mem_cons_self, hb⟩
    · obtain ⟨c, hc, hf⟩ := ih hbs ha
      exact ⟨c, List.mem_cons_of_mem b hc, hf⟩

theorem mapM_eq_ok_map {f : α → Except ε β} {g : α → β} {l : List α}
    (h : ∀ a ∈ l, f a = .ok (g a)) : l.mapM f = .ok (l.map g) := by
  induction l with
  | nil => rfl
  | cons a l ih =>
    rw [List.mapM_cons, h a List.mem_cons_self, ih fun b hb => h b (List.mem_cons_of_mem _ hb)]
    rfl

theorem mapM_error {f : α → Except ε β} {l : List α} {e : ε} (h : l.mapM f = .error e) :
    ∃ a ∈ l, f a = .error e := by
  induction l with
  | nil => cases h
  | cons a l ih =>
    rw [List.mapM_cons] at h
    cases ha : f a with
    | error e' =>
      rw [ha] at h
      cases h
      exact ⟨a, List.mem_cons_self, ha⟩
    | ok b =>
      cases hl : l.mapM f with
      | error e' =>
        rw [ha, hl] at h
        cases h
        obtain ⟨a', ha', hf⟩ := ih hl
        exact ⟨a', List.mem_cons_of_mem _ ha', hf⟩
      | ok bs =>
        rw [ha, hl] at h
        cases h

/-- A list of results that are all there. -/
theorem mapM_some {f : α → Option β} {l : List α} {r : List β} (h : l.mapM f = some r) :
    (∀ a ∈ l, ∃ b ∈ r, f a = some b) ∧ ∀ b ∈ r, ∃ a ∈ l, f a = some b := by
  induction l generalizing r with
  | nil =>
    cases h
    simp
  | cons a l ih =>
    simp only [List.mapM_cons, Option.bind_eq_bind, Option.bind_eq_some_iff] at h
    obtain ⟨b, hb, bs, hbs, hr⟩ := h
    cases hr
    obtain ⟨hall, hback⟩ := ih hbs
    constructor
    · rw [List.forall_mem_cons]
      refine ⟨⟨b, List.mem_cons_self, hb⟩, fun a' ha' => ?_⟩
      obtain ⟨b', hb', hf⟩ := hall a' ha'
      exact ⟨b', List.mem_cons_of_mem b hb', hf⟩
    · rw [List.forall_mem_cons]
      refine ⟨⟨a, List.mem_cons_self, hb⟩, fun c hc => ?_⟩
      obtain ⟨a', ha', hf⟩ := hback c hc
      exact ⟨a', List.mem_cons_of_mem a ha', hf⟩

theorem mapM_eq_some_map {f : α → Option β} {g : α → β} {l : List α}
    (h : ∀ a ∈ l, f a = some (g a)) : l.mapM f = some (l.map g) := by
  induction l with
  | nil => rfl
  | cons a l ih =>
    rw [List.mapM_cons, h a List.mem_cons_self, ih fun b hb => h b (List.mem_cons_of_mem _ hb)]
    rfl

theorem mapM_cons_eq_some {f : α → Option β} {a : α} {l : List α} {b : β} {r : List β} :
    (a :: l).mapM f = some (b :: r) ↔ f a = some b ∧ l.mapM f = some r := by
  rw [List.mapM_cons]
  cases f a <;> cases l.mapM f <;> simp

/-- What every step of a fold keeps that comes to its end. -/
theorem foldlM_some {f : β → α → Option β} {I : β → Prop} {l : List α}
    (hstep : ∀ b, ∀ a ∈ l, ∀ c, I b → f b a = some c → I c) {b c : β} (hb : I b)
    (h : l.foldlM f b = some c) : I c := by
  induction l generalizing b with
  | nil =>
    cases h
    exact hb
  | cons a l ih =>
    rw [List.foldlM_cons] at h
    obtain ⟨d, hd, hrest⟩ := Option.bind_eq_some_iff.mp h
    exact ih (fun b a' ha' => hstep b a' (List.mem_cons_of_mem a ha'))
      (hstep b a List.mem_cons_self d hb hd) hrest

/-- Every element of a checked fold was checked at some state of it. -/
theorem foldlM_mem {f : β → α → Except ε β} {l : List α} {b b' : β} (h : l.foldlM f b = .ok b') :
    ∀ a ∈ l, ∃ c c', f c a = .ok c' := by
  induction l generalizing b with
  | nil => simp
  | cons a l ih =>
    rw [List.foldlM_cons, bind_eq_ok] at h
    obtain ⟨c, hc, hrest⟩ := h
    rw [List.forall_mem_cons]
    exact ⟨⟨b, c, hc⟩, ih hrest⟩

/-- What every step of a checked fold does, the fold does, and what a step establishes of its
element still holds at the end. -/
theorem foldlM_each {f : β → α → Except ε β} {R : β → β → Prop} {P : α → β → Prop} {l : List α}
    (hrefl : ∀ b, R b b) (htrans : ∀ b c d, R b c → R c d → R b d)
    (hkeep : ∀ a b c, P a b → R b c → P a c)
    (hf : ∀ a ∈ l, ∀ b c, f b a = .ok c → R b c ∧ P a c) {b b' : β} (h : l.foldlM f b = .ok b') :
    R b b' ∧ ∀ a ∈ l, P a b' := by
  induction l generalizing b with
  | nil =>
    cases h
    exact ⟨hrefl _, by simp⟩
  | cons a l ih =>
    rw [List.foldlM_cons, bind_eq_ok] at h
    obtain ⟨c, hc, hrest⟩ := h
    rw [List.forall_mem_cons] at hf
    obtain ⟨hstep, ha⟩ := hf.1 b c hc
    obtain ⟨hrun, hl⟩ := ih hf.2 hrest
    exact ⟨htrans b c b' hstep hrun, List.forall_mem_cons.mpr ⟨hkeep a c b' ha hrun, hl⟩⟩

/-- A fold that does what another one does, as long as nothing spoils the state for good. -/
theorem foldlM_quiet {γ : Type} {f : β → α → Except ε β} {g : γ → α → Except ε γ} {p : β → γ}
    {Q : β → Prop} {l : List α} (hstep : ∀ a ∈ l, ∀ b b', f b a = .ok b' → Q b' →
      Q b ∧ g (p b) a = .ok (p b')) {b b' : β} (h : l.foldlM f b = .ok b')
    (hquiet : Q b') : Q b ∧ l.foldlM g (p b) = .ok (p b') := by
  induction l generalizing b with
  | nil =>
    cases h
    exact ⟨hquiet, rfl⟩
  | cons a l ih =>
    rw [List.foldlM_cons, bind_eq_ok] at h
    obtain ⟨c, hc, hrest⟩ := h
    rw [List.forall_mem_cons] at hstep
    obtain ⟨hquiet, hg⟩ := ih hstep.2 hrest
    obtain ⟨hquiet, hfirst⟩ := hstep.1 b c hc hquiet
    refine ⟨hquiet, ?_⟩
    rw [List.foldlM_cons, hfirst]
    exact hg

/-- A fold does not fail where its steps do not, under an invariant of the state. -/
theorem foldlM_error_of {f : β → α → Except ε β} {e : ε} {I : β → Prop} {l : List α}
    (hf : ∀ a ∈ l, ∀ b, I b → f b a ≠ .error e ∧ ∀ c, f b a = .ok c → I c) {b : β} (hb : I b) :
    l.foldlM f b ≠ .error e := by
  induction l generalizing b with
  | nil => exact fun heq => by cases heq
  | cons a l ih =>
    rw [List.forall_mem_cons] at hf
    obtain ⟨hstep, hinv⟩ := hf.1 b hb
    rw [List.foldlM_cons]
    cases hfa : f b a with
    | ok c => exact ih hf.2 (hinv c hfa)
    | error e' =>
      rintro heq
      cases heq
      exact hstep hfa

/-- A fold fails only with what its steps fail with. -/
theorem foldlM_error {f : β → α → Except ε β} {e : ε} (h : ∀ b a, f b a ≠ .error e) {l : List α}
    {b : β} : l.foldlM f b ≠ .error e :=
  foldlM_error_of (I := fun _ => True) (fun a _ b _ => ⟨h b a, fun _ _ => trivial⟩) trivial

/-- What every step of a fold keeps, the fold keeps. -/
theorem foldlM_keeps {σ : Type} {f : σ → α → Except ε σ} {I : σ → Prop}
    (hkeep : ∀ s a s', I s → f s a = .ok s' → I s') {l : List α} {s s' : σ} (hs : I s)
    (h : l.foldlM f s = .ok s') : I s' := by
  induction l generalizing s with
  | nil =>
    cases h
    exact hs
  | cons a l ih =>
    rw [List.foldlM_cons, bind_eq_ok] at h
    obtain ⟨t, ht, hrest⟩ := h
    exact ih (hkeep s a t hs ht) hrest

/-- A fold goes through exactly if every element is one that a step goes through for. -/
theorem foldlM_ok {σ : Type} {f : σ → α → Except ε σ} {I : σ → Prop} {P : α → Prop}
    (hkeep : ∀ s a s', I s → f s a = .ok s' → I s')
    (hok : ∀ s a, I s → ((∃ s', f s a = .ok s') ↔ P a)) {l : List α} {s : σ} (hs : I s) :
    (∃ s', l.foldlM f s = .ok s') ↔ ∀ a ∈ l, P a := by
  induction l generalizing s with
  | nil => exact iff_of_true ⟨s, rfl⟩ (by simp)
  | cons a l ih =>
    simp only [List.foldlM_cons, bind_eq_ok, List.forall_mem_cons, ← hok s a hs]
    constructor
    · rintro ⟨s', t, ht, hrest⟩
      exact ⟨⟨t, ht⟩, (ih (hkeep s a t hs ht)).mp ⟨s', hrest⟩⟩
    · rintro ⟨⟨t, ht⟩, hrest⟩
      obtain ⟨s', hs'⟩ := (ih (hkeep s a t hs ht)).mpr hrest
      exact ⟨s', t, ht, hs'⟩

end Checks
