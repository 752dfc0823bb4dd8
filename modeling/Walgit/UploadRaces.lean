import Walgit.Runs
import Walgit.StripedUploads

/-!
# Racing uploads

Uploads of one file under one key share the names of their parts. Each of them puts its parts,
joins them and deletes them, one store call after the other, and the calls of several uploads come
in any order.
-/
namespace Walgit.StripedUpload

inductive Phase where
  /-- Parts that are not stored yet, in order. -/
  | putting (pending : List ℕ)
  | composing (calls : List Call)
  /-- The last call gave its result, and names are left to delete. -/
  | cleaning (result : Except StoreError Unit) (todo : List String)
  | done (result : Except StoreError Unit)

structure Upload where
  mode : PutMode
  phase : Phase

structure World where
  objects : Objects
  uploads : ℕ → Option Upload

/-- One store call of an upload. -/
inductive Action where
  /-- The file is measured; one that is not striped is put at once. -/
  | start (u : ℕ) (mode : PutMode)
  | put (u i : ℕ)
  | compose (u : ℕ)
  | delete (u : ℕ)
  deriving DecidableEq, Repr

def Action.upload : Action → ℕ
  | start u _ | put u _ | compose u | delete u => u

def Phase.result : Phase → Option (Except StoreError Unit)
  | cleaning result _ | done result => some result
  | _ => none

def Phase.finished : Phase → Bool
  | done _ => true
  | _ => false

def World.set (w : World) (u : ℕ) (objects : Objects) (x : Upload) : World :=
  ⟨objects, Function.update w.uploads u (some x)⟩

section Steps

variable (key : String) (file : List UInt8) (native : Bool) (parallelism : ℕ)

def nextPut (mode : PutMode) (pending : List ℕ) : Phase :=
  if pending = [] then .composing (composeCalls key file.length mode) else .putting pending

def nextDelete (result : Except StoreError Unit) (todo : List String) : Phase :=
  if todo = [] then .done result else .cleaning result todo

/-- A call before the last one ends the upload if it fails; the last one is followed by the
deletes either way. -/
def nextCompose (calls : List Call) (result : Except StoreError Unit) : Phase :=
  match calls, result with
  | [], result => nextDelete result (cleanup key file.length)
  | calls, .ok () => .composing calls
  | _, .error e => .done (.error e)

/-- A store call with its effect, and what the upload does next. -/
def answer (w : World) (u : ℕ) (mode : PutMode) (call : Except StoreError Objects)
    (next : Except StoreError Unit → Phase) : World :=
  match call with
  | .ok objects => w.set u objects ⟨mode, next (.ok ())⟩
  | .error e => w.set u w.objects ⟨mode, next (.error e)⟩

def step (w : World) : Action → Option World
  | .start u mode =>
    match w.uploads u with
    | some _ => none
    | none =>
      if striped native file.length then
        some (w.set u w.objects ⟨mode, .putting (List.range (parts file.length).length)⟩)
      else some (answer w u mode (put w.objects key file mode) .done)
  | .put u i =>
    match w.uploads u with
    | some ⟨mode, .putting pending⟩ =>
      if i ∈ pending.take (max parallelism 1) then
        some (answer w u mode (put w.objects (partKey key i) (part file i) .overwrite) fun
          | .ok () => nextPut key file mode (pending.erase i)
          | .error e => .done (.error e))
      else none
    | _ => none
  | .compose u =>
    match w.uploads u with
    | some ⟨mode, .composing (c :: calls)⟩ =>
      some (answer w u mode (compose w.objects c) (nextCompose key file calls))
    | _ => none
  | .delete u =>
    match w.uploads u with
    | some ⟨mode, .cleaning result (k :: todo)⟩ =>
      some (w.set u (Function.update w.objects k none) ⟨mode, nextDelete result todo⟩)
    | _ => none

/-- The objects an upload wrote that it reads later. -/
def Phase.needs : Phase → List String
  | putting pending =>
    ((List.range (parts file.length).length).filter (· ∉ pending)).map (partKey key)
  | composing calls => StripedUpload.needs calls
  | cleaning _ _ | done _ => []

/-- The name an upload deletes next. -/
def World.deletes (w : World) (u : ℕ) : Option String :=
  match w.uploads u with
  | some ⟨_, .cleaning _ (k :: _)⟩ => some k
  | _ => none

/-- Nothing is deleted that an upload still reads. -/
def Safe (w : World) : Action → Prop
  | .delete u => ∀ k ∈ w.deletes u, ∀ v x, w.uploads v = some x → k ∉ x.phase.needs key file
  | _ => True

end Steps

section Invariant

variable (key : String) (file : List UInt8) (native : Bool)

/-- A call that gave its result: it succeeded, or found the object it was to create. -/
def Fine (objects : Objects) (mode : PutMode) (result : Except StoreError Unit) : Prop :=
  (result = .ok () ∨ result = .error .preconditionFailed ∧ mode = .create) ∧
    objects key = some file

def Good (objects : Objects) (x : Upload) : Prop :=
  Ready key file objects (x.phase.needs key file) ∧
    match x.phase with
    | .putting pending => striped native file.length ∧ pending ≠ [] ∧
        ∀ i ∈ pending, i < (parts file.length).length
    | .composing calls => striped native file.length ∧ calls ≠ [] ∧
        calls <:+ composeCalls key file.length x.mode
    | .cleaning result todo => todo ≠ [] ∧ todo ⊆ cleanup key file.length ∧
        Fine key file objects x.mode result
    | .done result => Fine key file objects x.mode result

structure Inv (w : World) : Prop where
  object : w.objects key = none ∨ w.objects key = some file
  good : ∀ u x, w.uploads u = some x → Good key file native w.objects x

variable {key file native} {objects : Objects} {x : Upload} {k : String} {v : List UInt8}
  {w w' : World} {u : ℕ}

/-- Where the objects change, a stage keeps what it needs and what a finished call left. -/
theorem Good.onto {objects' : Objects} (h : Good key file native objects x)
    (hready : Ready key file objects' (x.phase.needs key file))
    (hobject : objects key = some file → objects' key = some file) :
    Good key file native objects' x := by
  obtain ⟨-, hphase⟩ := h
  refine ⟨hready, ?_⟩
  cases hx : x.phase with
  | putting pending | composing calls =>
    rw [hx] at hphase
    exact hphase
  | cleaning result todo =>
    rw [hx] at hphase
    exact ⟨hphase.1, hphase.2.1, hphase.2.2.1, hobject hphase.2.2.2⟩
  | done result =>
    rw [hx] at hphase
    exact ⟨hphase.1, hobject hphase.2⟩

theorem Good.write (h : Good key file native objects x) (hv : Expected key file k v) :
    Good key file native (Function.update objects k (some v)) x := by
  refine h.onto (fun j hj w hw => ?_) fun hobject => ?_
  · by_cases hjk : j = k
    · subst hjk
      rw [Function.update_self, hv.unique hw]
    · rw [Function.update_of_ne hjk]
      exact h.1 j hj w hw
  · by_cases hk : key = k
    · subst hk
      rw [Function.update_self, hv.unique expected_whole]
    · rwa [Function.update_of_ne hk]

theorem Good.erase (h : Good key file native objects x) (hkey : k ≠ key)
    (hneeds : k ∉ x.phase.needs key file) :
    Good key file native (Function.update objects k none) x := by
  refine h.onto (fun j hj w hw => ?_) fun hobject => by rwa [Function.update_of_ne hkey.symm]
  have hjk : j ≠ k := fun heq => hneeds (heq ▸ hj)
  rw [Function.update_of_ne hjk]
  exact h.1 j hj w hw

theorem inv_set (hobject : objects key = none ∨ objects key = some file)
    (hothers : ∀ y, (∃ v, w.uploads v = some y) → Good key file native objects y)
    (hx : Good key file native objects x) : Inv key file native (w.set u objects x) := by
  refine ⟨hobject, fun v y hy => ?_⟩
  simp only [World.set] at hy ⊢
  by_cases hvu : v = u
  · subst hvu
    rw [Function.update_self, Option.some.injEq] at hy
    exact hy ▸ hx
  · rw [Function.update_of_ne hvu] at hy
    exact hothers y ⟨v, hy⟩

theorem Inv.kept (h : Inv key file native w) (hx : Good key file native w.objects x) :
    Inv key file native (w.set u w.objects x) :=
  inv_set h.object (fun y ⟨v, hy⟩ => h.good v y hy) hx

theorem Inv.wrote (h : Inv key file native w) (hv : Expected key file k v)
    (hx : Good key file native (Function.update w.objects k (some v)) x) :
    Inv key file native (w.set u (Function.update w.objects k (some v)) x) := by
  refine inv_set ?_ (fun y ⟨j, hy⟩ => (h.good j y hy).write hv) hx
  by_cases hk : key = k
  · subst hk
    rw [Function.update_self, hv.unique expected_whole]
    exact Or.inr rfl
  · rw [Function.update_of_ne hk]
    exact h.object

theorem Inv.erased (h : Inv key file native w) (hkey : k ≠ key)
    (hneeds : ∀ v y, w.uploads v = some y → k ∉ y.phase.needs key file)
    (hx : Good key file native (Function.update w.objects k none) x) :
    Inv key file native (w.set u (Function.update w.objects k none) x) := by
  refine inv_set ?_ (fun y ⟨j, hy⟩ => (h.good j y hy).erase hkey (hneeds j y hy)) hx
  rw [Function.update_of_ne hkey.symm]
  exact h.object

theorem ne_of_mem_cleanup (hk : k ∈ cleanup key file.length) : k ≠ key := by
  rcases List.mem_append.mp hk with hpart | hmid
  · obtain ⟨i, -, rfl⟩ := List.mem_map.mp hpart
    exact partKey_ne
  · split_ifs at hmid
    · simp at hmid
    · rw [mids_dest] at hmid
      obtain ⟨g, -, rfl⟩ := List.mem_map.mp hmid
      exact midKey_ne

theorem parts_pos (h : striped native file.length) : 0 < (parts file.length).length := by
  have hpos : 0 < file.length := by
    simp only [striped, Bool.and_eq_true, decide_eq_true_eq] at h
    omega
  rw [parts, Stripes.length_stripes]
  exact Stripes.count_pos (partSize_pos _) hpos

/-- An object that is there when it is to be created is the file. -/
theorem Inv.fine_of_isSome (h : Inv key file native w) {mode : PutMode} (hmode : mode = .create)
    (hsome : (w.objects key).isSome) : Fine key file w.objects mode (.error .preconditionFailed) := by
  refine ⟨Or.inr ⟨rfl, hmode⟩, h.object.resolve_left fun hnone => ?_⟩
  rw [hnone] at hsome
  cases hsome

theorem Good.cleaning {mode : PutMode} {result : Except StoreError Unit}
    (hfine : Fine key file objects mode result) {todo : List String}
    (htodo : todo ⊆ cleanup key file.length) :
    Good key file native objects ⟨mode, nextDelete result todo⟩ := by
  unfold nextDelete
  split_ifs with hnil
  · exact ⟨fun k hk => absurd hk List.not_mem_nil, hfine⟩
  · exact ⟨fun k hk => absurd hk List.not_mem_nil, hnil, htodo, hfine⟩

end Invariant

section Preservation

variable {key : String} {file : List UInt8} {native : Bool} {parallelism : ℕ} {w w' : World}
  {u : ℕ} {mode : PutMode}

theorem Inv.start (h : Inv key file native w)
    (hstep : step key file native parallelism w (.start u mode) = some w') :
    Inv key file native w' := by
  simp only [step] at hstep
  split at hstep
  · cases hstep
  · split_ifs at hstep with hstriped
    · cases hstep
      refine h.kept ⟨fun k hk => ?_, hstriped, ?_, fun i hi => List.mem_range.mp hi⟩
      · obtain ⟨i, hi, -⟩ := List.mem_map.mp hk
        obtain ⟨hmem, hout⟩ := List.mem_filter.mp hi
        simp [hmem] at hout
      · intro hnil
        have hlength := congrArg List.length hnil
        rw [List.length_range, List.length_nil] at hlength
        exact absurd (parts_pos hstriped) (by omega)
    · cases hstep
      unfold answer put
      split_ifs with hfull
      · exact h.kept ⟨fun k hk => absurd hk List.not_mem_nil, h.fine_of_isSome hfull.1 hfull.2⟩
      · exact h.wrote expected_whole
          ⟨fun k hk => absurd hk List.not_mem_nil, Or.inl rfl, Function.update_self ..⟩

theorem Inv.put {i : ℕ} (h : Inv key file native w)
    (hstep : step key file native parallelism w (.put u i) = some w') :
    Inv key file native w' := by
  simp only [step] at hstep
  split at hstep
  · rename_i m pending hu
    split_ifs at hstep with hi
    cases hstep
    obtain ⟨hready, hstriped, -, hbelow⟩ := h.good u _ hu
    have hlt := hbelow i (List.mem_of_mem_take hi)
    have hwrite : StripedUpload.put w.objects (partKey key i) (part file i) .overwrite =
        .ok (Function.update w.objects (partKey key i) (some (part file i))) := by
      simp [StripedUpload.put]
    rw [hwrite]
    have hparts : ∀ j < (parts file.length).length, j ∉ pending.erase i →
        Function.update w.objects (partKey key i) (some (part file i)) (partKey key j) =
          some (part file j) := by
      intro j hj hout
      by_cases hji : j = i
      · rw [hji, Function.update_self]
      · rw [Function.update_of_ne fun heq => hji (partKey_inj.mp heq)]
        refine hready _ (List.mem_map_of_mem (List.mem_filter.mpr
          ⟨List.mem_range.mpr hj, ?_⟩)) _ (expected_part hj)
        simpa [List.mem_erase_of_ne hji] using hout
    refine h.wrote (expected_part hlt) ?_
    unfold nextPut
    split_ifs with hnil
    · refine ⟨fun k hk v hv => ?_, hstriped, ?_, List.suffix_refl _⟩
      · obtain ⟨j, hj, rfl⟩ := needs_parts hk
        rw [hparts j hj (by simp [hnil]), hv.unique (expected_part hj)]
      · unfold composeCalls
        split_ifs <;> simp
    · refine ⟨fun k hk v hv => ?_, hstriped, hnil,
        fun j hj => hbelow j (List.mem_of_mem_erase hj)⟩
      obtain ⟨j, hj, rfl⟩ := List.mem_map.mp hk
      obtain ⟨hmem, hout⟩ := List.mem_filter.mp hj
      have hlt := List.mem_range.mp hmem
      rw [hparts j hlt (by simpa using hout), hv.unique (expected_part hlt)]
  · cases hstep

theorem Inv.compose (hsize : striped native file.length → file.length ≤ 2 ^ 40)
    (h : Inv key file native w)
    (hstep : step key file native parallelism w (.compose u) = some w') :
    Inv key file native w' := by
  simp only [step] at hstep
  split at hstep
  · rename_i m c calls hu
    cases hstep
    obtain ⟨hready, hstriped, -, hsuffix⟩ := h.good u _ hu
    have hpos : 0 < file.length := by
      simp only [striped, Bool.and_eq_true, decide_eq_true_eq] at hstriped
      omega
    obtain ⟨v, hv, hcompose, hready'⟩ := compose_step hsuffix (hsize hstriped) hpos hready
    rw [hcompose]
    rcases dest_of_mem (hsuffix.subset List.mem_cons_self) with ⟨hdest, hm⟩ | ⟨⟨g, hg⟩, hm⟩
    · -- the last call
      obtain rfl := (dest_eq_key hsuffix).mp hdest
      rw [hdest] at hv
      rw [hdest, hm]
      unfold answer StripedUpload.put
      split_ifs with hfull
      · exact h.kept (.cleaning (h.fine_of_isSome hfull.1 hfull.2) (List.Subset.refl _))
      · obtain rfl := hv.unique expected_whole
        exact h.wrote hv (.cleaning ⟨Or.inl rfl, Function.update_self ..⟩ (List.Subset.refl _))
    · have hne : calls ≠ [] := fun hnil =>
        midKey_ne (hg.symm.trans ((dest_eq_key hsuffix).mpr hnil))
      have hwrite : StripedUpload.put w.objects c.dest v c.mode =
          .ok (Function.update w.objects c.dest (some v)) := by
        simp [StripedUpload.put, hm]
      rw [hwrite]
      refine h.wrote hv ?_
      cases calls with
      | nil => exact absurd rfl hne
      | cons d calls =>
        exact ⟨hready', hstriped, by simp, (List.suffix_cons c _).trans hsuffix⟩
  · cases hstep

theorem Inv.delete (h : Inv key file native w) (hsafe : Safe key file w (.delete u))
    (hstep : step key file native parallelism w (.delete u) = some w') :
    Inv key file native w' := by
  simp only [step] at hstep
  split at hstep
  · rename_i m result k todo hu
    cases hstep
    obtain ⟨-, -, htodo, hresult, hobject⟩ := h.good u _ hu
    have hk := ne_of_mem_cleanup (htodo List.mem_cons_self)
    refine h.erased hk (hsafe k ?_) (.cleaning ⟨hresult, ?_⟩ ?_)
    · simp [World.deletes, hu]
    · rwa [Function.update_of_ne hk.symm]
    · exact (List.cons_subset.mp htodo).2
  · cases hstep

end Preservation

section Uploads

variable (key : String) (file : List UInt8)

/-- A bound on the store calls an upload still makes. -/
def Upload.remaining (x : Upload) : ℕ :=
  match x.phase with
  | .putting pending => pending.length + (composeCalls key file.length x.mode).length +
      (cleanup key file.length).length
  | .composing calls => calls.length + (cleanup key file.length).length
  | .cleaning _ todo => todo.length
  | .done _ => 0

variable {key file} {native : Bool} {parallelism : ℕ} {w : World} {u : ℕ} {x : Upload}

variable (w u) in
theorem remaining_answer {mode : PutMode} (call : Except StoreError Objects)
    {next : Except StoreError Unit → Phase} {n : ℕ}
    (h : ∀ r, (⟨mode, next r⟩ : Upload).remaining key file < n) :
    ∃ x', (answer w u mode call next).uploads u = some x' ∧ x'.remaining key file < n := by
  cases call with
  | ok objects => exact ⟨_, Function.update_self .., h _⟩
  | error e => exact ⟨_, Function.update_self .., h _⟩

variable (key file) in
theorem remaining_nextDelete (mode : PutMode) (result : Except StoreError Unit)
    (todo : List String) :
    (⟨mode, nextDelete result todo⟩ : Upload).remaining key file ≤ todo.length := by
  unfold nextDelete
  split_ifs
  · exact Nat.zero_le _
  · exact Nat.le_refl _

/-- An upload that has not ended has a call to make, and each call brings its end nearer. -/
theorem Inv.progress (h : Inv key file native w) (hu : w.uploads u = some x)
    (hopen : x.phase.finished = false) : ∃ a w' x', a.upload = u ∧
      step key file native parallelism w a = some w' ∧ w'.uploads u = some x' ∧
      x'.remaining key file < x.remaining key file := by
  obtain ⟨mode, phase⟩ := x
  have hgood := (h.good u _ hu).2
  cases phase with
  | putting pending =>
    obtain ⟨-, hne, -⟩ := hgood
    cases pending with
    | nil => exact absurd rfl hne
    | cons i pending =>
      have htake : i ∈ (i :: pending).take (max parallelism 1) := by
        obtain ⟨n, hn⟩ : ∃ n, max parallelism 1 = n + 1 :=
          ⟨max parallelism 1 - 1, by omega⟩
        simp [hn]
      have hless : ∀ r : Except StoreError Unit, (⟨mode, match r with
          | .ok () => nextPut key file mode pending
          | .error e => .done (.error e)⟩ : Upload).remaining key file <
          (⟨mode, .putting (i :: pending)⟩ : Upload).remaining key file := by
        rintro (e | r)
        · simp only [Upload.remaining, List.length_cons]
          omega
        · dsimp only [nextPut]
          split_ifs with hnil
          · simp only [Upload.remaining, List.length_cons]
            omega
          · simp only [Upload.remaining, List.length_cons]
            omega
      obtain ⟨x', hx', hlt⟩ := remaining_answer w u
        (StripedUpload.put w.objects (partKey key i) (part file i) .overwrite) hless
      refine ⟨.put u i, _, x', rfl, ?_, hx', hlt⟩
      simp only [step, hu, if_pos htake, List.erase_cons_head]
  | composing calls =>
    obtain ⟨-, hne, -⟩ := hgood
    cases calls with
    | nil => exact absurd rfl hne
    | cons c calls =>
      have hless : ∀ r : Except StoreError Unit,
          (⟨mode, nextCompose key file calls r⟩ : Upload).remaining key file <
            (⟨mode, .composing (c :: calls)⟩ : Upload).remaining key file := by
        intro r
        cases calls with
        | nil =>
          have hle := remaining_nextDelete key file mode r
            (cleanup key file.length)
          simp only [nextCompose, Upload.remaining, List.length_cons, List.length_nil] at hle ⊢
          omega
        | cons d calls =>
          cases r with
          | ok r =>
            simp only [nextCompose, Upload.remaining, List.length_cons]
            omega
          | error e =>
            simp only [nextCompose, Upload.remaining, List.length_cons]
            omega
      obtain ⟨x', hx', hlt⟩ := remaining_answer w u
        (StripedUpload.compose w.objects c) hless
      exact ⟨.compose u, _, x', rfl, by simp only [step, hu], hx', hlt⟩
  | cleaning result todo =>
    obtain ⟨hne, -⟩ := hgood
    cases todo with
    | nil => exact absurd rfl hne
    | cons k todo =>
      refine ⟨.delete u, w.set u (Function.update w.objects k none) ⟨mode, nextDelete result todo⟩,
        ⟨mode, nextDelete result todo⟩, rfl, by simp only [step, hu], Function.update_self .., ?_⟩
      exact Nat.lt_succ_of_le (remaining_nextDelete key file mode result todo)
  | done result => cases hopen

end Uploads

section ThreeParts

variable {file : List UInt8} (hstriped : striped true file.length)
variable (hthree : (parts file.length).length = 3)

include hthree in
theorem calls_of_three :
    composeCalls "k" file.length .create =
      [⟨"k", [partKey "k" 0, partKey "k" 1, partKey "k" 2], .create⟩] ∧
    cleanup "k" file.length = [partKey "k" 0, partKey "k" 1, partKey "k" 2] := by
  have hrange : List.range 3 = [0, 1, 2] := rfl
  constructor
  · simp [composeCalls, hthree, partKeys, hrange]
  · simp [cleanup, hthree, partKeys, hrange]

include hstriped hthree in
/-- One upload alone, up to its compose. -/
theorem run_alone : ∃ w, Runs.run (step "k" file true 8) ⟨fun _ => none, fun _ => none⟩
      [.start 0 .create, .put 0 1, .put 0 0, .put 0 2, .compose 0] = some w ∧
    ∃ x, w.uploads 0 = some x ∧ x.phase.result = some (.ok ()) := by
  obtain ⟨hcalls, hclean⟩ := calls_of_three hthree
  have hrange : List.range 3 = [0, 1, 2] := rfl
  have hne : ∀ i, "k" ≠ partKey "k" i := fun i => partKey_ne.symm
  simp [hne, Runs.run, step, hstriped, hthree, hrange, answer, put, compose, World.set, nextPut,
    nextCompose, nextDelete, hcalls, hclean, partKey_inj, Phase.result]

include hstriped hthree in
/-- The deletes of one upload come between the last part of another one and its compose. -/
theorem run_disturbed : ∃ w, Runs.run (step "k" file true 8) ⟨fun _ => none, fun _ => none⟩
      [.start 0 .create, .start 1 .create, .put 1 0, .put 1 1, .put 1 2, .put 0 0, .put 0 1,
        .put 0 2, .compose 0, .delete 0, .compose 1, .delete 1, .delete 1, .delete 1] = some w ∧
    w.uploads 1 = some ⟨.create, .done (.error .notFound)⟩ := by
  obtain ⟨hcalls, hclean⟩ := calls_of_three hthree
  have hrange : List.range 3 = [0, 1, 2] := rfl
  have hne : ∀ i, "k" ≠ partKey "k" i := fun i => partKey_ne.symm
  simp [hne, Runs.run, step, hstriped, hthree, hrange, answer, put, compose, World.set, nextPut,
    nextCompose, nextDelete, hcalls, hclean, partKey_inj]

/-- A file of three parts, the last one of a byte. -/
@[irreducible] def threeParts : List UInt8 := List.replicate (2 ^ 27 + 1) 0

theorem length_threeParts : threeParts.length = 2 ^ 27 + 1 := by
  rw [threeParts, List.length_replicate]

end ThreeParts

end Walgit.StripedUpload
