import Walgit.LargeFileRuns

/-!
# What the large file store keeps

The invariant of the runs. Only verified bodies are written, each under the key of its own hash, and
nothing is deleted, so a look that finds an object finds its content at every later time.
-/
namespace Walgit.Lfs

open StaticObject (Headers Look Method Object Response ServeOptions serve storeOf Describes)

section Keys

theorem slash_notMem (o : Oid) : '/' ∉ o.text.toList := by
  intro h
  have hall := (Bool.and_eq_true_iff.mp o.ok).2
  have := List.all_eq_true.mp hall '/' h
  revert this
  decide

/-- Each key is of one object. -/
theorem lfsKey_injective : Function.Injective lfsKey := by
  intro a b hab
  have hlast : ∀ o : Oid, ((lfsKey o).toList.reverse.takeWhile (· ≠ '/')) = o.text.toList.reverse := by
    intro o
    have hkey : (lfsKey o).toList.reverse = o.text.toList.reverse ++ '/' ::
        ("lfs/objects/".toList ++ o.text.toList.take 2 ++ '/' ::
          (o.text.toList.drop 2).take 2).reverse := by
      simp [lfsKey, String.toList_append]
    rw [hkey, List.takeWhile_append_of_pos, List.takeWhile_cons_of_neg (by simp), List.append_nil]
    intro c hc
    have hne : c ≠ '/' := by
      rintro rfl
      exact slash_notMem o (List.mem_reverse.mp hc)
    simpa using hne
  have htext : a.text = b.text := by
    rw [← String.toList_inj, ← List.reverse_inj, ← hlast a, ← hlast b, hab]
  cases a
  cases b
  cases htext
  rfl

end Keys

section Serving

variable {isHeaderValue : String → Bool} {key : String} {method : Method} {h : Headers}
  {opts : ServeOptions} {first second : Look}

/-- An answer is about what one of the looks came upon. -/
theorem lookedAt_or (isHeaderValue : String → Bool) (method : Method) (h : Headers)
    (first second : Look) :
    StaticObject.lookedAt isHeaderValue method h first second = first ∨
      StaticObject.lookedAt isHeaderValue method h first second = second := by
  unfold StaticObject.lookedAt
  split
  · exact Or.inr rfl
  · exact Or.inl rfl
  · split
    · split_ifs
      · exact Or.inl rfl
      · exact Or.inr rfl
    · exact Or.inl rfl

theorem serveWhole_notFound (hsecond : second ≠ .error .notFound) {m : String}
    (hserve : StaticObject.serveWhole isHeaderValue (storeOf key first second) key h opts =
      .error (.notFound m)) : second = .ok none := by
  cases second with
  | error e =>
    cases e with
    | notFound => exact absurd rfl hsecond
    | preconditionFailed | other =>
      simp [StaticObject.serveWhole, storeOf, StaticObject.ApiError.ofStore] at hserve
  | ok found =>
    cases found with
    | none => rfl
    | some o =>
      rw [StaticObject.serveWhole_some rfl] at hserve
      cases hserve

theorem servePartial_notFound (hsecond : second ≠ .error .notFound) {info : Gcs.ObjectMeta}
    {range : ℕ × ℕ} {m : String}
    (hserve : StaticObject.servePartial isHeaderValue (storeOf key first second) info range opts =
      .error (.notFound m)) : second = .ok none := by
  cases second with
  | error e =>
    cases e with
    | notFound => exact absurd rfl hsecond
    | preconditionFailed | other =>
      simp [StaticObject.servePartial, storeOf, StaticObject.ApiError.ofStore] at hserve
  | ok found =>
    cases found with
    | none => rfl
    | some o =>
      simp only [StaticObject.servePartial, storeOf, Object.get] at hserve
      split_ifs at hserve
      all_goals simp [StaticObject.ApiError.ofStore] at hserve

/-- An answer that there is no such object comes from a look that found none. -/
theorem serve_notFound (hfirst : first ≠ .error .notFound) (hsecond : second ≠ .error .notFound)
    {m : String}
    (hserve : serve isHeaderValue (storeOf key first second) key method h opts =
      .error (.notFound m)) : first = .ok none ∨ second = .ok none := by
  by_cases hwhole : method = .get ∧ StaticObject.parseRange h.range = none
  · obtain ⟨rfl, hrange⟩ := hwhole
    rw [StaticObject.serve_get_whole hrange] at hserve
    exact Or.inr (serveWhole_notFound hsecond hserve)
  cases first with
  | error e =>
    cases e with
    | notFound => exact absurd rfl hfirst
    | preconditionFailed | other =>
      cases method with
      | head => simp [serve, storeOf, Except.map, StaticObject.ApiError.ofStore] at hserve
      | get =>
        obtain ⟨spec, hrange⟩ := Option.ne_none_iff_exists'.mp fun hnone => hwhole ⟨rfl, hnone⟩
        simp [serve, hrange, storeOf, Except.map, StaticObject.ApiError.ofStore] at hserve
  | ok found =>
    cases found with
    | none => exact Or.inl rfl
    | some o =>
      refine Or.inr ?_
      cases method with
      | head =>
        rw [StaticObject.serve_head rfl] at hserve
        split_ifs at hserve
      | get =>
        obtain ⟨spec, hrange⟩ := Option.ne_none_iff_exists'.mp fun hnone => hwhole ⟨rfl, hnone⟩
        rw [StaticObject.serve_get_range hrange rfl] at hserve
        split_ifs at hserve
        · cases hresolve : spec.resolve o.size with
          | none =>
            rw [hresolve] at hserve
            cases hserve
          | some range =>
            rw [hresolve] at hserve
            exact servePartial_notFound hsecond hserve
        · exact serveWhole_notFound hsecond hserve

end Serving

section Batches

theorem BatchRun.mem_held {r : BatchRun} {o : Oid} :
    o ∈ r.held ↔ ∃ i size : ℕ, r.objects[i]? = some (o, size) ∧ r.present[i]? = some true := by
  rw [BatchRun.held, List.mem_filterMap]
  constructor
  · rintro ⟨⟨⟨oid, size⟩, there⟩, hmem, hrow⟩
    obtain ⟨i, hi⟩ := List.mem_iff_getElem?.mp hmem
    obtain ⟨hobject, hpresent⟩ := List.getElem?_zip_eq_some.mp hi
    simp only at hrow
    split_ifs at hrow with hthere
    cases hrow
    rw [hthere] at hpresent
    exact ⟨i, size, hobject, hpresent⟩
  · rintro ⟨i, size, hobject, hpresent⟩
    exact ⟨((o, size), true),
      List.mem_iff_getElem?.mpr ⟨i, List.getElem?_zip_eq_some.mpr ⟨hobject, hpresent⟩⟩, rfl⟩

/-- The object that is asked for next is held if the store has it. -/
theorem BatchRun.held_look {r : BatchRun} {o : Oid × ℕ} {there : Bool}
    (hnext : r.objects[r.present.length]? = some o) {held : Oid}
    (h : held ∈ ({ r with present := r.present ++ [there] } : BatchRun).held) :
    held ∈ r.held ∨ held = o.1 ∧ there = true := by
  obtain ⟨i, size, hobject, hpresent⟩ := BatchRun.mem_held.mp h
  change r.objects[i]? = _ at hobject
  change (r.present ++ [there])[i]? = _ at hpresent
  rcases Nat.lt_trichotomy i r.present.length with hlt | heq | hgt
  · rw [List.getElem?_append_left hlt] at hpresent
    exact Or.inl (BatchRun.mem_held.mpr ⟨i, size, hobject, hpresent⟩)
  · rw [heq, List.getElem?_concat_length] at hpresent
    rw [heq, hnext] at hobject
    cases hobject
    exact Or.inr ⟨rfl, Option.some.inj hpresent⟩
  · rw [List.getElem?_eq_none (by simp; omega)] at hpresent
    cases hpresent

/-- A batch call is answered object by object; a client is only told not to upload what is held here
or offered by the upstream. -/
structure BatchAnswer.Ok (a : BatchAnswer) : Prop where
  rows : a.objects.map (fun x => (x.oid, x.size)) = a.run.objects.map fun o => (o.1.text, o.2)
  told : ∀ x ∈ a.objects, x.authenticated = some true →
    (∃ o ∈ a.run.held, o.text = x.oid) ∨ (a.found.find? x.oid).isSome = true

theorem respond_row (serveVia : LfsServe) (base : String) (isUpload : Bool) (o : Oid) (size : ℕ)
    (held atUpstream : Bool) (signed : Option String) :
    (respond serveVia base isUpload o size held atUpstream signed).oid = o.text ∧
      (respond serveVia base isUpload o size held atUpstream signed).size = size ∧
      ((respond serveVia base isUpload o size held atUpstream signed).authenticated = some true →
        held = true ∨ atUpstream = true) := by
  unfold respond
  split_ifs with htold <;> simp_all

theorem BatchRun.answer_ok {r : BatchRun} (hall : r.objects.length ≤ r.present.length)
    (found : SortedMap String UpstreamObject) (signed : Oid → Option String) :
    (⟨r, found, r.answer found signed⟩ : BatchAnswer).Ok := by
  constructor
  · have hzip : (r.objects.zip r.present).map Prod.fst = r.objects := List.map_fst_zip hall
    conv_rhs => rw [← hzip]
    simp only [BatchRun.answer, List.map_map]
    refine List.map_congr_left fun p _ => ?_
    obtain ⟨hoid, hsize, -⟩ := respond_row r.serveVia r.base r.isUpload p.1.1 p.1.2 p.2
      (!p.2 && (found.find? p.1.1.text).isSome) (signed p.1.1)
    exact Prod.ext hoid hsize
  · intro x hx htold
    obtain ⟨⟨⟨o, size⟩, there⟩, hmem, rfl⟩ := List.mem_map.mp hx
    obtain ⟨hoid, -, hwhy⟩ := respond_row r.serveVia r.base r.isUpload o size there
      (!there && (found.find? o.text).isSome) (signed o)
    rw [hoid]
    rcases hwhy htold with hthere | hup
    · refine Or.inl ⟨o, ?_, rfl⟩
      rw [BatchRun.held, List.mem_filterMap]
      exact ⟨_, hmem, by rw [hthere]; rfl⟩
    · exact Or.inr (Bool.and_eq_true_iff.mp hup).2

end Batches

theorem of_update_some {α : Type} {f : ℕ → Option α} {i j : ℕ} {a b : α}
    (h : Function.update f i (some a) j = some b) : b = a ∨ f j = some b := by
  rw [Function.update_apply] at h
  split_ifs at h
  · exact Or.inl (Option.some.inj h).symm
  · exact Or.inr h

section Safety

variable {t : Tools}

/-- An object that a look came upon. While the store has this version, it has this content. -/
structure Site.Seen (t : Tools) (s : Site) (o : Oid) (obj : Object) : Prop where
  addressed : t.sha256 obj.content = o.text
  kept : ∃ v, obj.version = t.versionText v ∧ v < s.bucket.next ∧
    ∀ blob, s.bucket.objects (lfsKey o) = some (v, blob) → blob.bytes = obj.content

/-- What a download knows in a phase. -/
def GetPhase.Ok (t : Tools) (s : Site) (run : GetRun) : GetPhase → Prop
  | .asking _ | .looking => True
  | .looked (.ok (some obj)) => s.Seen t run.oid obj
  | .looked (.ok none) => run.promised = false
  | .looked (.error e) => e = .other
  | .through _ => run.promised = true → run.blind = true
  | .served (.ok r) => ∃ obj : Object, t.sha256 obj.content = run.oid.text ∧
    Describes t.isHeaderValue run.method run.headers obj r
  | .served (.error e) => ∀ m, e = .notFound m → run.promised = false
  | .streamed answer => ∀ m, answer = .error (.notFound m) → run.promised = true → run.blind = true

structure GetRun.Ok (t : Tools) (s : Site) (run : GetRun) : Prop where
  held : run.promised = true → s.present run.oid = true
  phase : run.phase.Ok t s run

/-- Every object is stored under its own hash. -/
def Addressed (t : Tools) (b : ObjectStore String Blob) : Prop :=
  ∀ o v blob, b.objects (lfsKey o) = some (v, blob) → t.sha256 blob.bytes = o.text

/-- The invariant. -/
structure Site.Ok (t : Tools) (s : Site) : Prop where
  bounded : s.bucket.Bounded
  addressed : Addressed t s.bucket
  promised : ∀ o ∈ s.promised, s.present o = true
  batches : ∀ b r, s.batches b = some r → ∀ o ∈ r.held, s.present o = true
  puts : ∀ p put, s.puts p = some put → t.sha256 put.blob.bytes = put.oid.text ∧
    (put.landed = true → s.present put.oid = true)
  gets : ∀ g run, s.gets g = some run → run.Ok t s
  answered : ∀ a ∈ s.answered, a.Ok ∧ ∀ o ∈ a.run.held, s.present o = true

theorem GetPhase.Ok.grow {s s' : Site} {run : GetRun} {phase : GetPhase} (h : phase.Ok t s run)
    (hb : s.bucket.Grows s'.bucket) : phase.Ok t s' run := by
  cases phase with
  | asking | looking | through | streamed => exact h
  | served answer => cases answer <;> exact h
  | looked first =>
    cases first with
    | error e => exact h
    | ok found =>
      cases found with
      | none => exact h
      | some obj =>
        obtain ⟨haddressed, v, hversion, hlt, hkept⟩ := h
        exact ⟨haddressed, v, hversion, Nat.lt_of_lt_of_le hlt hb.next,
          fun blob hblob => hkept blob (hb.objects_of_lt hlt hblob)⟩

/-- What a step keeps that lets the store grow and leaves the requests it changes in order. -/
theorem Site.Ok.keep {s s' : Site} (h : s.Ok t) (hb : s.bucket.Grows s'.bucket)
    (haddressed : Addressed t s'.bucket)
    (hpromised : ∀ o ∈ s'.promised, o ∈ s.promised ∨ s'.present o = true)
    (hbatches : ∀ b r, s'.batches b = some r → s.batches b = some r ∨
      ∀ o ∈ r.held, s'.present o = true)
    (hputs : ∀ p put, s'.puts p = some put → s.puts p = some put ∨
      t.sha256 put.blob.bytes = put.oid.text ∧ (put.landed = true → s'.present put.oid = true))
    (hgets : ∀ g run, s'.gets g = some run → s.gets g = some run ∨ run.Ok t s')
    (hanswered : ∀ a ∈ s'.answered, a ∈ s.answered ∨
      a.Ok ∧ ∀ o ∈ a.run.held, s'.present o = true) :
    s.bucket.Grows s'.bucket ∧ s'.Ok t := by
  have hkeys : ∀ o, s.present o = true → s'.present o = true := fun o => hb.keys (lfsKey o)
  refine ⟨hb, hb.bounded h.bounded, haddressed, fun o ho => ?_, fun b r hr => ?_, fun p put hput => ?_,
    fun g run hrun => ?_, fun a ha => ?_⟩
  · exact (hpromised o ho).elim (fun ho => hkeys o (h.promised o ho)) id
  · exact (hbatches b r hr).elim (fun hr o ho => hkeys o (h.batches b r hr o ho)) id
  · rcases hputs p put hput with hput | hnew
    · exact ⟨(h.puts p put hput).1, fun hlanded => hkeys _ ((h.puts p put hput).2 hlanded)⟩
    · exact hnew
  · rcases hgets g run hrun with hrun | hnew
    · obtain ⟨hheld, hphase⟩ := h.gets g run hrun
      exact ⟨fun hp => hkeys _ (hheld hp), hphase.grow hb⟩
    · exact hnew
  · rcases hanswered a ha with ha | hnew
    · exact ⟨(h.answered a ha).1, fun o ho => hkeys o ((h.answered a ha).2 o ho)⟩
    · exact hnew

/-- A download that goes on changes what is known of it, and nothing else. -/
theorem Site.Ok.setGet {s : Site} (h : s.Ok t) {g : ℕ} {run : GetRun} (hrun : run.Ok t s) :
    s.bucket.Grows (s.setGet g run).bucket ∧ (s.setGet g run).Ok t := by
  refine h.keep (.refl _) h.addressed (fun _ => Or.inl) (fun _ _ => Or.inl) (fun _ _ => Or.inl)
    (fun g' run' hg => ?_) fun _ => Or.inl
  rcases of_update_some hg with rfl | hg
  · exact Or.inr ⟨hrun.held, hrun.phase.grow (.refl _)⟩
  · exact Or.inl hg

theorem Site.Ok.startPut {s : Site} (h : s.Ok t) {p : ℕ} {o : Oid} {bytes : List UInt8}
    (hbytes : t.sha256 bytes = o.text) :
    s.bucket.Grows (s.startPut p o bytes).bucket ∧ (s.startPut p o bytes).Ok t := by
  unfold Site.startPut
  split_ifs with hsmall
  · refine h.keep (.refl _) h.addressed (fun _ => Or.inl) (fun _ _ => Or.inl) (fun p' put hput => ?_)
      (fun _ _ => Or.inl) fun _ => Or.inl
    rcases of_update_some hput with rfl | hput
    · refine Or.inr ⟨hbytes, fun hlanded => ?_⟩
      cases hlanded
    · exact Or.inl hput
  · exact ⟨.refl _, h⟩

/-- What a look finds, it has seen. -/
theorem Site.Ok.look {s : Site} (h : s.Ok t) {o : Oid} {failed : Bool} {obj : Object}
    (hlook : s.look t o failed = .ok (some obj)) : s.Seen t o obj := by
  unfold Site.look at hlook
  split_ifs at hlook
  obtain ⟨⟨v, blob⟩, hstored, rfl⟩ := Option.map_eq_some_iff.mp (Except.ok.inj hlook)
  refine ⟨h.addressed o v blob hstored, v, rfl, h.bounded _ v blob hstored, fun found hfound => ?_⟩
  rw [hstored] at hfound
  cases hfound
  rfl

theorem look_missed {s : Site} {o : Oid} {failed : Bool} (hlook : s.look t o failed = .ok none) :
    s.present o = false := by
  unfold Site.look at hlook
  split_ifs at hlook
  rw [Site.present, Option.map_eq_none_iff.mp (Except.ok.inj hlook)]
  rfl

theorem look_failed {s : Site} {o : Oid} {failed : Bool} {e : Gcs.StoreError}
    (hlook : s.look t o failed = .error e) : e = .other := by
  unfold Site.look at hlook
  split_ifs at hlook
  cases hlook
  rfl

/-- Two looks that show one version show one content. -/
theorem Site.Seen.named {s : Site} (hversion : Function.Injective t.versionText) {o : Oid}
    {failed : Bool} {obj obj' : Object} (hseen : s.Seen t o obj)
    (hlook : s.look t o failed = .ok (some obj')) (hsame : obj'.version = obj.version) :
    obj' = obj := by
  obtain ⟨v, hv, -, hkept⟩ := hseen.kept
  unfold Site.look at hlook
  split_ifs at hlook
  obtain ⟨⟨v', blob⟩, hstored, rfl⟩ := Option.map_eq_some_iff.mp (Except.ok.inj hlook)
  have hvv : v' = v := hversion (hsame.trans hv)
  rw [hvv] at hstored
  have hbytes := hkept blob hstored
  cases obj
  cases hsame
  cases hbytes
  rfl

/-- An answer from the store is about an object of that hash. -/
theorem Site.Ok.answer {s : Site} (h : s.Ok t) (hversion : Function.Injective t.versionText)
    {run : GetRun} {failed : Bool} {first : Look}
    (hheld : run.promised = true → s.present run.oid = true)
    (hfirst : (GetPhase.looked first).Ok t s run) :
    (GetPhase.served ((serve t.isHeaderValue
      (storeOf (lfsKey run.oid) first (s.look t run.oid failed)) (lfsKey run.oid)
        run.method run.headers run.opts).mapError (servedError run.id run.oid))).Ok t s run := by
  cases hserve : serve t.isHeaderValue
      (storeOf (lfsKey run.oid) first (s.look t run.oid failed)) (lfsKey run.oid)
      run.method run.headers run.opts with
  | error e =>
    rintro m hm
    refine Bool.eq_false_iff.mpr fun hp => ?_
    cases e with
    | conflict | internal => cases hm
    | notFound key =>
      have hfound : first ≠ .error .notFound := by
        rintro rfl
        cases hfirst
      rcases serve_notFound hfound (fun hlook => by cases look_failed hlook) hserve with rfl | hmiss
      · rw [show run.promised = false from hfirst] at hp
        cases hp
      · have habsent := look_missed hmiss
        rw [hheld hp] at habsent
        cases habsent
  | ok r =>
    have hnamed : ∀ o o', first = .ok (some o) → s.look t run.oid failed = .ok (some o') →
        o'.version = o.version → o' = o := by
      rintro o o' rfl hlook hsame
      exact Site.Seen.named hversion hfirst hlook hsame
    obtain ⟨obj, hlooked, hdescribes⟩ := StaticObject.serve_describes hnamed hserve
    refine ⟨obj, ?_, hdescribes⟩
    rcases lookedAt_or t.isHeaderValue run.method run.headers first (s.look t run.oid failed)
      with heq | heq
    · rw [heq] at hlooked
      rw [hlooked] at hfirst
      exact Site.Seen.addressed hfirst
    · rw [heq] at hlooked
      exact (h.look hlooked).addressed

theorem readThrough_kept {o : Oid} {size : ℕ} {method : Method} {rows : Option (List UpstreamRow)}
    {transfer : Transfer} {bytes : List UInt8}
    (h : (readThrough t.sha256 o size method rows transfer).2 = some bytes) :
    t.sha256 bytes = o.text := by
  unfold readThrough at h
  split at h
  · cases h
  · split at h
    · cases h
    · cases h
    · cases h
    · rename_i hopened _
      simp only at h
      split_ifs at h with hpersists
      cases h
      simp only [Transfer.persists, Bool.and_eq_true, decide_eq_true_eq] at hpersists
      exact hpersists.1.2

theorem requireLfsOid_text {oid : String} {o : Oid}
    (h : (requireLfsOid oid).mapError PutRefusal.api = .ok o) : oid = o.text := by
  unfold requireLfsOid at h
  split_ifs at h
  · cases h
    rfl
  · cases h

theorem putObject_ok {cfg : LfsConfig} {c : Caller} {oid : String}
    {chunks : List (Except String (List UInt8))} {o : Oid} {body : List UInt8}
    (h : putObject t.sha256 cfg c oid chunks = .ok (o, body)) : t.sha256 body = o.text := by
  unfold putObject at h
  obtain ⟨-, -, h⟩ := Checks.bind_eq_ok.mp h
  obtain ⟨-, -, h⟩ := Checks.bind_eq_ok.mp h
  obtain ⟨-, -, h⟩ := Checks.bind_eq_ok.mp h
  obtain ⟨o', ho', h⟩ := Checks.bind_eq_ok.mp h
  obtain ⟨-, -, h⟩ := Checks.bind_eq_ok.mp h
  obtain ⟨body', -, h⟩ := Checks.bind_eq_ok.mp h
  split_ifs at h with hhash
  cases h
  rw [← requireLfsOid_text ho']
  exact not_not.mp hhash

theorem verified_present {s : Site} {o : Oid} {size : ℕ}
    (h : verified o size ((s.bucket.objects (lfsKey o)).map fun p => p.2.bytes.length) = .ok ()) :
    s.present o = true := by
  rw [Site.present]
  cases hfind : s.bucket.objects (lfsKey o) with
  | none =>
    rw [hfind] at h
    cases h
  | some p => rfl

/-- Every step lets the store grow and keeps the invariant. -/
theorem Site.Ok.step {s s' : Site} (h : s.Ok t) (hversion : Function.Injective t.versionText)
    {e : Event} (hstep : s.step t e = some s') : s.bucket.Grows s'.bucket ∧ s'.Ok t := by
  cases e with
  | batch b cfg c base r =>
    simp only [Site.step] at hstep
    split at hstep
    · cases hstep
      refine h.keep (.refl _) h.addressed (fun _ => Or.inl) (fun b' r' hr => ?_) (fun _ _ => Or.inl)
        (fun _ _ => Or.inl) fun _ => Or.inl
      rcases of_update_some hr with rfl | hr
      · refine Or.inr fun o ho => ?_
        simp [BatchRun.held] at ho
      · exact Or.inl hr
    · cases hstep
  | look b failed =>
    obtain ⟨r, hr, hstep⟩ := Option.bind_eq_some_iff.mp hstep
    obtain ⟨o, ho, hstep⟩ := Option.bind_eq_some_iff.mp hstep
    cases hstep
    refine h.keep (.refl _) h.addressed (fun _ => Or.inl) (fun b' r' hr' => ?_) (fun _ _ => Or.inl)
      (fun _ _ => Or.inl) fun _ => Or.inl
    rcases of_update_some hr' with rfl | hr'
    · refine Or.inr fun held hheld => ?_
      rcases BatchRun.held_look ho hheld with hheld | ⟨rfl, hthere⟩
      · exact h.batches b r hr held hheld
      · exact (Bool.and_eq_true_iff.mp hthere).2
    · exact Or.inl hr'
  | respond b upstream rows signed =>
    obtain ⟨r, hr, hstep⟩ := Option.bind_eq_some_iff.mp hstep
    by_cases hmore : r.present.length < r.objects.length
    · rw [if_pos hmore] at hstep
      cases hstep
    rw [if_neg hmore] at hstep
    cases hstep
    refine h.keep (.refl _) h.addressed (fun o ho => ?_) (fun b' r' hr' => ?_) (fun _ _ => Or.inl)
      (fun _ _ => Or.inl) fun a ha => ?_
    · rcases List.mem_append.mp ho with ho | ho
      · exact Or.inr (h.batches b r hr o ho)
      · exact Or.inl ho
    · change Function.update s.batches b none b' = some r' at hr'
      rw [Function.update_apply] at hr'
      split_ifs at hr'
      exact Or.inl hr'
    · rcases List.mem_cons.mp ha with rfl | ha
      · exact Or.inr ⟨BatchRun.answer_ok (not_lt.mp hmore) _ _, h.batches b r hr⟩
      · exact Or.inl ha
  | get g cfg c upstream oid size method headers opts =>
    simp only [Site.step] at hstep
    split at hstep
    · cases hstep
      refine h.setGet ⟨fun hp => h.promised _ (by simpa using hp), ?_⟩
      split_ifs <;> trivial
    · cases hstep
  | ask g failed =>
    obtain ⟨run, hrun, hstep⟩ := Option.bind_eq_some_iff.mp hstep
    have hok := h.gets g run hrun
    split at hstep
    · by_cases hthere : (!failed && s.present run.oid) = true
      · rw [if_pos hthere] at hstep
        cases hstep
        exact h.setGet ⟨hok.held, trivial⟩
      · rw [if_neg hthere] at hstep
        cases hstep
        refine h.setGet ⟨hok.held, fun hp => ?_⟩
        have hpresent : s.present run.oid = true := hok.held hp
        simpa [hpresent] using hthere
    · cases hstep
  | first g failed =>
    obtain ⟨run, hrun, hstep⟩ := Option.bind_eq_some_iff.mp hstep
    have hok := h.gets g run hrun
    split at hstep
    · cases hstep
      refine h.setGet ⟨hok.held, ?_⟩
      cases hlook : s.look t run.oid failed with
      | error e => exact look_failed hlook
      | ok found =>
        cases found with
        | none =>
          refine Bool.eq_false_iff.mpr fun hp => ?_
          have habsent := look_missed hlook
          rw [hok.held hp] at habsent
          cases habsent
        | some obj => exact h.look hlook
    · cases hstep
  | second g failed =>
    obtain ⟨run, hrun, hstep⟩ := Option.bind_eq_some_iff.mp hstep
    have hok := h.gets g run hrun
    split at hstep
    · rename_i first hphase
      cases hstep
      refine h.setGet ⟨hok.held, ?_⟩
      have hfirst := hok.phase
      rw [hphase] at hfirst
      exact h.answer hversion hok.held hfirst
    · cases hstep
  | through g p rows transfer =>
    obtain ⟨run, hrun, hstep⟩ := Option.bind_eq_some_iff.mp hstep
    have hok := h.gets g run hrun
    split at hstep
    · rename_i size hphase _
      cases hstep
      have hrun' : GetRun.Ok t s { run with
          phase := .streamed (readThrough t.sha256 run.oid size run.method rows transfer).1 } :=
        ⟨hok.held, fun _ _ => by
          have hthrough := hok.phase
          rwa [hphase] at hthrough⟩
      obtain ⟨hgrows, hset⟩ := h.setGet (g := g) hrun'
      cases hkept : (readThrough t.sha256 run.oid size run.method rows transfer).2 with
      | none => exact ⟨hgrows, hset⟩
      | some bytes => exact hset.startPut (readThrough_kept hkept)
    · cases hstep
  | put p cfg c oid chunks =>
    simp only [Site.step] at hstep
    split at hstep
    · rename_i o body _ hput
      cases hstep
      exact h.startPut (putObject_ok hput)
    · cases hstep
  | land p =>
    obtain ⟨put, hput, hstep⟩ := Option.bind_eq_some_iff.mp hstep
    cases hstep
    have hhash := (h.puts p put hput).1
    refine h.keep (.write _ _ _) (fun o v blob hfind => ?_) (fun _ => Or.inl) (fun _ _ => Or.inl)
      (fun p' put' hput' => ?_) (fun _ _ => Or.inl) fun _ => Or.inl
    · rw [ObjectStore.write_objects] at hfind
      split_ifs at hfind with hkey
      · cases hfind
        rw [lfsKey_injective hkey]
        exact hhash
      · exact h.addressed o v blob hfind
    · rcases of_update_some hput' with rfl | hput'
      · exact Or.inr ⟨hhash, fun _ => s.bucket.write_isSome _ _⟩
      · exact Or.inl hput'
  | reply p ok =>
    obtain ⟨put, hput, hstep⟩ := Option.bind_eq_some_iff.mp hstep
    by_cases hrefused : (put.answer.isSome || (ok && !put.landed)) = true
    · rw [if_pos hrefused] at hstep
      cases hstep
    rw [if_neg hrefused] at hstep
    cases hstep
    refine h.keep (.refl _) h.addressed (fun o ho => ?_) (fun _ _ => Or.inl)
      (fun p' put' hput' => ?_) (fun _ _ => Or.inl) fun _ => Or.inl
    · cases ok with
      | false => exact Or.inl ho
      | true =>
        have hlanded : put.landed = true := by
          simp only [Bool.true_and, Bool.or_eq_true, not_or, Bool.not_eq_true',
            Bool.not_eq_false] at hrefused
          exact hrefused.2
        rcases List.mem_cons.mp ho with rfl | ho
        · exact Or.inr ((h.puts p put hput).2 hlanded)
        · exact Or.inl ho
    · rcases of_update_some hput' with rfl | hput'
      · exact Or.inr (h.puts p put hput)
      · exact Or.inl hput'
  | verify cfg c oid size =>
    simp only [Site.step] at hstep
    split at hstep
    · rename_i o _
      split at hstep
      · rename_i hverified
        cases hstep
        refine h.keep (.refl _) h.addressed (fun o' ho' => ?_) (fun _ _ => Or.inl)
          (fun _ _ => Or.inl) (fun _ _ => Or.inl) fun _ => Or.inl
        rcases List.mem_cons.mp ho' with rfl | ho'
        · exact Or.inr (verified_present hverified)
        · exact Or.inl ho'
      · cases hstep
    · cases hstep

/-- A run lets the store grow and keeps the invariant. -/
theorem Site.Ok.run {s s' : Site} (h : s.Ok t) (hversion : Function.Injective t.versionText)
    {events : List Event} (hrun : Runs.run (Site.step t) s events = some s') :
    s.bucket.Grows s'.bucket ∧ s'.Ok t := by
  refine Runs.invariant (I := fun x => s.bucket.Grows x.bucket ∧ x.Ok t)
    (fun x _ x' hx _ hstep => ?_) hrun (Runs.allSteps_true s events) ⟨.refl _, h⟩
  obtain ⟨hgrows, hok⟩ := hx.2.step hversion hstep
  exact ⟨hx.1.trans hgrows, hok⟩

end Safety

section Uploaded

/-- What the store served. -/
def GetPhase.response : GetPhase → Option Response
  | .served (.ok r) => some r
  | _ => none

theorem GetPhase.response_eq_some {phase : GetPhase} {r : Response} :
    phase.response = some r ↔ phase = .served (.ok r) := by
  unfold GetPhase.response
  split
  · simp
  · simp_all

def hexOid : String := String.ofList (List.replicate 64 'a')

def versionMarks (v : ℕ) : String := String.ofList (List.replicate v 'v')

theorem versionMarks_injective : Function.Injective versionMarks := by
  intro v w h
  have hlength := congrArg (fun t => t.toList.length) h
  simpa [versionMarks] using hlength

/-- One text has a hash. -/
def siteTools : Tools :=
  ⟨fun bytes => if bytes = [1, 2, 3] then hexOid else "", versionMarks, fun _ => true⟩

def lfsHost : LfsConfig := ⟨true, .proxy, 1024⟩

def everyone : Caller := ⟨⟨"acme", "big"⟩, .ok (), true, fun _ => .ok ()⟩

/-- Two chunks are uploaded, and the client is told that they are there. -/
def uploaded : List Event :=
  [.put 0 lfsHost everyone hexOid [.ok [1, 2], .ok [3]], .land 0, .reply 0 true]

def downloaded : List Event :=
  [.get 0 lfsHost everyone false hexOid 3 .get ⟨none, none, []⟩ StaticObject.plain, .first 0 false,
    .second 0 false]

end Uploaded

end Walgit.Lfs
