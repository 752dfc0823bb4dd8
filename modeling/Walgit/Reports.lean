import Mathlib.Data.List.Nodup
import Walgit.Receive

/-!
# Push reports

The report of a push as text: a line for the unpacking and one for each ref. A reason that runs
over several lines is written as it is, so that what a client reads in the report is what it
reads in the lines, and not in the list the report was made of.
-/
namespace Walgit

open Text

/-- A ref of a request, and why its update was refused if it was. -/
abbrev Status := String × Option String

namespace Report

def unpackText : Option String → List Char
  | none => "unpack ok\n".toList
  | some message => "unpack ng ".toList ++ message.toList ++ ['\n']

def statusText : Status → List Char
  | (name, none) => "ok ".toList ++ name.toList ++ ['\n']
  | (name, some message) => "ng ".toList ++ name.toList ++ ' ' :: message.toList ++ ['\n']

/-- The text of `report_status`. -/
def body (unpack : Option String) (perRef : List Status) : List Char :=
  unpackText unpack ++ perRef.flatMap statusText

/-- The lines of a text; a newline ends a line and the last one needs none. -/
def splitLines : List Char → List (List Char)
  | [] => []
  | c :: cs =>
    if c = '\n' then [] :: splitLines cs
    else match splitLines cs with
      | [] => [[c]]
      | line :: lines => (c :: line) :: lines

/-- The ref a line is about, and whether its update was accepted. -/
def statusOf (line : List Char) : Option (List Char × Bool) :=
  if "ok ".toList.isPrefixOf line then some (line.drop 3, true)
  else if "ng ".toList.isPrefixOf line then some ((line.drop 3).takeWhile (· ≠ ' '), false)
  else none

/-- What a client reads in a text. -/
def statuses (text : List Char) : List (List Char × Bool) := (splitLines text).filterMap statusOf

/-- What a client reads in a message after its first line. -/
def runOn (message : String) : List (List Char × Bool) :=
  ((splitLines (message.toList ++ ['\n'])).drop 1).filterMap statusOf

section Lines

theorem splitLines_append (a b : List Char) :
    splitLines (a ++ '\n' :: b) = splitLines (a ++ ['\n']) ++ splitLines b := by
  induction a with
  | nil => simp [splitLines]
  | cons c a ih =>
    simp only [List.cons_append, splitLines]
    split_ifs
    · rw [ih, List.cons_append]
    · rw [ih]
      cases hlines : splitLines (a ++ ['\n']) with
      | nil =>
        exfalso
        cases a with
        | nil => simp [splitLines] at hlines
        | cons d a =>
          simp only [List.cons_append, splitLines] at hlines
          split_ifs at hlines
          split at hlines <;> simp at hlines
      | cons line lines => rfl

/-- What precedes a line without a newline belongs to it. -/
theorem splitLines_append_line {p t line : List Char} {lines : List (List Char)} (hp : '\n' ∉ p)
    (ht : splitLines t = line :: lines) : splitLines (p ++ t) = (p ++ line) :: lines := by
  induction p with
  | nil => exact ht
  | cons c p ih =>
    simp only [List.mem_cons, not_or] at hp
    simp only [List.cons_append, splitLines, if_neg (Ne.symm hp.1), ih hp.2]

theorem statuses_append (a b : List Char) :
    statuses (a ++ '\n' :: b) = statuses (a ++ ['\n']) ++ statuses b := by
  rw [statuses, splitLines_append, List.filterMap_append]
  rfl

/-- A line that begins with plain text and ends with a message. -/
theorem splitLines_message {p : List Char} (hp : '\n' ∉ p) (message : String) :
    ∃ first, splitLines (p ++ message.toList ++ ['\n']) =
      (p ++ first) :: (splitLines (message.toList ++ ['\n'])).drop 1 := by
  cases hlines : splitLines (message.toList ++ ['\n']) with
  | nil =>
    exfalso
    cases hm : message.toList with
    | nil => simp [hm, splitLines] at hlines
    | cons c cs =>
      simp only [hm, List.cons_append, splitLines] at hlines
      split_ifs at hlines
      split at hlines <;> simp at hlines
  | cons first rest =>
    refine ⟨first, ?_⟩
    rw [List.append_assoc, splitLines_append_line hp hlines]
    rfl

theorem statuses_unpackText (unpack : Option String) :
    statuses (unpackText unpack) = unpack.elim [] runOn := by
  cases unpack with
  | none =>
    have hnone : statuses (unpackText none) = [] := by decide
    exact hnone
  | some message =>
    have hp : '\n' ∉ "unpack ng ".toList := by decide
    obtain ⟨first, hlines⟩ := splitLines_message hp message
    have hnone : statusOf ("unpack ng ".toList ++ first) = none := by
      simp [statusOf, List.isPrefixOf]
    change statuses ("unpack ng ".toList ++ message.toList ++ ['\n']) = runOn message
    rw [statuses, hlines, List.filterMap_cons, hnone, runOn]

/-- A ref name that is one word of one line. -/
def Plain (name : String) : Prop := '\n' ∉ name.toList ∧ ' ' ∉ name.toList

theorem takeWhile_word {word : List Char} (rest : List Char) (h : ' ' ∉ word) :
    (word ++ ' ' :: rest).takeWhile (· ≠ ' ') = word := by
  rw [List.takeWhile_append_of_pos]
  · simp
  · intro c hc
    simpa using fun heq : c = ' ' => h (heq ▸ hc)

/-- A client reads the status that was written, and whatever its reason runs on to. -/
theorem statuses_statusText {s : Status} (h : Plain s.1) :
    statuses (statusText s) = (s.1.toList, s.2.isNone) :: s.2.elim [] runOn := by
  obtain ⟨name, reason⟩ := s
  cases reason with
  | none =>
    have hp : '\n' ∉ "ok ".toList ++ name.toList := by
      rw [List.mem_append, not_or]
      exact ⟨by decide, h.1⟩
    have hend : splitLines ['\n'] = [[]] := rfl
    rw [statusText, statuses, splitLines_append_line hp hend, List.append_nil]
    rfl
  | some message =>
    have hp : '\n' ∉ "ng ".toList ++ name.toList ++ [' '] := by
      simp only [List.mem_append, not_or]
      exact ⟨⟨by decide, h.1⟩, by decide⟩
    obtain ⟨first, hlines⟩ := splitLines_message hp message
    have htext : statusText (name, some message) =
        "ng ".toList ++ name.toList ++ [' '] ++ message.toList ++ ['\n'] := by
      simp [statusText]
    have hstatus : statusOf ("ng ".toList ++ name.toList ++ [' '] ++ first) =
        some (name.toList, false) := by
      have hword := takeWhile_word first h.2
      simpa [statusOf, List.isPrefixOf] using hword
    simp only [htext, statuses, hlines, List.filterMap_cons, hstatus, Option.elim_some, runOn,
      Option.isNone_some]

theorem unpackText_eq (unpack : Option String) : ∃ line, unpackText unpack = line ++ ['\n'] := by
  cases unpack with
  | none => exact ⟨"unpack ok".toList, rfl⟩
  | some message => exact ⟨_, rfl⟩

theorem statusText_eq (s : Status) : ∃ line, statusText s = line ++ ['\n'] := by
  obtain ⟨name, reason⟩ := s
  cases reason with
  | none => exact ⟨_, rfl⟩
  | some message =>
    exact ⟨"ng ".toList ++ name.toList ++ ' ' :: message.toList, by simp [statusText]⟩

/-- What a client reads in a report. -/
theorem statuses_body {unpack : Option String} {perRef : List Status}
    (h : ∀ s ∈ perRef, Plain s.1) :
    statuses (body unpack perRef) = unpack.elim [] runOn ++
      perRef.flatMap fun s => (s.1.toList, s.2.isNone) :: s.2.elim [] runOn := by
  have happend : ∀ text rest : List Char, (∃ line, text = line ++ ['\n']) →
      statuses (text ++ rest) = statuses text ++ statuses rest := by
    rintro text rest ⟨line, rfl⟩
    rw [List.append_assoc, List.singleton_append, statuses_append]
  have hrefs : statuses (perRef.flatMap statusText) =
      perRef.flatMap fun s => (s.1.toList, s.2.isNone) :: s.2.elim [] runOn := by
    clear unpack
    induction perRef with
    | nil => rfl
    | cons s perRef ih =>
      rw [List.forall_mem_cons] at h
      rw [List.flatMap_cons, List.flatMap_cons, happend _ _ (statusText_eq s),
        statuses_statusText h.1, ih h.2]
  rw [body, happend _ _ (unpackText_eq unpack), statuses_unpackText, hrefs]

end Lines

section Truth

/-- Every `ok` line is for a ref that was committed, and each ref of the request has one line. -/
structure Truthful (names : List String) (committed : String → Prop) (text : List Char) : Prop where
  ok : ∀ word, (word, true) ∈ statuses text → ∃ name, name.toList = word ∧ committed name
  once : ∀ name ∈ names, ((statuses text).filter fun x => x.1 = name.toList).length = 1

/-- A message does not run on to a line that reads as a status. -/
def Harmless (names : List String) (message : String) : Prop :=
  ∀ x ∈ runOn message, x.2 = false ∧ ∀ name ∈ names, x.1 ≠ name.toList

instance (names : List String) (message : String) : Decidable (Harmless names message) :=
  inferInstanceAs (Decidable (∀ x ∈ runOn message, _ ∧ _))

def messages (unpack : Option String) (perRef : List Status) : List String :=
  unpack.toList ++ perRef.filterMap Prod.snd

/-- A client reads one status for each entry, and what the messages run on to. -/
theorem statuses_perm {unpack : Option String} {perRef : List Status}
    (h : ∀ s ∈ perRef, Plain s.1) :
    (statuses (body unpack perRef)).Perm
      (perRef.map (fun s => (s.1.toList, s.2.isNone)) ++
        (messages unpack perRef).flatMap runOn) := by
  have hrefs : (perRef.flatMap fun s => (s.1.toList, s.2.isNone) :: s.2.elim [] runOn).Perm
      (perRef.map (fun s => (s.1.toList, s.2.isNone)) ++
        (perRef.filterMap Prod.snd).flatMap runOn) := by
    clear h
    induction perRef with
    | nil => exact .refl _
    | cons s perRef ih =>
      obtain ⟨name, reason⟩ := s
      rw [List.flatMap_cons, List.map_cons, List.cons_append, List.cons_append]
      refine List.Perm.cons _ ((ih.append_left _).trans ?_)
      cases reason with
      | none => simp
      | some message =>
        simp only [Option.elim_some, List.filterMap_cons, List.flatMap_cons]
        rw [← List.append_assoc, ← List.append_assoc]
        exact List.perm_append_comm.append_right _
  rw [statuses_body h, messages, List.flatMap_append, ← List.append_assoc]
  have hunpack : unpack.toList.flatMap runOn = unpack.elim [] runOn := by
    cases unpack <;> simp
  rw [hunpack]
  refine (hrefs.append_left _).trans ?_
  rw [← List.append_assoc]
  exact List.perm_append_comm.append_right _

theorem toList_injective : Function.Injective String.toList := fun _ _ h => String.toList_inj.mp h

/-- A report is truthful exactly if the refs are distinct, its messages are harmless and what it
calls ok was committed. -/
theorem truthful_iff {names : List String} {perRef : List Status} {unpack : Option String}
    {committed : String → Prop} (hnames : perRef.map Prod.fst = names)
    (hplain : ∀ name ∈ names, Plain name) (hcommitted : ∀ name, committed name → name ∈ names) :
    Truthful names committed (body unpack perRef) ↔
      names.Nodup ∧ (∀ m ∈ messages unpack perRef, Harmless names m) ∧
        ∀ s ∈ perRef, s.2 = none → committed s.1 := by
  have hperm : (statuses (body unpack perRef)).Perm _ := statuses_perm fun s hs =>
    hplain s.1 (hnames ▸ List.mem_map_of_mem hs)
  have hcount : ∀ name, ((statuses (body unpack perRef)).filter fun x => x.1 = name.toList).length =
      names.count name +
        (((messages unpack perRef).flatMap runOn).filter fun x => x.1 = name.toList).length := by
    intro name
    rw [(hperm.filter _).length_eq, List.filter_append, List.length_append, List.filter_map,
      List.length_map, ← hnames, List.count, List.countP_map, List.countP_eq_length_filter]
    congr 2
    refine List.filter_congr fun s _ => ?_
    simp only [Function.comp_apply, toList_injective.eq_iff]
    rfl
  constructor
  · rintro ⟨hok, honce⟩
    have hone : ∀ name ∈ names, names.count name = 1 ∧
        (((messages unpack perRef).flatMap runOn).filter fun x => x.1 = name.toList) = [] := by
      intro name hname
      have hpos := List.count_pos_iff.mpr hname
      have htotal := honce name hname
      rw [hcount] at htotal
      exact ⟨by omega, List.length_eq_zero_iff.mp (by omega)⟩
    have hmem : ∀ s ∈ perRef, s.2 = none → committed s.1 := by
      intro s hs hnone
      obtain ⟨name, hname, hc⟩ := hok s.1.toList (hperm.mem_iff.mpr (List.mem_append_left _
        (List.mem_map.mpr ⟨s, hs, by rw [hnone]; rfl⟩)))
      exact toList_injective hname ▸ hc
    refine ⟨List.nodup_iff_count.mpr fun name => ?_, fun m hm x hx => ?_, hmem⟩
    · by_cases hname : name ∈ names
      · exact (hone name hname).1.le
      · rw [List.count_eq_zero_of_not_mem hname]
        exact Nat.zero_le 1
    · have hrun : x ∈ (messages unpack perRef).flatMap runOn := List.mem_flatMap.mpr ⟨m, hm, hx⟩
      have hother : ∀ name ∈ names, x.1 ≠ name.toList := by
        intro name hname heq
        have := List.filter_eq_nil_iff.mp (hone name hname).2 x hrun
        simp [heq] at this
      refine ⟨?_, hother⟩
      by_contra htrue
      have hx : x = (x.1, true) := Prod.ext rfl (Bool.eq_true_of_not_eq_false htrue)
      rw [hx] at hrun
      obtain ⟨name, hname, hc⟩ := hok x.1 (hperm.mem_iff.mpr (List.mem_append_right _ hrun))
      exact hother name (hcommitted name hc) hname.symm
  · rintro ⟨hnodup, hharmless, hmem⟩
    have hrun : ∀ x ∈ (messages unpack perRef).flatMap runOn,
        x.2 = false ∧ ∀ name ∈ names, x.1 ≠ name.toList := by
      intro x hx
      obtain ⟨m, hm, hx⟩ := List.mem_flatMap.mp hx
      exact hharmless m hm x hx
    refine ⟨fun word hword => ?_, fun name hname => ?_⟩
    · rcases List.mem_append.mp (hperm.mem_iff.mp hword) with hentry | hrest
      · obtain ⟨s, hs, heq⟩ := List.mem_map.mp hentry
        simp only [Prod.mk.injEq, Option.isNone_iff_eq_none] at heq
        exact ⟨s.1, heq.1, hmem s hs heq.2⟩
      · exact absurd (hrun _ hrest).1 (by simp)
    · have hnone : ((messages unpack perRef).flatMap runOn).filter
          (fun x => x.1 = name.toList) = [] := by
        rw [List.filter_eq_nil_iff]
        intro x hx
        simpa using (hrun x hx).2 name hname
      rw [hcount, hnone, List.nodup_iff_count_eq_one.mp hnodup name hname]
      rfl

end Truth

end Report

end Walgit
