import Walgit.Access
import Walgit.Text

/-!
# The forge fold

Issues and pull requests are a fold of the log's forge events. `apply` is the only
interpretation of an event, `verify` the precondition the publisher checks.
-/
namespace Walgit

open Text

inductive ItemKind where
  | issue
  | pull
  deriving DecidableEq, Repr

inductive ItemState where
  | opened
  | closed
  deriving DecidableEq, Repr

namespace ItemState

def text : ItemState → String
  | opened => "open"
  | closed => "closed"

end ItemState

inductive Timeline where
  | comment (body : String) (edited deleted : Bool)
  | closed (reason : String)
  | reopened
  | renamed (before after : String)
  | labeled (added removed : List String)
  | assigned (added removed : List String)
  | merged (method commit : String)
  | draft (draft : Bool)
  | referenced (source : ℕ)
  | review (state body commitOid : String) (comments : List ForgeLineComment)
  deriving DecidableEq, Repr

structure TimelineItem where
  id : ℕ
  actor : String
  actorId : String
  time : String
  event : Timeline
  deriving DecidableEq, Repr

structure Item where
  number : ℕ
  kind : ItemKind
  title : String
  body : String
  edited : Bool
  author : String
  authorId : String
  state : ItemState
  stateReason : String
  labels : SortedMap String Unit
  assignees : SortedMap String Unit
  createdAt : String
  updatedAt : String
  closedAt : Option String
  comments : ℕ
  baseRef : String
  headRef : String
  baseOid : String
  headOid : String
  reviewDecision : String
  merged : Bool
  draft : Bool
  mergeCommit : String
  reviews : SortedMap String String
  timeline : List TimelineItem
  deriving DecidableEq

structure LabelDef where
  name : String
  color : String
  description : String
  deriving DecidableEq, Repr

/-- The folded forge state at a log position. -/
structure ForgeState where
  seq : ℕ
  items : SortedMap ℕ Item
  labels : SortedMap String LabelDef
  records : List ForgeRecord
  deriving DecidableEq

/-- Applies a set change and returns what actually changed. -/
def changeSet (set : SortedMap String Unit) (c : ForgeSetChange) :
    SortedMap String Unit × List String × List String :=
  let (set, added) := c.add.foldl (fun (acc : SortedMap String Unit × List String) v =>
    if (acc.1.find? v).isSome then acc else (acc.1.insert v (), acc.2 ++ [v])) (set, [])
  let (set, removed) := c.remove.foldl (fun (acc : SortedMap String Unit × List String) v =>
    if (acc.1.find? v).isSome then (acc.1.erase v, acc.2 ++ [v]) else acc) (set, [])
  (set, added, removed)

/-- Rewrites the first element that satisfies the test. -/
def modifyFirst {α : Type} (p : α → Bool) (f : α → α) : List α → List α
  | [] => []
  | a :: l => if p a then f a :: l else a :: modifyFirst p f l

/-- Time as the forge shows it; an absent timestamp is the epoch. -/
def forgeTime (at? : Option Timestamp) : String :=
  rfc3339Secs ((at?.map Timestamp.toSystem).getD 0 / 1000000000)

namespace Item

def opened (ev : ForgeEvent) (time : String) (o : ForgeOpened) : Item where
  number := ev.number
  kind := if o.kind = .pull then .pull else .issue
  title := o.title
  body := o.body
  edited := false
  author := ev.actor
  authorId := ev.actorId
  state := .opened
  stateReason := ""
  labels := .setOf o.labels
  assignees := .setOf o.assignees
  createdAt := time
  updatedAt := time
  closedAt := none
  comments := 0
  baseRef := o.baseRef
  headRef := o.headRef
  baseOid := o.baseOid
  headOid := o.headOid
  reviewDecision := ""
  merged := false
  draft := o.draft
  mergeCommit := ""
  reviews := .empty
  timeline := []

def push (item : Item) (id : ℕ) (time : String) (ev : ForgeEvent) (event : Timeline) : Item :=
  { item with timeline := item.timeline ++ [⟨id, ev.actor, ev.actorId, time, event⟩] }

def editBody (b : String) (t : TimelineItem) : TimelineItem :=
  match t.event with
  | .comment _ _ deleted => { t with event := .comment b true deleted }
  | _ => t

def deleteBody (t : TimelineItem) : TimelineItem :=
  match t.event with
  | .comment _ edited _ => { t with event := .comment "" edited true }
  | _ => t

/-- A comment edit: the first timeline entry with that id, if it is a comment. -/
def editComment (item : Item) (e : ForgeEdit) : Item :=
  let rewrite := fun f => modifyFirst (fun t => t.id == e.commentId) f item.timeline
  match (item.timeline.find? (fun t => t.id == e.commentId)).map TimelineItem.event, e.change with
  | some (.comment _ _ _), some (.body b) => { item with timeline := rewrite (editBody b) }
  | some (.comment _ _ false), some (.deleted true) =>
    { item with timeline := rewrite deleteBody, comments := item.comments - 1 }
  | _, _ => item

/-- The decision each reviewer's latest deciding review leads to. -/
def decision (reviews : SortedMap String String) : String :=
  if reviews.values.any (· == "changes_requested") then "changes_requested"
  else if reviews.values.any (· == "approved") then "approved"
  else ""

/-- An event on an existing item, after `updated_at` was set. -/
def applyBody (item : Item) (id : ℕ) (time : String) (ev : ForgeEvent) : ForgeBody → Item
  | .opened _ => item
  | .label _ => item
  | .draft d => { item with draft := d.draft }.push id time ev (.draft d.draft)
  | .comment c =>
    { item with comments := item.comments + 1 }.push id time ev (.comment c.body false false)
  | .edit e =>
    if e.commentId = 0 then
      match e.change with
      | some (.title t) => { item with title := t }.push id time ev (.renamed item.title t)
      | some (.body b) => { item with body := b, edited := true }
      | _ => item
    else item.editComment e
  | .state s =>
    if s.closed then
      { item with
        state := .closed
        stateReason := s.reason
        closedAt := some time
        baseOid := if s.headOid ≠ "" then s.baseOid else item.baseOid
        headOid := if s.headOid ≠ "" then s.headOid else item.headOid
        : Item }.push id time ev (.closed s.reason)
    else
      { item with state := .opened, stateReason := "", closedAt := none }.push id time ev .reopened
  | .labels c =>
    let (set, added, removed) := changeSet item.labels c
    { item with labels := set }.push id time ev (.labeled added removed)
  | .assignees c =>
    let (set, added, removed) := changeSet item.assignees c
    { item with assignees := set }.push id time ev (.assigned added removed)
  | .merged m =>
    { item with
      state := .closed
      merged := true
      mergeCommit := m.mergeCommitOid
      closedAt := some time
      baseOid := m.baseOid
      headOid := m.headOid }.push id time ev (.merged m.method m.mergeCommitOid)
  | .review r =>
    let reviews := if r.state ≠ "commented" then item.reviews.insert ev.actor r.state
      else item.reviews
    { item with
      reviews := reviews
      reviewDecision := if r.state ≠ "commented" then decision reviews
        else item.reviewDecision }.push id time ev
          (.review r.state r.body r.commitOid r.comments)

end Item

/-- The value of a digit string, unless it is empty or exceeds 64 bits. -/
def parseNumber (digits : List Char) : Option ℕ :=
  let n := digits.foldl (fun acc c => acc * 10 + (c.toNat - '0'.toNat)) 0
  if digits.isEmpty || 2 ^ 64 ≤ n then none else some n

section Fold

variable [CharTables]

/-- References `#n` in the rest of a text, given the character before it. -/
def mentionsFrom (prev : Char) : List Char → List ℕ
  | [] => []
  | c :: rest =>
    let here := if c = '#' && !(CharTables.isAlphanumeric prev || prev ∈ ['&', '/', '#'])
      then (parseNumber (rest.takeWhile Char.isDigit)).toList else []
    here ++ mentionsFrom c rest

def mentions (text : String) : List ℕ := (SortedMap.setOf (mentionsFrom ' ' text.toList)).keys

namespace ForgeEvent

/-- The text an event contributes to cross references. -/
def text (ev : ForgeEvent) : Option String :=
  match ev.body with
  | some (.opened o) => some (o.title ++ " " ++ o.body)
  | some (.comment c) => some c.body
  | some (.edit e) =>
    match e.change with
    | some (.title t) => some t
    | some (.body b) => some b
    | _ => none
  | some (.review r) => some (r.comments.foldl (fun s c => s ++ " " ++ c.body) r.body)
  | _ => none

end ForgeEvent

namespace Item

/-- The `Referenced` entry an item gets, once per source item. -/
def reference (item : Item) (id : ℕ) (time : String) (ev : ForgeEvent) : Item :=
  if item.timeline.any (fun t => t.event == .referenced ev.number) then item
  else item.push id time ev (.referenced ev.number)

end Item

namespace ForgeState

def empty : ForgeState := ⟨0, .empty, .empty, []⟩

instance : Inhabited ForgeState := ⟨empty⟩

def crossReference (s : ForgeState) (id : ℕ) (time : String) (ev : ForgeEvent) : ForgeState :=
  match ev.text with
  | none => s
  | some text =>
    let targets := (mentions text).filter (· ≠ ev.number)
    { s with items := targets.foldl (fun items n => items.modify n (·.reference id time ev)) s.items }

def apply (s : ForgeState) (id : ℕ) (time : String) (ev : ForgeEvent) : ForgeState :=
  match ev.body with
  | none => s
  | some (.label l) =>
    if l.deleted then
      { s with
        labels := s.labels.erase l.name
        items := s.items.mapValues fun i => { i with labels := i.labels.erase l.name } }
    else
      { s with labels := s.labels.insert l.name ⟨l.name, l.color, l.description⟩ }
  | some (.opened o) => { s with items := s.items.insert ev.number (Item.opened ev time o) }
  | some body =>
    { s with items := s.items.modify ev.number fun i =>
        { i with updatedAt := time }.applyBody id time ev body }

/-- The events of one record, in order; an event's id is its entry and its index. -/
def applyEvents (s : ForgeState) (seq : ℕ) (time : String) : ℕ → List ForgeEvent → ForgeState
  | _, [] => s
  | i, ev :: evs =>
    let id := seq <<< 10 ||| i
    applyEvents ((s.apply id time ev).crossReference id time ev) seq time (i + 1) evs

def applyRecord (s : ForgeState) (r : ForgeRecord) : ForgeState :=
  let s := s.applyEvents r.seq (forgeTime r.at?) 0 r.events
  { s with records := s.records ++ [r] }

def fromHistory (h : ForgeHistory) : ForgeState :=
  { h.records.foldl applyRecord empty with seq := h.seq }

def historyUpto (s : ForgeState) (seq : ℕ) : ForgeHistory :=
  ⟨seq, s.records.filter fun r => r.seq ≤ seq⟩

/-- One entry after the state's position; earlier ones are skipped. -/
def foldEntry (s : ForgeState) (e : LogEntry) : ForgeState :=
  if e.seq ≤ s.seq then s
  else
    let s := if e.forge.isEmpty then s else s.applyRecord ⟨e.seq, e.createdAt, e.forge⟩
    { s with seq := e.seq }

theorem foldEntry_seq (s : ForgeState) (e : LogEntry) : (s.foldEntry e).seq = max s.seq e.seq := by
  unfold foldEntry
  by_cases hle : e.seq ≤ s.seq
  · rw [if_pos hle]
    omega
  · rw [if_neg hle]
    simp only
    omega

/-- A state at `n` ends where a list of the entries after `n` does. -/
theorem foldl_foldEntry_seq (s : ForgeState) (n : ℕ) {es : List LogEntry} (hs : s.seq = n)
    (hseqs : es.map LogEntry.seq = List.range' (n + 1) es.length) :
    (es.foldl foldEntry s).seq = n + es.length := by
  induction es generalizing s n with
  | nil => simpa using hs
  | cons e es ih =>
    rw [List.map_cons, List.length_cons, List.range'_succ, List.cons.injEq] at hseqs
    rw [List.foldl_cons, ih _ (n + 1) _ hseqs.2, List.length_cons]
    · omega
    · rw [foldEntry_seq, hseqs.1, hs]
      omega

/-- `entries` are every committed entry after `after`; a state behind `after` stays put. -/
def foldEntries (s : ForgeState) (after : ℕ) (entries : List LogEntry) : ForgeState :=
  if s.seq < after then s else entries.foldl foldEntry s

/-- The item opened by the entry at `seq`. -/
def openedAt (s : ForgeState) (seq : ℕ) : Option ℕ := do
  let r ← s.records.reverse.find? fun r => r.seq == seq
  let e ← r.events.find? fun e => match e.body with
    | some (.opened _) => true
    | _ => false
  pure e.number

/-- Fills the numbers of `opened` events from `next` and returns the next free number. -/
def number : List ForgeEvent → ℕ → List ForgeEvent × ℕ
  | [], next => ([], next)
  | ev :: evs, next =>
    match ev.body with
    | some (.opened _) =>
      let r := number evs (next + 1)
      ({ ev with number := next } :: r.1, r.2)
    | _ =>
      let r := number evs next
      (ev :: r.1, r.2)

end ForgeState

/-- Review rules: open pull requests only, no verdict on one's own, and something to say. -/
def verifyReview (item : Item) (actor : Actor) (r : ForgeReview) : Except String Unit := do
  if item.kind ≠ .pull then throw "only pull requests are reviewed"
  if item.state ≠ .opened then throw ("#" ++ toString item.number ++ " is closed")
  if (r.state = "approved" || r.state = "changes_requested") &&
      actor.is item.authorId item.author then
    throw "you can't approve or request changes on your own pull request"
  if (r.state = "changes_requested" || r.state = "commented") && isBlank r.body &&
      r.comments.isEmpty then
    throw "a review with no approval needs a comment"
  if !(r.state = "approved" || r.state = "changes_requested" || r.state = "commented") then
    throw ("review state " ++ debug r.state ++ " is not approved, changes_requested or commented")
  r.comments.forM fun c => do
    if c.path = "" || c.line = 0 || !(c.side = "LEFT" || c.side = "RIGHT") then
      throw "a line comment needs a path, a line and a side (LEFT or RIGHT)"
    if isBlank c.body then throw "comment can't be blank"

def verifyLabel (s : ForgeState) (role : Role) (l : ForgeLabel) : Except String Unit := do
  if role < .triage then throw "only collaborators can manage labels"
  if isBlank l.name || 50 < l.name.utf8ByteSize then throw "a label name is 1 to 50 characters"
  let hex := if startsWith "#" l.color then l.color.toList.tail else []
  if !l.deleted && (hex.length ≠ 6 || !hex.all isAsciiHexDigit) then
    throw ("label color " ++ debug l.color ++ " is not #rrggbb")
  if l.deleted && (s.labels.find? l.name).isNone then throw ("no label " ++ debug l.name)

def verifyOpened (s : ForgeState) (role : Role) (o : ForgeOpened) : Except String Unit := do
  if o.kind = .unspecified then throw "an item must be an issue or a pull request"
  if isBlank o.title then throw "title can't be blank"
  if role < .triage && (!o.labels.isEmpty || !o.assignees.isEmpty) then
    throw "only collaborators can set labels and assignees"
  if o.kind = .pull then
    if o.baseRef = "" || o.headRef = "" || o.baseRef = o.headRef then
      throw "a pull request merges one branch into another"
    match s.items.values.find? fun i =>
        i.state = .opened && i.baseRef = o.baseRef && i.headRef = o.headRef with
    | some i =>
      throw ("a pull request already exists for " ++ o.headRef ++ ": #" ++ toString i.number)
    | none => pure ()

/-- The checks on an event about an existing item. -/
def verifyOnItem (item : Item) (actor : Actor) (role : Role) : ForgeBody → Except String Unit
  | .opened _ => pure ()
  | .label _ => pure ()
  | .comment c => if isBlank c.body then throw "comment can't be blank" else pure ()
  | .edit e =>
    if e.commentId = 0 then do
      if !actor.is item.authorId item.author && role < .write then
        throw "only the author or a collaborator can edit this"
      match e.change with
      | some (.title t) => if isBlank t then throw "title can't be blank"
      | some (.body _) => pure ()
      | _ => throw "an item edit sets the title or the body"
    else
      match item.timeline.find? fun t => t.id == e.commentId && (match t.event with
        | .comment _ _ deleted => !deleted
        | _ => false) with
      | none => throw ("comment " ++ toString e.commentId ++ " does not exist")
      | some author =>
        if role < .write && !actor.is author.actorId author.actor then
          throw "only the author or a collaborator can edit this comment"
        else pure ()
  | .state s => do
    if !s.closed && item.merged then
      throw ("#" ++ toString item.number ++ " was merged; it can't be reopened")
    if !actor.is item.authorId item.author && role < .triage then
      throw "only the author or a collaborator can close or reopen this"
    if s.closed = decide (item.state = .closed) then
      throw ("#" ++ toString item.number ++ " is already " ++ item.state.text)
    if s.closed && !(s.reason = "completed" || s.reason = "not_planned") then
      throw "close reason is \"completed\" or \"not_planned\""
  | .labels _ | .assignees _ =>
    if role < .triage then throw "only collaborators can change labels and assignees" else pure ()
  | .review r => verifyReview item actor r
  | .draft d => do
    if item.kind ≠ .pull || item.state ≠ .opened then
      throw ("#" ++ toString item.number ++ " is not an open pull request")
    if !actor.is item.authorId item.author && role < .write then
      throw "only the author or a collaborator can change this"
    if d.draft = item.draft then
      throw ("#" ++ toString item.number ++ " is already " ++
        if d.draft then "a draft" else "ready for review")
  | .merged m => do
    if item.kind ≠ .pull || item.state ≠ .opened then
      throw ("#" ++ toString item.number ++ " is not an open pull request")
    if item.draft then throw "a draft pull request can't be merged; mark it ready for review"
    if role < .write then throw "only collaborators can merge"
    if !(m.method = "merge" || m.method = "squash" || m.method = "rebase") then
      throw (debug m.method ++ " is not merge, squash or rebase")

namespace ForgeState

/-- The check of one event of a request. -/
def verifyEvent (s : ForgeState) (actor : Actor) (role : Role) (ev : ForgeEvent) :
    Except String Unit :=
  match ev.body with
  | none => throw "empty forge event"
  | some (.label l) => verifyLabel s role l
  | some (.opened o) => verifyOpened s role o
  | some body =>
    match s.items.find? ev.number with
    | none => throw ("#" ++ toString ev.number ++ " does not exist")
    | some item => verifyOnItem item actor role body

/-- Preconditions of one request against this state. -/
def verify (s : ForgeState) (actor : Actor) (role : Role) (events : List ForgeEvent) :
    Except String Unit := do
  if events.isEmpty then throw "no forge events"
  if actor.userId = "" then throw "sign in to take part"
  if role < .read then throw "you don't have access to this repository"
  events.forM (s.verifyEvent actor role)

end ForgeState

end Fold

/-- Numbering never hands a number back. -/
theorem ForgeState.number_le (evs : List ForgeEvent) (next : ℕ) :
    next ≤ (ForgeState.number evs next).2 := by
  induction evs generalizing next with
  | nil => exact le_rfl
  | cons ev evs ih =>
    rw [ForgeState.number]
    split
    · exact (Nat.le_succ next).trans (ih (next + 1))
    · exact ih next

end Walgit
