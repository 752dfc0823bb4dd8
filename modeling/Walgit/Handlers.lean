import Mathlib.Data.List.Sort
import Walgit.Authorize
import Walgit.Policy

/-!
# The handlers that write refs

What receive-pack, the merge of a pull request and the deletion of its branch ask the publisher
for, once their user was let in.
-/
namespace Walgit

open Text

section Texts

/-- The words of a text. -/
def splitWhitespace (text : String) : List String :=
  ((text.toList.splitOnP isWhitespace).filter fun w => !w.isEmpty).map String.ofList

/-- An unsigned number of 64 bits. -/
def parseU64 (text : List Char) : Option ℕ :=
  let digits := match text with
    | '+' :: digits => digits
    | digits => digits
  let n := digits.foldl (fun n c => 10 * n + (c.toNat - '0'.toNat)) 0
  if !digits.isEmpty && digits.all Char.isDigit && n < 2 ^ 64 then some n else none

def closingKeywords : List String :=
  ["close", "closes", "closed", "fix", "fixes", "fixed", "resolve", "resolves", "resolved"]

/-- The issue that a keyword and the word after it close. -/
def closingPair (keyword target : String) : Option ℕ :=
  let trimmed := String.ofList (keyword.toList.reverse.dropWhile (· == ':')).reverse
  if closingKeywords.contains (toAsciiLowercase trimmed) then
    (Policy.stripPrefix "#" target).bind fun n =>
      parseU64 (n.toList.reverse.dropWhile fun c => !c.isDigit).reverse
  else none

/-- The issues a pull request's body closes. -/
def closes (body : String) : List ℕ :=
  let words := splitWhitespace body
  ((words.zip words.tail).filterMap fun w => closingPair w.1 w.2).mergeSort.dedup

end Texts

namespace Handlers

/-- A request in a handler's words: the transaction of one update. -/
def single (name old new : String) : RefTransaction := ⟨[⟨name, old, new, ""⟩], [], true⟩

def pushMeta (agent : String) (s : Subject) (t : RefTransaction) (requestId : Option String) :
    SortedMap String String :=
  let base := [("agent", agent), ("principal", s.name),
    ("push_options", "\n".intercalate t.pushOptions)]
  .ofList (base ++ (requestId.map fun id => ("request_id", id)).toList)

/-- A branch's tip in the synced refs. -/
def branchTip (refs : RefState) (branch : String) : Option String :=
  (refs.refs.find? ("refs/heads/" ++ branch)).filter fun oid => oid ≠ ""

/-- The policy refuses no update; no update counts as forced here. -/
def checkPolicy (p : RepoPolicy) (s : Subject) (t : RefTransaction) : Except ApiError Unit :=
  match (p.evaluate s.names (fun _ => false) t).2.findSome? fun r => r.2 with
  | some why => .error (.badRequest ("push policy: " ++ why))
  | none => .ok ()

/-- The pull request of a number. -/
def findPull (s : ForgeState) (number : ℕ) : Except ApiError Item :=
  match (s.items.find? number).filter fun i => i.kind = .pull with
  | some item => .ok item
  | none => .error (.notFound ("pull #" ++ toString number))

/-- An open pull request with its live tips. -/
def openPull (s : ForgeState) (refs : RefState) (number : ℕ) :
    Except ApiError (Item × String × String) := do
  let item ← findPull s number
  if item.state ≠ .opened then throw (.badRequest ("#" ++ toString number ++ " is not open"))
  pure (item, (branchTip refs item.baseRef).getD item.baseOid,
    (branchTip refs item.headRef).getD item.headOid)

def event (number : ℕ) (body : ForgeBody) : ForgeEvent := ⟨number, "", "", some body⟩

def closingEvent (number : ℕ) (reason : String) : ForgeEvent :=
  event number (.state ⟨true, reason, "", ""⟩)

/-- The events carry the actor's name and account. -/
def signed (a : Actor) (events : List ForgeEvent) : List ForgeEvent :=
  events.map fun ev => { ev with actor := a.login, actorId := a.userId }

/-- What the server builds in a scratch directory: the commit and its pack, or the conflicts. -/
structure BuiltMerge where
  upToDate : Bool
  built : Except (List String) (String × Option IngestedPack)

section Chars

variable [CharTables]

/-- The commands of a push that the policy lets through. -/
def evaluated (g : Grant) (p : RepoPolicy) (ancestor : String → String → Bool)
    (lines : List PktLine) : Except GitError RefTransaction := do
  let t ← Receive.parse lines
  let t := Receive.normalize t
  let forced := p.forces ancestor t
  pure (p.evaluate g.subject.names (fun u => forced.contains u.name) t).1

/-- A push; nothing is published if the policy lets no command through. -/
def receivePack (g : Grant) (p : RepoPolicy) (ancestor : String → String → Bool)
    (seen : RefState) (lines : List PktLine) (pack : Option IngestedPack) (agent : String)
    (requestId : Option String) : Option PublishRequest :=
  match evaluated g p ancestor lines with
  | .error _ => none
  | .ok publish =>
    if publish.updates.isEmpty then none
    else
      let t := Receive.defaultBranchFromFirstPush seen publish
      some {
        pack := pack
        txn := t
        metadata := pushMeta agent g.subject t requestId
        synced := true
        actor := some g.actor }

theorem receivePack_some {g : Grant} {p : RepoPolicy} {ancestor : String → String → Bool}
    {seen : RefState} {lines : List PktLine} {pack : Option IngestedPack} {agent : String}
    {requestId : Option String} {request : PublishRequest}
    (h : receivePack g p ancestor seen lines pack agent requestId = some request) :
    ∃ publish, evaluated g p ancestor lines = .ok publish ∧ publish.updates ≠ [] ∧
      request.txn = Receive.defaultBranchFromFirstPush seen publish ∧
      request.actor = some g.actor := by
  unfold receivePack at h
  split at h
  · cases h
  · rename_i publish hpublish
    dsimp only at h
    split_ifs at h with hempty
    cases h
    exact ⟨publish, hpublish, by simpa using hempty, rfl, rfl⟩

def merge (g : Grant) (p : RepoPolicy) (s : ForgeState) (refs : RefState) (number : ℕ)
    (method sha : Option String) (m : BuiltMerge) : Except ApiError PublishRequest := do
  let method := method.getD "merge"
  if method ∉ ["merge", "squash", "rebase"] then
    throw (.badRequest (debug method ++ " is not merge, squash or rebase"))
  let (item, base, head) ← openPull s refs number
  if item.draft then
    throw (.badRequest ("#" ++ toString number ++ " is a draft; mark it ready for review first"))
  if sha.any (· ≠ head) then
    throw (.conflict "Head branch was modified. Review and try the merge again.")
  if m.upToDate then
    throw (.badRequest (item.baseRef ++ " already contains " ++ item.headRef ++
      ": nothing to merge"))
  let (built, pack) ← m.built.mapError fun paths => .conflict
    ("This branch has conflicts that must be resolved: " ++ ", ".intercalate paths)
  let t := single ("refs/heads/" ++ item.baseRef) base built
  checkPolicy p g.subject t
  let issues := (closes item.body).filter fun k =>
    (s.items.find? k).any fun i => i.kind = .issue && i.state = .opened
  let events := event number (.merged ⟨method, built, base, head⟩) ::
    issues.map fun k => closingEvent k "completed"
  pure { pack := pack, txn := t, forge := signed g.actor events, actor := some g.actor }

theorem merge_ok {g : Grant} {p : RepoPolicy} {s : ForgeState} {refs : RefState} {number : ℕ}
    {method sha : Option String} {m : BuiltMerge} {request : PublishRequest}
    (h : merge g p s refs number method sha m = .ok request) :
    ∃ name old new, request.txn = single name old new ∧ request.actor = some g.actor := by
  unfold merge at h
  simp only [Checks.guard_ok, Checks.bind_eq_ok] at h
  obtain ⟨-, _, -, -, -, -, _, -, _, -, h⟩ := h
  cases h
  exact ⟨_, _, _, rfl, rfl⟩

end Chars

/-- The deletion names the user in the entry's metadata and carries no actor. -/
def deleteBranch (g : Grant) (p : RepoPolicy) (s : ForgeState) (refs : RefState) (number : ℕ) :
    Except ApiError PublishRequest := do
  let item ← findPull s number
  if item.state = .opened then throw (.badRequest "close or merge the pull request first")
  match branchTip refs item.headRef with
  | none => throw (.notFound ("branch " ++ item.headRef))
  | some old =>
    let t := single ("refs/heads/" ++ item.headRef) old ""
    checkPolicy p g.subject t
    pure { txn := t, metadata := .ofList [("principal", g.subject.name)] }

theorem deleteBranch_ok {g : Grant} {p : RepoPolicy} {s : ForgeState} {refs : RefState}
    {number : ℕ} {request : PublishRequest} (h : deleteBranch g p s refs number = .ok request) :
    ∃ name old, request.txn = single name old "" ∧ request.actor = none := by
  unfold deleteBranch at h
  simp only [Checks.guard_ok, Checks.bind_eq_ok] at h
  obtain ⟨item, -, -, h⟩ := h
  split at h
  · cases h
  · simp only [Checks.bind_eq_ok] at h
    obtain ⟨_, -, h⟩ := h
    cases h
    exact ⟨_, _, rfl, rfl⟩

end Handlers

end Walgit
