import Walgit.Batch
import Walgit.RefEffects
import Walgit.Runs

/-!
# The receive path

A push is a list of pkt-lines. `parse` reads the ref commands from them, the server
drops what the policy denies, may make the first pushed branch the default one, and
publishes the rest.
-/
namespace Walgit

open Text

inductive GitError where
  | invalidInput (message : String)
  | protocol (message : String)
  deriving DecidableEq, Repr

/-- A pkt-line; its data as text, in which a NUL separates the capabilities. -/
inductive PktLine where
  | flush
  | delim
  | responseEnd
  | data (text : String)
  deriving DecidableEq, Repr

/-- The capabilities a request's first command carries that parsing depends on. -/
structure ReceiveCaps where
  atomic : Bool := false
  pushOptions : Bool := false
  deriving DecidableEq, Repr

namespace Receive

/-- The text up to the first separator, and what follows it. -/
def splitOnce (sep : Char) (text : List Char) : List Char × Option (List Char) :=
  match text.span (· ≠ sep) with
  | (before, []) => (before, none)
  | (before, _ :: after) => (before, some after)

def trimEndNewlines (text : List Char) : List Char := (text.reverse.dropWhile (· = '\n')).reverse

def trim (text : List Char) : List Char :=
  ((text.dropWhile isWhitespace).reverse.dropWhile isWhitespace).reverse

/-- The tokens of a capability string, split at blanks and newlines. -/
def tokens (caps : List Char) : List (List Char) :=
  (caps.foldr (fun c acc => match acc with
    | [] => [[c]]
    | word :: words => if c = ' ' || c = '\n' then [] :: word :: words else (c :: word) :: words)
    [[]]).map trim

def applyCaps (caps : ReceiveCaps) (text : List Char) : ReceiveCaps :=
  (tokens text).foldl (fun caps token =>
    if token = "atomic".toList then { caps with atomic := true }
    else if token = "push-options".toList then { caps with pushOptions := true }
    else caps) caps

section Parse

variable [CharTables]

/-- `<old> <new> <ref>`, the first one with a NUL and capabilities after it. -/
def parseCommandLine (line : String) : Except GitError (RefUpdate × List Char) := do
  let (command, caps) := splitOnce '\x00' line.toList
  let (old, rest) := splitOnce ' ' (trimEndNewlines command)
  let rest ← match rest with
    | some rest => pure rest
    | none => throw (.protocol "missing new oid")
  let (new, rest) := splitOnce ' ' rest
  let name ← match rest with
    | some name => pure name
    | none => throw (.protocol "missing ref name")
  let update : RefUpdate := ⟨String.ofList name, String.ofList old, String.ofList new, ""⟩
  match validateRefUpdate update with
  | .ok _ => pure (update, caps.getD [])
  | .error message => throw (.invalidInput message)

/-- The command lines up to the flush; announced shallow commits are passed over. -/
def parseCommands : List PktLine → Except GitError (List RefUpdate × List PktLine)
  | [] => pure ([], [])
  | .data text :: lines =>
    if startsWith "shallow " text then parseCommands lines
    else do
      let (update, _) ← parseCommandLine text
      let (updates, rest) ← parseCommands lines
      pure (update :: updates, rest)
  | _ :: lines => pure ([], lines)

def parsePushOptions : List PktLine → List String
  | .data text :: lines => String.ofList (trimEndNewlines text.toList) :: parsePushOptions lines
  | _ => []

/-- The ref transaction of a request. -/
def parse : List PktLine → Except GitError RefTransaction
  | [] | .flush :: _ => pure ⟨[], [], false⟩
  | .delim :: _ | .responseEnd :: _ => throw (.protocol "unexpected delim before commands")
  | .data text :: lines =>
    if startsWith "shallow " text then parse lines
    else do
      let (update, capText) ← parseCommandLine text
      let caps := applyCaps {} capText
      let (updates, rest) ← parseCommands lines
      pure ⟨update :: updates, if caps.pushOptions then parsePushOptions rest else [], caps.atomic⟩

end Parse

/-- Zero object ids become empty ones. -/
def normalize (t : RefTransaction) : RefTransaction :=
  let clear := fun oid : String => if isNullOid oid then "" else oid
  { t with updates := t.updates.map fun u => { u with oldOid := clear u.oldOid, newOid := clear u.newOid } }

/-- What the policy lets through; an atomic request all or nothing. -/
def evaluate (allowed : RefUpdate → Bool) (t : RefTransaction) : RefTransaction :=
  if t.atomic && !t.updates.all allowed then { t with updates := [] }
  else { t with updates := t.updates.filter allowed }

/-- While HEAD names a branch that does not exist, a push of branches makes one of them the
default: `main` if it is among them, else the first. -/
def defaultBranchFromFirstPush (seen : RefState) (t : RefTransaction) : RefTransaction :=
  if (seen.refs.find? seen.headTarget).isSome || t.namesHead then t
  else
    let pushed := (t.updates.filter fun u =>
      startsWith "refs/heads/" u.name && u.plain && !isNullOid u.newOid).map RefUpdate.name
    if pushed.contains seen.headTarget then t
    else match (pushed.find? (· == "refs/heads/main")).or pushed.head? with
      | none => t
      | some branch => { t with updates := t.updates ++ [⟨"HEAD", "", "", branch⟩] }

end Receive

/-- A request, the policy's verdicts on its updates, and the local refs the server looked at. -/
structure Push where
  lines : List PktLine
  allowed : RefUpdate → Bool
  seen : RefState

section Pushes

variable [CharTables]

/-- The transaction a push asks to publish. -/
def Push.published (p : Push) : Except GitError RefTransaction := do
  let t ← Receive.parse p.lines
  pure (Receive.defaultBranchFromFirstPush p.seen (Receive.evaluate p.allowed (Receive.normalize t)))

/-- An accepted push: it parses, and every update finds its old value. -/
def RefState.push (s : RefState) (p : Push) : Option RefState :=
  match p.published with
  | .error _ => none
  | .ok t => if (verifyTxn t (.new s)).allOk then some (s.applyTxn t) else none

theorem RefState.push_eq_some {s s' : RefState} {p : Push} (h : s.push p = some s') :
    ∃ t, p.published = .ok t ∧ s' = s.applyTxn t := by
  unfold RefState.push at h
  split at h
  · cases h
  · rename_i t ht
    split_ifs at h
    exact ⟨t, ht, (Option.some.inj h).symm⟩

end Pushes

end Walgit
