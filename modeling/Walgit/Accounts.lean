import Mathlib.Data.Prod.Lex
import Walgit.Proto
import Walgit.Text

/-!
# The account directory

Users and organisations are a fold of the account log. `apply` is the only
interpretation of an event; `verify` is the precondition of one entry, checked event by
event against the state before the entry and the names the entry has used so far.
-/
namespace Walgit

open Text

structure User where
  userId : String
  login : String
  email : String
  name : String
  avatarUrl : String
  password : String
  deriving DecidableEq, Repr

structure Org where
  orgId : String
  login : String
  owners : SortedMap String Unit
  deriving DecidableEq, Repr

/-- Who holds a login in the index. -/
inductive Holder where
  | user (id : String)
  | org (id : String)
  | reserved
  deriving DecidableEq, Repr

/-- Who a namespace belongs to. -/
inductive Namespace where
  | user (u : User)
  | org (o : Org)
  | reserved
  | free
  deriving DecidableEq, Repr

/-- The folded account log at a log position. -/
structure AccountsState where
  seq : ℕ
  genesis : Bool
  users : SortedMap String User
  orgs : SortedMap String Org
  /-- Lowercased login to holder. -/
  byLogin : SortedMap String Holder
  /-- Issuer and subject to user id. -/
  byIdentity : SortedMap (String ×ₗ String) String
  records : List AccountRecord
  deriving DecidableEq

/-- Names a user cannot take: the path segments served at the root. -/
def reservedLogins : List String :=
  ["_auth", "_ui", "_events", "api", "api-browser", "services", "healthz", "readyz", "metrics",
    "repos.js", "repos.mjs", "admin", "system", "settings", "login", "logout", "new", "anonymous",
    "anon"]

/-- A replacement field is ignored when it is empty. -/
def replaceField (old new : String) : String := if new = "" then old else new

namespace AccountsState

def empty : AccountsState := ⟨0, false, .empty, .empty, .empty, .empty, []⟩

instance : Inhabited AccountsState := ⟨empty⟩

def namespaceOf (s : AccountsState) (login : String) : Namespace :=
  match s.byLogin.find? (toAsciiLowercase login) with
  | some (.user id) => (s.users.find? id).elim .free .user
  | some (.org id) => (s.orgs.find? id).elim .free .org
  | some .reserved => .reserved
  | none => .free

/-- `entry(login).or_insert(Reserved)`. -/
def reserve (s : AccountsState) (login : String) : AccountsState :=
  if (s.byLogin.find? (toAsciiLowercase login)).isSome then s
  else { s with byLogin := s.byLogin.insert (toAsciiLowercase login) .reserved }

def apply (s : AccountsState) : AccountEvent → AccountsState
  | .unset => s
  | .genesis reserved => reserved.foldl reserve { s with genesis := true }
  | .namespaceReserved login => s.reserve login
  | .userCreated userId login email name avatarUrl =>
    { s with
      byLogin := s.byLogin.insert (toAsciiLowercase login) (.user userId)
      users := s.users.insert userId ⟨userId, login, email, name, avatarUrl, ""⟩ }
  | .identityLinked userId issuer subject =>
    { s with byIdentity := s.byIdentity.insert (toLex (issuer, subject)) userId }
  | .profileChanged userId email name avatarUrl =>
    { s with users := s.users.modify userId fun u =>
        { u with
          email := replaceField u.email email
          name := replaceField u.name name
          avatarUrl := replaceField u.avatarUrl avatarUrl } }
  | .orgCreated orgId login owners =>
    { s with
      byLogin := s.byLogin.insert (toAsciiLowercase login) (.org orgId)
      orgs := s.orgs.insert orgId ⟨orgId, login, .setOf owners⟩ }
  | .orgOwnersChanged orgId owners =>
    { s with orgs := s.orgs.modify orgId fun o => { o with owners := .setOf owners } }
  | .passwordSet userId phc =>
    { s with users := s.users.modify userId fun u => { u with password := phc } }

def applyRecord (s : AccountsState) (r : AccountRecord) : AccountsState :=
  { r.events.foldl apply s with records := s.records ++ [r] }

def fromHistory (h : AccountHistory) : AccountsState :=
  { h.records.foldl applyRecord empty with seq := h.seq }

def historyUpto (s : AccountsState) (seq : ℕ) : AccountHistory :=
  ⟨seq, s.records.filter fun r => r.seq ≤ seq⟩

/-- One entry after the state's position; earlier ones are skipped. -/
def foldEntry (s : AccountsState) (e : LogEntry) : AccountsState :=
  if e.seq ≤ s.seq then s
  else
    let s := if e.account.isEmpty then s else s.applyRecord ⟨e.seq, e.createdAt, e.account⟩
    { s with seq := e.seq }

/-- `entries` are every committed entry after `after`; a state behind `after` stays put. -/
def foldEntries (s : AccountsState) (after : ℕ) (entries : List LogEntry) : AccountsState :=
  if s.seq < after then s else entries.foldl foldEntry s

end AccountsState

section Verify

variable [CharTables]

/-- A login a user may choose: 1 to 39 lowercase letters, digits or single inner hyphens. -/
def validUserLogin (login : String) : Except String Unit := do
  let ok := login ≠ "" && login.utf8ByteSize ≤ 39 &&
    login.toList.all (fun c => c.isLower || c.isDigit || c == '-') &&
    !startsWith "-" login && !endsWith "-" login && !contains "--" login
  if !ok then
    throw (debug login ++ " is not a valid username: 1 to 39 lowercase letters, digits or " ++
      "single hyphens, not at either end")
  if login ∈ reservedLogins then throw (debug login ++ " is reserved")

/-- One half of a repository id. -/
def validatePart (s what : String) : Except String Unit := do
  if s = "" || 100 < s.utf8ByteSize then
    throw ("invalid input: " ++ what ++ " must be 1..=100 chars")
  if s = ".." then throw ("invalid input: " ++ what ++ " may not be '..'")
  if startsWith "." s then throw ("invalid input: " ++ what ++ " may not start with '.'")
  if !s.toList.all (fun c => c.isAlphanum || c == '.' || c == '_' || c == '-') then
    throw ("invalid input: " ++ what ++ " must be ASCII [A-Za-z0-9._-]")

def repoIdNew (owner name : String) : Except String Unit := do
  validatePart owner "owner"
  validatePart name "name"

def verifyOwners (owners : List String) (userExists : String → Bool) : Except String Unit :=
  if owners.isEmpty then throw "an org needs at least one owner"
  else match owners.find? fun id => !userExists id with
    | some id => throw ("no user " ++ debug id)
    | none => pure ()

/-- What the events of an entry have claimed before the current one. -/
structure Claimed where
  logins : List String := []
  users : List String := []
  identities : List (String × String) := []
  deriving DecidableEq, Repr

namespace AccountsState

def userExists (s : AccountsState) (c : Claimed) (id : String) : Bool :=
  (s.users.find? id).isSome || c.users.contains id

/-- The check of one event of an entry of `count` events. -/
def verifyEvent (s : AccountsState) (count : ℕ) (c : Claimed) (ev : AccountEvent) :
    Except String Claimed := do
  if ev = .unset then throw "empty account event"
  if !s.genesis && !(ev matches .genesis _) then throw "the account log has no genesis entry yet"
  match ev with
  | .unset => pure c
  | .genesis _ =>
    if s.genesis || count ≠ 1 then throw "genesis is the log's first entry, alone"
    pure c
  | .namespaceReserved login =>
    match s.namespaceOf login with
    | .free | .reserved => pure c
    | .user _ | .org _ => throw (debug login ++ " belongs to an account")
  | .userCreated userId login _ _ _ =>
    if userId = "" || (s.users.find? userId).isSome || c.users.contains userId then
      throw "a new user needs a new id"
    validUserLogin login
    let key := toAsciiLowercase login
    if s.namespaceOf key ≠ .free || c.logins.contains key then
      throw ("the username " ++ debug login ++ " is taken")
    pure { c with users := userId :: c.users, logins := key :: c.logins }
  | .identityLinked userId issuer subject =>
    if issuer = "" || subject = "" then throw "an identity needs an issuer and a subject"
    if !s.userExists c userId then throw ("no user " ++ debug userId)
    if (s.byIdentity.find? (toLex (issuer, subject))).isSome ||
        c.identities.contains (issuer, subject) then
      throw "this sign-in is already linked to an account"
    pure { c with identities := (issuer, subject) :: c.identities }
  | .profileChanged userId _ _ _ =>
    if !s.userExists c userId then throw ("no user " ++ debug userId)
    pure c
  | .orgCreated orgId login owners =>
    if orgId = "" || (s.orgs.find? orgId).isSome || (s.users.find? orgId).isSome then
      throw "a new org needs a new id"
    repoIdNew login "x"
    let key := toAsciiLowercase login
    let isOpen := match s.namespaceOf key with
      | .free | .reserved => true
      | .user _ | .org _ => false
    if !isOpen || c.logins.contains key then throw (debug login ++ " is taken")
    verifyOwners owners (s.userExists c)
    pure { c with logins := key :: c.logins }
  | .orgOwnersChanged orgId owners =>
    if (s.orgs.find? orgId).isNone then throw ("no org " ++ debug orgId)
    verifyOwners owners (s.userExists c)
    pure c
  | .passwordSet userId phc =>
    if !s.userExists c userId then throw ("no user " ++ debug userId)
    if phc ≠ "" && !startsWith "$argon2id$" phc then
      throw "a password is stored as an Argon2id PHC string"
    pure c

/-- Preconditions of one entry against this state, in event order. -/
def verify (s : AccountsState) (events : List AccountEvent) : Except String Unit := do
  if events.isEmpty then throw "no account events"
  let _ ← events.foldlM (s.verifyEvent events.length) {}

end AccountsState

end Verify

end Walgit
