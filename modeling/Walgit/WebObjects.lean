import Walgit.Authorize
import Walgit.Receive
import Walgit.RemoteObjects

/-!
# Objects for the web

What the pages of a repository read when its packs are not here: commits, trees and the entries
of a path, parsed from the objects of the pack set.
-/
namespace Walgit.Web

open Remote (Obj)

/-- What the git library reads from the line of an author or a committer. -/
structure SignatureRef where
  name : String
  email : String
  /-- The time as text and in seconds, where it is one. -/
  time : Option (String × ℤ)
  deriving DecidableEq, Repr

structure CommitRef where
  tree : Oid
  parents : List Oid
  author : Except String SignatureRef
  committer : Except String SignatureRef
  summary : String
  body : Option String

structure CommitMeta where
  id : Oid
  tree : Oid
  parents : List Oid
  author : String
  authorEmail : String
  authorDate : String
  committer : String
  commitDate : String
  commitTime : ℤ
  subject : String
  body : String
  deriving DecidableEq, Repr

structure TreeEntryRef where
  name : List UInt8
  oid : Oid
  mode : ℕ
  deriving DecidableEq, Repr

namespace TreeEntryRef

/-- The bits of a mode that tell the kind of an entry. -/
def kindBits (mode : ℕ) : ℕ := mode &&& 0o170000

def isTree (e : TreeEntryRef) : Bool := kindBits e.mode = 0o040000

def isBlobOrSymlink (e : TreeEntryRef) : Bool :=
  kindBits e.mode = 0o100000 || kindBits e.mode = 0o120000

end TreeEntryRef

/-- The packs of a repository as one store of objects, and the library's parsers. -/
structure Packs where
  find : Oid → Except String (Option Obj)
  commitRef : List UInt8 → Except String CommitRef
  treeRefs : List UInt8 → List (Except String TreeEntryRef)

def fmtTime (sig : SignatureRef) : String × ℤ := sig.time.getD ("", 0)

/-- An error of a library, under what was being done. -/
def during {α : Type} (what : String) (x : Except String α) : Except ApiError α :=
  x.mapError fun e => .internal (what ++ ": " ++ e)

namespace Packs

variable (r : Packs)

def get (oid : Oid) : Except ApiError Obj := do
  match ← during "remote objects" (r.find oid) with
  | some o => .ok o
  | none => .error (.notFound ("object " ++ oid ++ " not in the pack set"))

def parseCommit (id : Oid) (data : List UInt8) : Except ApiError CommitMeta := do
  let c ← during ("parse commit " ++ id) (r.commitRef data)
  let author ← during ("parse author " ++ id) c.author
  let committer ← during ("parse committer " ++ id) c.committer
  .ok { id, tree := c.tree, parents := c.parents
        author := author.name, authorEmail := author.email, authorDate := (fmtTime author).1
        committer := committer.name, commitDate := (fmtTime committer).1
        commitTime := (fmtTime committer).2, subject := c.summary
        body := String.ofList (Receive.trim (c.body.getD "").toList) }

def parseTree (data : List UInt8) : Except ApiError (List TreeEntryRef) :=
  (r.treeRefs data).mapM (during "parse tree")

def commit (oid : Oid) : Except ApiError CommitMeta := do
  let o ← r.get oid
  if o.kind ≠ .commit then .error (.notFound (oid ++ " is not a commit"))
  else r.parseCommit oid o.data

def treeEntries (oid : Oid) : Except ApiError (List TreeEntryRef) := do
  let o ← r.get oid
  if o.kind ≠ .tree then .error (.notFound (oid ++ " is not a tree")) else r.parseTree o.data

theorem commit_id {r : Packs} {c : Oid} {m : CommitMeta} (h : r.commit c = .ok m) : m.id = c := by
  obtain ⟨o, -, h⟩ := Checks.bind_eq_ok.mp h
  split_ifs at h
  obtain ⟨cr, -, h⟩ := Checks.bind_eq_ok.mp h
  obtain ⟨author, -, h⟩ := Checks.bind_eq_ok.mp h
  obtain ⟨committer, -, h⟩ := Checks.bind_eq_ok.mp h
  cases h
  rfl

end Packs

/-- The segments of a path, as bytes. -/
def segments (path : String) : List (List UInt8) :=
  ((path.toList.splitOn '/').filter (· ≠ [])).map fun seg => seg.flatMap String.utf8EncodeChar

namespace Packs

variable (r : Packs)

/-- Where the segments lead from an entry. What lies behind one that is no tree is looked up in it
as well. -/
def descend (cur : Oid × ℕ) : List (List UInt8) → Except ApiError (Option (Oid × ℕ))
  | [] => .ok (some cur)
  | seg :: segs => do
    let entries ← r.treeEntries cur.1
    match entries.find? fun e => e.name = seg with
    | none => .ok none
    | some e => descend (e.oid, e.mode) segs

def lookupPath (tree : Oid) (path : String) : Except ApiError (Option (Oid × ℕ)) :=
  r.descend (tree, 0o040000) (segments path)

/-- What a path is in a tree. -/
def pathOid (tree : Oid) (path : String) : Except ApiError (Option Oid) :=
  (r.lookupPath tree path).map fun found => found.map Prod.fst

end Packs

end Walgit.Web
