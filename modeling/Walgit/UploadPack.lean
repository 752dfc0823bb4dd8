import Mathlib.Data.List.Sort
import Walgit.Checks
import Walgit.Objects

/-!
# The upload engine

Which objects a fetch sends. With haves, each new commit is diffed against its parents and only
what differs from every parent is taken; a tree that was taken once is not entered again. What is
not local is collected and faulted in, and the enumeration starts over.
-/
namespace Walgit

inductive PackFilter where
  | none
  | blobNone
  | blobLimit (limit : ℕ)
  | tree (depth : ℕ)
  deriving DecidableEq, Repr

/-- A decimal number below a bound, with an optional sign. -/
def parseUnsigned (bound : ℕ) (digits : List Char) : Option ℕ :=
  let digits := if digits.head? = some '+' then digits.tail else digits
  if digits.isEmpty || !digits.all Char.isDigit then none
  else
    let n := digits.foldl (fun n c => 10 * n + (c.toNat - 48)) 0
    if n < bound then some n else none

def parseFilter (spec : String) : PackFilter :=
  if spec = "blob:none" then .blobNone
  else if Text.startsWith "blob:limit=" spec then
    ((parseUnsigned (2 ^ 64) (spec.toList.drop 11)).map PackFilter.blobLimit).getD .none
  else if Text.startsWith "tree:" spec then
    ((parseUnsigned (2 ^ 64) (spec.toList.drop 5)).map PackFilter.tree).getD .none
  else .none

structure UploadPackRequest where
  wants : List Oid
  haves : List Oid
  shallow : List Oid := []
  deepen : Option ℕ := none
  filter : Option String := none
  includeTag : Bool := false
  deriving DecidableEq, Repr

namespace UploadPackRequest

def packFilter (req : UploadPackRequest) : PackFilter := (req.filter.map parseFilter).getD .none

end UploadPackRequest

inductive UploadError where
  | missingObject (oid : Oid)
  | protocol (message : String)
  | gix (message : String)
  /-- The fuel of a tree walk ran out; `enumerate_ends` excludes it. -/
  | exhausted
  deriving DecidableEq, Repr

/-- What every object of one store is in the other. -/
def Odb.Within (loc db : Odb) : Prop := ∀ id o, loc.find id = some o → db.find id = some o

/-- The remote part of a repository: an index of it, and a way to copy objects to the local
store, with the number of objects found. -/
structure Faulter (db : Odb) where
  contains : Oid → Bool
  fault : Odb → List Oid → Except UploadError (Odb × ℕ)
  within : ∀ {loc loc' ids n}, loc.Within db → fault loc ids = .ok (loc', n) →
    loc'.Within db ∧ loc.Within loc'

namespace UploadPack

/-- What a fetch reads besides the objects: the commit walk over the whole history, the sizes of
blobs, and the ids that the refs name, when they can be read. -/
structure Repo (db : Odb) where
  walk : RevWalk db
  sizes : Oid → ℕ
  refs : Option (List Oid)

/-- The objects taken so far, and those that are not local. -/
structure Found where
  set : List Oid := []
  missing : List Oid := []
  deriving DecidableEq, Repr

namespace Found

def insert (s : Found) (id : Oid) : Found := { s with set := s.set.insert id }

def miss (s : Found) (ids : List Oid) : Found := { s with missing := s.missing ++ ids }

def remove (s : Found) (id : Oid) : Found := { s with set := s.set.filter (· ≠ id) }

end Found

/-- A parent's subtree at the path being diffed. -/
inductive Old where
  | absent
  | tree (id : Oid)
  deriving DecidableEq, Repr

section Trees

variable (loc : Odb)

/-- Entries of a tree, or `none` when it is not local. -/
def treeEntries (id : Oid) : Option (List TreeEntry) :=
  match loc.find id with
  | none => none
  | some (.tree entries) => some entries
  | some _ => some []

namespace Old

def entries : Old → List TreeEntry
  | absent => []
  | tree id => (treeEntries loc id).getD []

def missing : Old → List Oid
  | absent => []
  | tree id => if (treeEntries loc id).isNone then [id] else []

end Old

/-- The entries of a parent by name; the last of a name counts. -/
def entryAt (entries : List TreeEntry) (name : String) : Option TreeEntry :=
  entries.reverse.find? fun e => e.filename = name

/-- The entry has the same object in every parent. -/
def unchanged (olds : List Old) (e : TreeEntry) : Bool :=
  !olds.isEmpty && olds.all fun old =>
    (entryAt (old.entries loc) e.filename).any fun o => o.oid = e.oid

def subOld (name : String) (old : Old) : Old :=
  match entryAt (old.entries loc) name with
  | some o => if o.mode = .tree then .tree o.oid else .absent
  | none => .absent

variable (sizes : Oid → ℕ) (filter : PackFilter)

/-- A blob that the filter leaves out. -/
def skipsBlob (id : Oid) : Bool :=
  match filter with
  | .blobNone => true
  | .blobLimit limit => loc.has id && limit < sizes id
  | _ => false

/-- A subtree that the filter takes without its contents. -/
def skipsTree (depth : ℕ) : Bool :=
  match filter with
  | .tree max => max < depth + 1
  | _ => false

/-- One entry of a tree that is diffed, given the diff of a subtree. -/
def diffEntry (diff : Oid → List Old → Found → Except UploadError Found) (olds : List Old)
    (depth : ℕ) (s : Found) (e : TreeEntry) : Except UploadError Found :=
  if e.mode = .commit then .ok s
  else if unchanged loc olds e then .ok s
  else if e.mode = .tree then
    if skipsTree filter depth then .ok (s.insert e.oid)
    else if e.oid ∈ s.set then .ok s
    else diff e.oid (olds.map (subOld loc e.filename)) (s.insert e.oid)
  else if skipsBlob loc sizes filter e.oid then .ok s
  else .ok (s.insert e.oid)

/-- `diff_tree_new_objects`. A tree whose parents are not local waits for the next round. -/
def diffTree : ℕ → Oid → List Old → ℕ → Found → Except UploadError Found
  | 0, _, _, _, _ => .error .exhausted
  | fuel + 1, new, olds, depth, s =>
    match treeEntries loc new with
    | none => .ok (s.miss [new])
    | some entries =>
      match olds.flatMap (Old.missing loc) with
      | [] => entries.foldlM
          (diffEntry loc sizes filter (fun id olds => diffTree fuel id olds (depth + 1)) olds depth) s
      | ids => .ok ((s.miss ids).remove new)

def walkEntry (walk : Oid → List Oid → Except UploadError (List Oid)) (depth : ℕ) (set : List Oid)
    (e : TreeEntry) : Except UploadError (List Oid) :=
  if e.mode = .tree then
    if skipsTree filter depth then .ok (set.insert e.oid)
    else if e.oid ∈ set then .ok set
    else walk e.oid (set.insert e.oid)
  else if e.mode = .commit then .ok set
  else if skipsBlob loc sizes filter e.oid then .ok set
  else .ok (set.insert e.oid)

/-- `walk_tree_with_filter`: all that is below a tree, which is local. -/
def walkTree : ℕ → Oid → ℕ → List Oid → Except UploadError (List Oid)
  | 0, _, _, _ => .error .exhausted
  | fuel + 1, id, depth, set =>
    match loc.find id with
    | some (.tree entries) => entries.foldlM
        (walkEntry loc sizes filter (fun id => walkTree fuel id (depth + 1)) depth) set
    | _ => .error (.gix "expected a tree")

/-- Nested trees are distinct, so one more than the objects is enough. -/
def treeFuel : ℕ := loc.objects.length + 1

end Trees

section Shallow

structure ShallowPlan where
  shallow : List Oid
  exclude : List Oid
  deriving DecidableEq, Repr

/-- The levels of `compute_shallow`: the commits seen, the plan and the next level. -/
structure Levels where
  seen : List Oid := []
  plan : ShallowPlan := ⟨[], []⟩
  next : List Oid := []
  deriving DecidableEq, Repr

variable (loc : Odb)

def levelCommit (last : Bool) (s : Levels) (cid : Oid) : Except UploadError Levels :=
  if cid ∈ s.seen then .ok s
  else
    match loc.find cid with
    | some (.commit _ parents) =>
      let s := { s with seen := cid :: s.seen }
      if last then
        let shallow := if parents.isEmpty then s.plan.shallow else s.plan.shallow ++ [cid]
        .ok { s with plan := ⟨shallow, s.plan.exclude ++ parents⟩ }
      else .ok { s with next := s.next ++ parents }
    | _ => .error (.gix "expected a commit")

/-- The levels from a depth that remains; the last one is the boundary. -/
def levels : ℕ → List Oid → Levels → Except UploadError Levels
  | 0, _, s => .ok s
  | remaining + 1, level, s =>
    if level.isEmpty then .ok s
    else do
      let s ← level.foldlM (levelCommit loc (remaining = 0)) { s with next := [] }
      levels remaining s.next s

def computeShallow (wants : List Oid) (depth : ℕ) : Except UploadError ShallowPlan := do
  let s ← levels loc (max depth 1) wants {}
  -- A commit reachable within the depth is never excluded.
  pure { s.plan with exclude := (s.plan.exclude.insertionSort (· ≤ ·)).dedup.filter (· ∉ s.seen) }

end Shallow

section Enumerate

/-- The wants sorted by kind: what is found, and the commits to walk from. -/
structure Wanted where
  found : Found := {}
  commits : List Oid := []
  deriving DecidableEq, Repr

variable {db : Odb} (repo : Repo db) (loc : Odb)

/-- The object that a wanted tag leads to. -/
def followTag (filter : PackFilter) : ℕ → Oid → Wanted → Except UploadError Wanted
  | 0, _, _ => .error .exhausted
  | fuel + 1, cur, s =>
    match loc.find cur with
    | none => .ok { s with found := s.found.miss [cur] }
    | some (.tag target) => followTag filter fuel target { s with found := s.found.insert target }
    | some (.commit _ _) => .ok { s with commits := s.commits ++ [cur] }
    | some (.tree _) => do
      let set ← walkTree loc repo.sizes filter (treeFuel loc) cur 0 (s.found.insert cur).set
      pure { s with found := { s.found with set := set } }
    | some .blob => .ok { s with found := s.found.insert cur }

def addWant (filter : PackFilter) (contains : Oid → Bool) (s : Wanted) (want : Oid) :
    Except UploadError Wanted :=
  match loc.find want with
  | some (.commit _ _) => .ok { s with commits := s.commits ++ [want] }
  | some (.tag _) =>
    followTag repo loc filter (treeFuel loc) want { s with found := s.found.insert want }
  | some (.tree _) =>
    let found := s.found.insert want
    if filter = .tree 0 then .ok { s with found := found }
    else do
      let set ← walkTree loc repo.sizes filter (treeFuel loc) want 0 found.set
      pure { s with found := { found with set := set } }
  | some .blob => .ok { s with found := s.found.insert want }
  | none =>
    if contains want then .ok { s with commits := s.commits ++ [want] }
    else .ok { s with found := s.found.insert want }

/-- The trees of the parents; a parent that is not local is missing. -/
def parentTree (s : List Old × List Oid) (p : Oid) : Except UploadError (List Old × List Oid) :=
  match loc.find p with
  | some (.commit root _) => .ok (s.1 ++ [.tree root], s.2)
  | some _ => .error (.gix "expected a commit")
  | none => .ok (s.1, s.2 ++ [p])

/-- The tree of a commit, if it was not taken yet. -/
def diffRoot (filter : PackFilter) (root : Oid) (olds : List Old) (s : Found) :
    Except UploadError Found :=
  if root ∈ s.set then .ok s
  else diffTree loc repo.sizes filter (treeFuel loc) root olds 0 (s.insert root)

/-- One commit of the walk, with the number of commits taken. -/
def takeCommit (filter : PackFilter) (diffMode : Bool) (hidden : List Oid) (s : Found × ℕ)
    (cid : Oid) : Except UploadError (Found × ℕ) :=
  if cid ∈ hidden ∨ cid ∈ s.1.set then .ok s
  else
    let found := s.1.insert cid
    match loc.find cid with
    | none => .ok (found.miss [cid], s.2 + 1)
    | some (.commit root parents) =>
      if filter = .tree 0 then .ok (found, s.2 + 1)
      else if parents.isEmpty || !diffMode then do
        let found ← diffRoot repo loc filter root [] found
        pure (found, s.2 + 1)
      else do
        let (olds, missing) ← parents.foldlM (parentTree loc) ([], [])
        if missing ≠ [] then pure ((found.miss missing).remove cid, s.2)
        else do
          let found ← diffRoot repo loc filter root olds found
          pure (found, s.2 + 1)
    | some _ => .error (.gix "expected a commit")

/-- Annotated tags of the refs whose target is sent. -/
def addTags (refs set : List Oid) : List Oid :=
  refs.foldl (fun set id =>
    if id ∈ set then set
    else match loc.find id with
      | some (.tag target) => if target ∈ set then id :: set else set
      | _ => set) set

def includeTags (includeTag : Bool) (set : List Oid) : List Oid :=
  match includeTag, repo.refs with
  | true, some refs => addTags loc refs set
  | _, _ => set

inductive Enumerated where
  | done (set : List Oid) (commits : ℕ) (diffed : Bool)
  | need (missing : List Oid)
  deriving DecidableEq, Repr

/-- The tips that hide commits; a have that is shallow on the client does not. -/
def hiddenTips (req : UploadPackRequest) (commonHaves : List Oid) :
    Except UploadError (List Oid) :=
  let hidden := commonHaves.filter (· ∉ req.shallow)
  match req.deepen with
  | none => .ok hidden
  | some depth => do
    let plan ← computeShallow loc req.wants depth
    pure (hidden ++ plan.exclude)

def walkCommits (tips hidden : List Oid) : Except UploadError (List Oid) :=
  if tips.isEmpty then .ok []
  else match repo.walk.walk tips hidden with
    | .ok commits => .ok commits
    | .error e => .error (.gix e)

/-- The enumeration by tree diffs, once. -/
def diffObjects (req : UploadPackRequest) (commonHaves : List Oid) (contains : Oid → Bool) :
    Except UploadError Enumerated := do
  let filter := req.packFilter
  let diffMode := !commonHaves.isEmpty
  let wanted ← req.wants.foldlM (addWant repo loc filter contains) {}
  let hidden ← hiddenTips loc req commonHaves
  let commits ← walkCommits repo wanted.commits hidden
  let (found, taken) ← commits.foldlM (takeCommit repo loc filter diffMode hidden) (wanted.found, 0)
  if found.missing ≠ [] then pure (.need (found.missing.insertionSort (· ≤ ·)).dedup)
  else pure (.done (includeTags repo loc req.includeTag found.set) taken diffMode)

/-- The wants of `compute_object_set`: what is taken, and the commits to walk from. -/
def chaseTag : ℕ → Oid → List Oid → Except UploadError (Oid × List Oid)
  | 0, _, _ => .error .exhausted
  | fuel + 1, cur, set =>
    match loc.find cur with
    | none => .error (.gix ("object not found: " ++ cur))
    | some (.tag target) => chaseTag fuel target (set.insert target)
    | some _ => .ok (cur, set)

def addLocalWant (filter : PackFilter) (s : List Oid × List Oid) (want : Oid) :
    Except UploadError (List Oid × List Oid) :=
  let set := s.1.insert want
  match loc.find want with
  | some (.commit _ _) => .ok (s.1, s.2 ++ [want])
  | some (.tag _) => do
    let (last, set) ← chaseTag loc (treeFuel loc) want set
    match loc.find last with
    | some (.commit _ _) => pure (set, s.2 ++ [last])
    | _ => pure (set, s.2)
  | some (.tree _) =>
    if filter = .tree 0 then .ok (set, s.2)
    else do
      let set ← walkTree loc repo.sizes filter (treeFuel loc) want 0 set
      pure (set, s.2)
  | some .blob | none => .ok (set, s.2)

/-- A commit whose tree is walked; `whole` leaves that to the writer of the pack. -/
def takeLocalCommit (filter : PackFilter) (whole : Bool) (set : List Oid) (cid : Oid) :
    Except UploadError (List Oid) :=
  if cid ∈ set then .ok set
  else if whole then .ok (cid :: set)
  else
    match loc.find cid with
    | some (.commit root _) =>
      if filter = .tree 0 ∨ root ∈ cid :: set then .ok (cid :: set)
      else walkTree loc repo.sizes filter (treeFuel loc) root 0 (root :: cid :: set)
    | _ => .error (.gix "expected a commit")

def computeObjectSet (req : UploadPackRequest) (commonHaves : List Oid) :
    Except UploadError (List Oid) := do
  let filter := req.packFilter
  let (set, tips) ← req.wants.foldlM (addLocalWant repo loc filter) ([], [])
  let plan ← match req.deepen with
    | none => pure ⟨[], []⟩
    | some depth => computeShallow loc req.wants depth
  let commits ← walkCommits repo tips (commonHaves ++ plan.exclude)
  let whole := req.filter.isNone && req.deepen.isNone && commonHaves.isEmpty
  let set ← commits.foldlM (takeLocalCommit repo loc filter whole) set
  pure (includeTags repo loc req.includeTag set)

/-- One enumeration: without haves and with everything local, the trees are walked whole. -/
def enumerate (req : UploadPackRequest) (commonHaves : List Oid) (faulter : Option (Faulter db)) :
    Except UploadError Enumerated :=
  if commonHaves.isEmpty && faulter.isNone then do
    let set ← computeObjectSet repo loc req commonHaves
    pure (.done set 0 false)
  else
    diffObjects repo loc req commonHaves fun id => faulter.any fun f => f.contains id

end Enumerate

section Rounds

variable {db : Odb} (repo : Repo db)

def maxFaultRounds : ℕ := 64

/-- Missing objects are copied from the remote part; the first one is named when that fails. -/
def faultIn (faulter : Option (Faulter db)) (loc : Odb) (ids : List Oid) :
    Except UploadError (Odb × ℕ) :=
  match faulter with
  | none => .error (.missingObject (ids.headD ""))
  | some f => f.fault loc ids

/-- The wants that only the remote part has are copied first. -/
def faultWants (faulter : Option (Faulter db)) (loc : Odb) (wants : List Oid) :
    Except UploadError Odb :=
  match wants.filter fun w => !loc.has w && faulter.any fun f => f.contains w with
  | [] => .ok loc
  | missing => do
    let (loc, found) ← faultIn faulter loc missing
    if found < missing.length then throw (.missingObject (missing.headD "")) else pure loc

/-- Enumerations until one needs nothing more; `remaining` bounds the rounds. -/
def enumerateRounds (req : UploadPackRequest) (commonHaves : List Oid)
    (faulter : Option (Faulter db)) : ℕ → Odb → Except UploadError (List Oid × Odb)
  | remaining, loc => do
    match ← enumerate repo loc req commonHaves faulter with
    | .done set _ _ => pure (set, loc)
    | .need missing =>
      if faulter.isNone then throw (.missingObject (missing.headD ""))
      else match remaining with
        | 0 => throw (.protocol ("object enumeration did not converge after " ++
            toString maxFaultRounds ++ " fault rounds (" ++ toString missing.length ++
            " still missing)"))
        | remaining + 1 => do
          let (loc, found) ← faultIn faulter loc missing
          if found = 0 then throw (.missingObject (missing.headD ""))
          else enumerateRounds req commonHaves faulter remaining loc

def commonHaves (faulter : Option (Faulter db)) (loc : Odb) (haves : List Oid) : List Oid :=
  haves.filter fun h => loc.has h || faulter.any fun f => f.contains h

/-- The objects that `produce_pack` sends; the last of them are copied before they are packed. -/
def producePack (req : UploadPackRequest) (commonHaves : List Oid) (faulter : Option (Faulter db))
    (loc : Odb) : Except UploadError (List Oid) := do
  let loc ← faultWants faulter loc req.wants
  let (set, loc) ← enumerateRounds repo req commonHaves faulter maxFaultRounds loc
  match set.filter fun id => !loc.has id with
  | [] => pure set
  | missing => do
    let (_, found) ← faultIn faulter loc missing
    if found < missing.length then throw (.missingObject (missing.headD "")) else pure set

end Rounds

end UploadPack

end Walgit
