import Walgit.Text
import Walgit.Worklist

/-!
# Git objects

An object store and what its objects name. A tree entry is followed whatever its mode says of the
object; only gitlinks, which name commits of other repositories, are no links. The commit walk of
the git library is a parameter with the set of commits it yields.
-/
namespace Walgit

abbrev Oid := String

inductive EntryMode where
  | tree
  | commit
  | blob
  deriving DecidableEq, Repr

structure TreeEntry where
  mode : EntryMode
  filename : String
  oid : Oid
  deriving DecidableEq, Repr

inductive GitObject where
  | commit (root : Oid) (parents : List Oid)
  | tree (entries : List TreeEntry)
  | tag (target : Oid)
  | blob
  deriving DecidableEq, Repr

namespace GitObject

/-- What an object needs: gitlinks aside, everything it names. -/
def links : GitObject → List Oid
  | commit root parents => root :: parents
  | tree entries => (entries.filter fun e => e.mode ≠ .commit).map TreeEntry.oid
  | tag target => [target]
  | blob => []

def parents : GitObject → List Oid
  | commit _ parents => parents
  | _ => []

end GitObject

/-- An object store. -/
structure Odb where
  objects : List (Oid × GitObject)
  deriving DecidableEq, Repr

namespace Odb

variable (db : Odb)

def find (id : Oid) : Option GitObject := db.objects.lookup id

def has (id : Oid) : Bool := (db.find id).isSome

/-- The object `x` names `y`. -/
def Link (x y : Oid) : Prop := ∃ o, db.find x = some o ∧ y ∈ o.links

def Reaches : Oid → Oid → Prop := Relation.ReflTransGen db.Link

def Reached (tips : List Oid) (x : Oid) : Prop := ∃ t ∈ tips, db.Reaches t x

def parentsOf (id : Oid) : List Oid := ((db.find id).map GitObject.parents).getD []

/-- Commits and the commits they descend from. -/
def Ancestor : Oid → Oid → Prop := Relation.ReflTransGen fun x y => y ∈ db.parentsOf x

variable {db}

theorem mem_parentsOf {x y : Oid} :
    y ∈ db.parentsOf x ↔ ∃ root parents, db.find x = some (.commit root parents) ∧ y ∈ parents := by
  unfold parentsOf
  cases hfind : db.find x with
  | none => simp
  | some o => cases o <;> simp [GitObject.parents]

theorem Link.of_parent {x y : Oid} (h : y ∈ db.parentsOf x) : db.Link x y := by
  obtain ⟨root, parents, hfind, hmem⟩ := mem_parentsOf.mp h
  exact ⟨_, hfind, List.mem_cons_of_mem root hmem⟩

theorem Reached.link {tips : List Oid} {x y : Oid} (h : db.Reached tips x) (hlink : db.Link x y) :
    db.Reached tips y := by
  obtain ⟨t, ht, hreach⟩ := h
  exact ⟨t, ht, hreach.tail hlink⟩

theorem Reached.trans {tips : List Oid} {x y : Oid} (h : db.Reached tips x)
    (hreach : db.Reaches x y) : db.Reached tips y := by
  obtain ⟨t, ht, htx⟩ := h
  exact ⟨t, ht, htx.trans hreach⟩

/-- An entry links its tree to the object it names, unless it is a gitlink. -/
theorem Link.of_entry {tree : Oid} {entries : List TreeEntry} {e : TreeEntry}
    (hfind : db.find tree = some (.tree entries)) (he : e ∈ entries) (hmode : e.mode ≠ .commit) :
    db.Link tree e.oid :=
  ⟨_, hfind, List.mem_map_of_mem (List.mem_filter.mpr ⟨he, by simpa using hmode⟩)⟩

theorem Reaches.of_ancestor {x y : Oid} (h : db.Ancestor x y) : db.Reaches x y :=
  Relation.ReflTransGen.mono (fun _ _ hp => Link.of_parent hp) x y h

/-- What an object of the store names, of all it may name. -/
theorem named_subset (f : GitObject → List Oid) (id : Oid) :
    ((db.find id).map f).getD [] ⊆ db.objects.flatMap fun entry => f entry.2 := by
  intro x hx
  cases hfind : db.find id with
  | none => simp [hfind] at hx
  | some o =>
    rw [hfind] at hx
    obtain ⟨before, after, heq, -⟩ := List.lookup_eq_some_iff.mp hfind
    have hentry : (id, o) ∈ db.objects := by
      rw [heq]
      simp
    exact List.mem_flatMap.mpr ⟨_, hentry, hx⟩

theorem length_named_le (f : GitObject → List Oid) (id : Oid) :
    (((db.find id).map f).getD []).length ≤ (db.objects.flatMap fun entry => f entry.2).length := by
  cases hfind : db.find id with
  | none => exact Nat.zero_le _
  | some o =>
    obtain ⟨before, after, heq, -⟩ := List.lookup_eq_some_iff.mp hfind
    simp only [heq, List.flatMap_append, List.flatMap_cons, List.length_append,
      Option.map_some, Option.getD_some]
    omega

/-- Every parent a commit of the store names. -/
def allParents (db : Odb) : List Oid := db.objects.flatMap fun entry => entry.2.parents

theorem parentsOf_subset (id : Oid) : db.parentsOf id ⊆ db.allParents :=
  named_subset GitObject.parents id

theorem length_parentsOf_le (id : Oid) : (db.parentsOf id).length ≤ db.allParents.length :=
  length_named_le GitObject.parents id

/-- The commits reached from `tips`, in an order that starts with the tips. -/
def ancestors (db : Odb) (tips : List Oid) : List Oid :=
  Worklist.search db.parentsOf
    (Worklist.searchFuel (tips ++ db.allParents) db.allParents.length tips) tips

theorem mem_ancestors {tips : List Oid} {c : Oid} :
    c ∈ db.ancestors tips ↔ ∃ t ∈ tips, db.Ancestor t c :=
  Worklist.mem_search (fun _ ht => List.mem_append_left _ ht) fun id =>
    ⟨fun _ hp => List.mem_append_right _ (parentsOf_subset id hp), length_parentsOf_le id⟩

def linksOf (db : Odb) (id : Oid) : List Oid := ((db.find id).map GitObject.links).getD []

def allLinks (db : Odb) : List Oid := db.objects.flatMap fun entry => entry.2.links

/-- Everything reached from `tips`. -/
def closure (db : Odb) (tips : List Oid) : List Oid :=
  Worklist.search db.linksOf
    (Worklist.searchFuel (tips ++ db.allLinks) db.allLinks.length tips) tips

theorem mem_closure {tips : List Oid} {x : Oid} : x ∈ db.closure tips ↔ db.Reached tips x := by
  have hlink : db.Link = fun x y => y ∈ db.linksOf x := by
    funext x y
    unfold Link linksOf
    cases db.find x <;> simp
  rw [Reached, Reaches, hlink]
  exact Worklist.mem_search (fun _ ht => List.mem_append_left _ ht) fun id =>
    ⟨fun _ hl => List.mem_append_right _ (named_subset GitObject.links id hl),
      length_named_le GitObject.links id⟩

end Odb

/-- A commit walk from tips that hides what other tips reach. When it ends without an error it
yielded exactly the commits that are left. -/
structure RevWalk (db : Odb) where
  walk : List Oid → List Oid → Except String (List Oid)
  exact : ∀ {tips hidden commits}, walk tips hidden = .ok commits → ∀ c, c ∈ commits ↔
    (∃ t ∈ tips, db.Ancestor t c) ∧ ∀ h ∈ hidden, ¬ db.Ancestor h c

/-- A walk that searches the store. -/
def RevWalk.search (db : Odb) : RevWalk db where
  walk tips hidden := .ok ((db.ancestors tips).filter fun c => c ∉ db.ancestors hidden)
  exact := by
    intro tips hidden commits h c
    cases h
    simp only [List.mem_filter, Odb.mem_ancestors, decide_eq_true_eq, not_exists, not_and]

end Walgit
