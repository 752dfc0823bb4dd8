import Mathlib.Order.Lattice
import Walgit.Proto

/-!
# Repository roles

The role function the publisher applies to the access document of its basis.
-/
namespace Walgit

/-- Ordered: each role includes every role below it. -/
inductive Role where
  | none
  | read
  | triage
  | write
  | maintain
  | admin
  deriving DecidableEq, Repr

namespace Role

def rank : Role → ℕ
  | none => 0
  | read => 1
  | triage => 2
  | write => 3
  | maintain => 4
  | admin => 5

theorem rank_injective : Function.Injective rank := by
  intro a b h
  cases a <;> cases b <;> simp_all [rank]

instance : LinearOrder Role := LinearOrder.lift' rank rank_injective

def fromProto : AccessRole → Role
  | .none => none
  | .read => read
  | .triage => triage
  | .write => write
  | .maintain => maintain
  | .admin => admin

end Role

/-- Who asks, as the role function sees them. -/
structure Asker where
  userId : Option String
  ownerAdmin : Bool
  deriving DecidableEq, Repr

/-- The highest of owner admin, collaborator role and the visibility floor. -/
def role (access : Option RepoAccess) (who : Asker) (anonymousRead : Bool) : Role :=
  if who.ownerAdmin then .admin
  else
    let collaborator := (do
      let id ← who.userId
      let a ← access
      a.collaborators.find? id).elim Role.none Role.fromProto
    let floor : Role := match (access.map RepoAccess.visibility).getD .publicRepo with
      | .publicRepo => if who.userId.isSome || anonymousRead then .read else .none
      | .internalRepo => if who.userId.isSome then .read else .none
      | .privateRepo => .none
    max collaborator floor

/-- Who asks for a forge change. -/
structure Actor where
  login : String
  userId : String
  ownerAdmin : Bool
  deriving DecidableEq, Repr

namespace Actor

def role (a : Actor) (access : Option RepoAccess) : Role :=
  Walgit.role access ⟨if a.userId = "" then none else some a.userId, a.ownerAdmin⟩ false

/-- By account when the record has one, else by name. -/
def is (a : Actor) (id name : String) : Bool :=
  if id = "" then name == a.login else id == a.userId

end Actor

end Walgit
