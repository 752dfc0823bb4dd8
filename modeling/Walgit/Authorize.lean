import Walgit.Access
import Walgit.Accounts
import Walgit.Checks

/-!
# Authorization

What a request's subject may do on a repository: the role its access record gives the account,
or everything where the subject owns the namespace.
-/
namespace Walgit

inductive ApiError where
  | notFound (message : String)
  | badRequest (message : String)
  | unauthorized
  | forbidden
  /-- A role the operation needs. -/
  | denied (message : String)
  | conflict (message : String)
  | serviceUnavailable (message : String)
  | internal (message : String)
  deriving DecidableEq, Repr

structure RepoId where
  owner : String
  name : String
  deriving DecidableEq, Repr

def RepoId.text (id : RepoId) : String := id.owner ++ "/" ++ id.name

/-- Who a request is, as authorization sees it. -/
structure Subject where
  name : String
  /-- The account; none for nobody. -/
  userId : Option String
  email : String
  canCreate : Bool
  siteAdmin : Bool
  deriving DecidableEq, Repr

namespace Subject

def isAnonymous (s : Subject) : Bool := s.userId.isNone

/-- What the principals of a policy match. -/
def names (s : Subject) : List String := if s.email = "" then [s.name] else [s.name, s.email]

/-- How a subject asks; `ownerAdmin` if it administers or owns the namespace. -/
def asker (s : Subject) (ownerAdmin : Bool) : Asker := ⟨s.userId, ownerAdmin⟩

end Subject

/-- What a subject may do on one repository. -/
structure Grant where
  subject : Subject
  role : Role
  ownerAdmin : Bool
  deriving DecidableEq, Repr

namespace Grant

/-- The actor the publisher judges again. -/
def actor (g : Grant) : Actor := ⟨g.subject.name, g.subject.userId.getD "", g.ownerAdmin⟩

/-- The user may write under this access record, or owns the repository. -/
def mayWrite (g : Grant) (access : Option RepoAccess) : Prop :=
  Role.write ≤ Walgit.role access (g.subject.asker g.ownerAdmin) false

instance (g : Grant) (access : Option RepoAccess) : Decidable (g.mayWrite access) :=
  inferInstanceAs (Decidable (Role.write ≤ _))

end Grant

def Role.asStr : Role → String
  | .none => "none"
  | .read => "read"
  | .triage => "triage"
  | .write => "write"
  | .maintain => "maintain"
  | .admin => "admin"

def operation : Role → String
  | .none | .read => "reading"
  | .triage => "this"
  | .write => "writing"
  | .maintain => "changing settings"
  | .admin => "administering"

/-- A repository that may not be seen reads like a missing one. -/
def noAccess (s : Subject) : ApiError :=
  if s.isAnonymous then .unauthorized else .notFound "repository"

def needsRole (id : RepoId) (s : Subject) (need have_ : Role) : String :=
  operation need ++ " needs " ++ need.asStr ++ " access to " ++ id.text ++ "; " ++ s.name ++
    " has " ++ have_.asStr

/-- The role in the access record decides; only if it falls short the namespace is asked for. -/
def authorize (id : RepoId) (access : Option RepoAccess) (anonymousRead : Bool) (s : Subject)
    (need : Role) (owns : Except ApiError Bool) : Except ApiError Grant := do
  let held := role access (s.asker s.siteAdmin) anonymousRead
  let ownerAdmin ← (if held < need && !s.siteAdmin && !s.isAnonymous then owns
    else .ok s.siteAdmin)
  let held := role access (s.asker ownerAdmin) anonymousRead
  if need ≤ held then pure ⟨s, held, ownerAdmin⟩
  else if held = .none || s.isAnonymous then throw (noAccess s)
  else throw (.denied (needsRole id s need held))

namespace AccountsState

/-- Whether the account owns the namespace; an organisation it does not own says nothing. -/
def mine (s : AccountsState) (owner me : String) : Option Bool :=
  match s.namespaceOf owner with
  | .user u => some (u.userId == me)
  | .org o => if (o.owners.find? me).isSome then some true else none
  | .reserved | .free => none

end AccountsState

section Roles

variable {access : Option RepoAccess}

/-- The role an account has as a collaborator. -/
def collaborator (access : Option RepoAccess) (userId : Option String) : Role :=
  (do
    let id ← userId
    let a ← access
    a.collaborators.find? id).elim Role.none Role.fromProto

/-- Visibility gives no more than reading, so only owners and collaborators write. -/
theorem write_le_role {who : Asker} {anonymousRead : Bool} :
    Role.write ≤ role access who anonymousRead ↔
      who.ownerAdmin = true ∨ Role.write ≤ collaborator access who.userId := by
  unfold role
  by_cases howner : who.ownerAdmin
  · rw [if_pos howner]
    exact iff_of_true (by decide) (Or.inl howner)
  · rw [if_neg howner]
    simp only [howner, Bool.false_eq_true, false_or, le_max_iff]
    refine or_iff_left fun hfloor => ?_
    revert hfloor
    cases (access.map RepoAccess.visibility).getD .publicRepo <;> simp only <;>
      (try split_ifs) <;> decide

/-- The publisher takes an actor without an account for nobody. -/
theorem Grant.mayWrite_of_actor {g : Grant} (h : Role.write ≤ g.actor.role access) :
    g.mayWrite access := by
  refine write_le_role.mpr ((write_le_role.mp h).imp_right fun hrole => ?_)
  simp only [Grant.actor] at hrole
  simp only [Subject.asker]
  cases huser : g.subject.userId with
  | none => simpa [huser] using hrole
  | some id =>
    simp only [huser, Option.getD_some] at hrole
    split_ifs at hrole
    · exact absurd hrole (show ¬Role.write ≤ Role.none by decide)
    · exact hrole

/-- Who is let in has the role, as the owner only if it administers or owns. -/
theorem authorize_ok {id : RepoId} {anonymousRead : Bool} {s : Subject} {need : Role}
    {owns : Except ApiError Bool} {g : Grant}
    (h : authorize id access anonymousRead s need owns = .ok g) :
    g.subject = s ∧ need ≤ role access (s.asker g.ownerAdmin) anonymousRead ∧
      (g.ownerAdmin → s.siteAdmin ∨ owns = .ok true) := by
  unfold authorize at h
  obtain ⟨ownerAdmin, howner, h⟩ := Checks.bind_eq_ok.mp h
  dsimp only at h
  split_ifs at h with hrole hnone
  cases h
  refine ⟨rfl, hrole, fun hadmin => ?_⟩
  split_ifs at howner
  · exact Or.inr (hadmin ▸ howner)
  · cases howner
    exact Or.inl hadmin

end Roles

end Walgit
