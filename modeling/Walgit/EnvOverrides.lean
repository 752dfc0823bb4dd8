import Mathlib.Data.List.DropRight
import Walgit.Credentials
import Walgit.HostConfig
import Walgit.ShapedEdits

/-!
# Overrides from the environment

`Config::apply_env_report`: each `WALGIT__SECTION__KEY` variable is tried against the document
that the variables before it left, and one that this build cannot read is reported and has no
effect. `[placement]` is set as a group: a variable of the group replaces the whole section.
-/
namespace Walgit.HostConfig

open Document SortedMap Text

/-- What the `toml` crate does with single values and with documents it refuses. -/
structure Toml (ρ : Type) extends Serde kinds ρ where
  /-- A value from its text. -/
  parse : String → Option (Value ρ)
  string : String → ρ
  /-- The first line of the error for a document that is no configuration. -/
  complaint : Table ρ → String

/-- Values in the notation of the fields themselves; a text of digits is a number. -/
def literalToml : Toml FieldValue where
  read t v :=
    match v with
    | .plain s => if t.of s then some s else none
    | .table _ => none
  write s := if s = .optionalText none ∨ s = .optionalTexts none then none else some s
  unpack _ _ := none
  written {t s} h := by
    cases t <;> cases s <;> simp_all [kinds, FieldType.of, FieldType.omitted] <;> exact eq_comm
  readable {t s r} h hw := by
    split_ifs at hw
    cases hw
    simpa [kinds] using h
  faithful {t s r} hexact h hw := by
    split_ifs at hw
    cases hw
    simpa [kinds] using h
  refuses entries h := rfl
  parse text := (parseU64 text.toList).map fun n => .plain (.count n)
  string := .text
  complaint _ := "invalid"

/-- `split("__")`. -/
def splitUnderscores : List Char → List (List Char)
  | '_' :: '_' :: rest => [] :: splitUnderscores rest
  | c :: rest =>
    match splitUnderscores rest with
    | word :: words => (c :: word) :: words
    | [] => [[c]]
  | [] => [[]]

/-- The path a variable's name spells behind `WALGIT__`. -/
def pathOf (rest : String) : List String :=
  (splitUnderscores rest.toList).map fun word => toAsciiLowercase (String.ofList word)

section Origin

/-- `split_once("://")`. -/
def splitScheme : List Char → Option (List Char × List Char)
  | ':' :: '/' :: '/' :: rest => some ([], rest)
  | c :: rest => (splitScheme rest).map fun (scheme, rest) => (c :: scheme, rest)
  | [] => none

def trimSlashes (origin : List Char) : List Char := origin.rdropWhile (· = '/')

def untilPortOrPath (rest : List Char) : List Char := rest.takeWhile fun c => c ≠ ':' ∧ c ≠ '/'

def originHost (origin : List Char) : List Char :=
  let rest := ((splitScheme (trimSlashes origin)).map Prod.snd).getD origin
  match rest with
  | '[' :: inside => ((Auth.splitOnce ']' inside).map Prod.fst).getD inside
  | rest => untilPortOrPath rest

def originIsLoopback (origin : String) : Bool :=
  let host := String.ofList (originHost origin.toList)
  host = "localhost" || endsWith ".localhost" host || host = "127.0.0.1" || host = "::1"

def rewriteOriginPort (origin : String) (port : ℕ) : String :=
  let origin := trimSlashes origin.toList
  match splitScheme origin with
  | none => String.ofList origin
  | some (scheme, rest) =>
    let host :=
      if rest.head? = some '[' then
        ((Auth.splitOnce ']' rest).map fun (h, _) => h ++ [']']).getD rest
      else untilPortOrPath rest
    let default := if Auth.eqIgnoreAsciiCase (String.ofList scheme) "https" then 443 else 80
    let url := String.ofList scheme ++ "://" ++ String.ofList host
    if port = default then url else url ++ ":" ++ toString port

/-- Change the value of the field at a path. -/
def update (f : FieldValue → FieldValue) : List String → Config → Config
  | [], .value s => .value (f s)
  | k :: rest, .record fields =>
    .record (fields.map fun e => if e.1 = k then (e.1, update f rest e.2) else e)
  | _, c => c

/-- What `PORT` sets: the port to listen on, and that of a public URL on this machine. -/
def setPort (c : Config) (port : ℕ) : Config :=
  let listen : FieldValue → FieldValue
    | .address ip _ => .address ip port
    | s => s
  let publicUrl : FieldValue → FieldValue
    | .optionalText (some u) =>
      .optionalText (some (if originIsLoopback u then rewriteOriginPort u port else u))
    | s => s
  update publicUrl ["server", "public_url"] (update listen ["server", "listen"] c)

end Origin

section Code

variable {ρ : Type} (T : Toml ρ)

/-- `toml::Table::try_from`. -/
def document (c : Config) : Table ρ :=
  match T.encode c with
  | some (.table t) => t
  | _ => []

/-- The value of a variable: text where it is no value of a document. -/
def valueOf (text : String) : Value ρ := (T.parse text).getD (.plain (T.string text))

def reason : SetError → String
  | .emptyPath => "empty configuration path"
  | .notTable key => key ++ " is not a table"

/-- A copy of the document with the value applied, checked as a whole. -/
def trial (doc : Table ρ) (path : List String) (value : Value ρ) : Except String (Table ρ) :=
  match set path value doc with
  | .error e => .error (reason e)
  | .ok trial => if T.accepts config (.table trial) then .ok trial else .error (T.complaint trial)

structure Overrides (ρ : Type) where
  varsSeen : List String
  doc : Table ρ
  touched : Bool
  ignored : List (String × String)
  portOverride : Option ℕ

def applyVar (s : Overrides ρ) (var : String × String) : Overrides ρ :=
  if var.1 = "PORT" then
    { s with portOverride := (parseU64 var.2.toList).filter (· < 2 ^ 16) }
  else
    match Auth.stripPrefix "WALGIT__" var.1 with
    | none => s
    | some rest =>
      let s := { s with varsSeen := s.varsSeen ++ [var.1] }
      if (pathOf rest).isEmpty || (pathOf rest).any (· = "") then s
      else
        match trial T s.doc (pathOf rest) (valueOf T var.2) with
        | .error why => { s with ignored := s.ignored ++ [(var.1, why)] }
        | .ok trial => { s with doc := trial, touched := true }

/-- The names behind `WALGIT__PLACEMENT__` of the variables that were seen. -/
def placementKeys (varsSeen : List String) : List String :=
  (varsSeen.filterMap (Auth.stripPrefix "WALGIT__PLACEMENT__")).map toAsciiLowercase

def copyKey (table out : Table ρ) (k : String) : Table ρ :=
  match lookup k table with
  | some v => insertEntry k v out
  | none => out

def envPlacementOverrides (doc : Table ρ) (varsSeen : List String) : Option (Table ρ) :=
  if (placementKeys varsSeen).isEmpty then none
  else
    match lookup "placement" doc with
    | some (.table table) => some ((placementKeys varsSeen).foldl (copyKey table) [])
    | _ => none

/-- `PlacementConfig::default()`. -/
def placementDefaults : List (String × Config) := [
  ("serve", .value (.texts defaultAllRepos)),
  ("serve_exclude", .value (.texts [])),
  ("maintain", .value (.texts defaultAllRepos)),
  ("maintain_exclude", .value (.texts []))]

/-- The defaults of `[placement]` with what the variables set on top. -/
def freshPlacement (env : Table ρ) : Table ρ :=
  env.foldl (fun fresh e => insertEntry e.1 e.2 fresh) (T.encodeFields placementDefaults)

def applyGroup (s : Overrides ρ) : Overrides ρ :=
  match envPlacementOverrides s.doc s.varsSeen with
  | none => s
  | some env =>
    { s with doc := insertEntry "placement" (.table (freshPlacement T env)) s.doc, touched := true }

/-- The configuration with the overrides, and the variables that were ignored with the reason. -/
def applyEnvReport (self : Config) (vars : List (String × String)) :
    Except String (Config × List (String × String)) :=
  let start : Overrides ρ := ⟨[], document T self, false, [], none⟩
  let s := applyGroup T (vars.foldl (applyVar T) start)
  let applied : Except String Config :=
    if s.touched then
      match T.decode config (.table s.doc) with
      | some c => .ok c
      | none => .error "applying WALGIT__ env overrides"
    else .ok self
  applied.map fun c =>
    (match s.portOverride with
      | some port => setPort c port
      | none => c, s.ignored)

end Code

end Walgit.HostConfig
