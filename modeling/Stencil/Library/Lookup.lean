import Stencil.Config.Strategy
import Stencil.Definition
import Stencil.Namespace.Tree

/-! # Names are looked up from a namespace outwards

A name with a path is looked up in the first namespace under which its path exists, and nowhere
else. A bare name means the innermost alias that fits, and otherwise one of the definitions of that
name in the namespaces around.
-/
namespace Stencil

/-- What there is to look names up in, and the settings by which that is done. -/
structure Library where
  namespaces : NamespaceTree
  definitions : Definitions
  strategy : Strategy
  firstIndex : Nat

/-- What a look-up finds. -/
inductive Outcome where
  | found (id : DefId)
  | ambiguous (ids : List DefId)
  | notFound
  deriving DecidableEq

namespace Outcome

def ofCandidates : List DefId → Outcome
  | [] => notFound
  | [id] => found id
  | ids => ambiguous ids

def definition? : Outcome → Option DefId
  | found id => some id
  | _ => none

/-- The first definition found, also where there are several. -/
def first? : Outcome → Option DefId
  | found id => some id
  | ambiguous ids => ids.head?
  | notFound => none

def isFound : Outcome → Bool
  | found _ => true
  | _ => false

def isAmbiguous : Outcome → Bool
  | ambiguous _ => true
  | _ => false

end Outcome

/-- One part of what a use expects, narrowed by what its name says of it. -/
def Name.combinePart {α : Type} [DecidableEq α] (n : Name) (keyword : α → String) :
    Option α → Option α → Except Problem (Option α)
  | some said, some wanted =>
    if said = wanted then .ok (some said)
    else .error (.wrongKind n.render (keyword wanted) (keyword said))
  | said, wanted => .ok (said.or wanted)

/-- What a use expects, narrowed by what its name says. -/
def Name.combine (n : Name) (expected : Category) :
    Except Problem Category := do
  let origin ← n.combinePart Origin.keyword n.origin expected.origin
  let kind ← n.combinePart Kind.keyword n.kind expected.kind
  return ⟨origin, kind⟩

namespace Library

def find (l : Library) (id : DefId) : Except Fault Definition := l.definitions.find id

/-- The definition an alias stands for, if it is of the category. -/
def aliasIn (l : Library) (name : String) (c : Category) (ns : NamespaceId) :
    Except Fault (Option DefId) := do
  match (← l.namespaces.find ns).aliases.get? name with
  | some (.definition id) =>
    return if c.covers (← l.find id).identity then some id else none
  | _ => return none

/-- The innermost alias of that name for a definition of the category. -/
def aliasFor (l : Library) (start : NamespaceId) (name : String) (c : Category) :
    Except Fault (Option DefId) := do
  (← l.namespaces.outwardFrom start).findSomeM? (l.aliasIn name c)

/-- The candidates for a bare name in each namespace that has any, innermost first. -/
def levels (l : Library) (start : NamespaceId) (name : String) (c : Category) :
    Except Fault (List (List DefId)) := do
  let all ← (← l.namespaces.outwardFrom start).mapM fun ns => l.namespaces.named ns name c
  return all.filter fun ids => !ids.isEmpty

def isExplicit (l : Library) (id : DefId) : Except Fault Bool := do
  return (← l.namespaces.find (← l.find id).home).explicit

/-- Chooses among the candidates of several namespaces. -/
def choose (l : Library) (levels : List (List DefId)) : Except Fault Outcome := do
  let all := levels.flatten
  if all.length ≤ 1 then return .ofCandidates all
  match l.strategy with
  | .preferCurrent => return .ofCandidates (levels.head?.getD [])
  | .preferExplicit =>
    match ← all.findM? l.isExplicit with
    | some id => return .found id
    | none => return (all.head?.map Outcome.found).getD .notFound
  | .error => return .ambiguous all

def lookupUnder (l : Library) (start : NamespaceId) (path : List String) (name : String)
    (c : Category) : Except Fault Outcome := do
  match ← l.namespaces.search start path with
  | none => return .notFound
  | some ns => return .ofCandidates (← l.namespaces.named ns name c)

def lookupBare (l : Library) (start : NamespaceId) (name : String) (c : Category) :
    Except Fault Outcome := do
  match ← l.aliasFor start name c with
  | some id => return .found id
  | none => l.choose (← l.levels start name c)

/-- Looks a name up from the namespace `start`. -/
def lookup (l : Library) (start : NamespaceId) (n : Name) (c : Category) :
    Except Fault Outcome :=
  if n.hasPath then l.lookupUnder start n.path n.name c else l.lookupBare start n.name c

/-- A definition with the namespace it is in, as in `[Template] @Style Box (space.room)`. -/
def title (l : Library) (id : DefId) : Except Fault String := do
  let d ← l.find id
  let path := ".".intercalate (← l.namespaces.pathOf d.home)
  return if path.isEmpty then d.identity.render else d.identity.render ++ " (" ++ path ++ ")"

/-- The error for a name that could mean several definitions. -/
def ambiguous (l : Library) (n : Name) (ids : List DefId) :
    Except Fault Problem := do
  return .ambiguous n.render (← ids.mapM l.title)

/-- The error for a name that means nothing of the category. It tells of a definition of another
category, if the name means one. -/
def missing (l : Library) (start : NamespaceId) (n : Name) (c : Category) :
    Except Fault Problem := do
  if c = .any then return .unresolved n.render
  match (← l.lookup start n .any).first? with
  | none => return .unresolved n.render
  | some id => return .wrongKind n.render c.render (← l.find id).identity.render

/-- The one definition that a name means from the namespace `start`. -/
def resolve (l : Library) (start : NamespaceId) (n : Name) (expected : Category) :
    Except Failure DefId := do
  let c ← n.combine expected
  match ← l.lookup start n c with
  | .found id => return id
  | .ambiguous ids => .error (.refused (← l.ambiguous n ids))
  | .notFound => .error (.refused (← l.missing start n c))

/-- Reads a name token and resolves it. -/
def resolveText (l : Library) (start : NamespaceId) (token : String) (expected : Category) :
    Except Failure DefId := do
  match Name.parse token with
  | .ok n => l.resolve start n expected
  | .error e => .error (.refused (.malformed token e.message))

/-- Adds a definition to those seen, unless it is of another category or one of its identity is
there. -/
def addVisible (l : Library) (c : Category) (seen : List (Identity × DefId)) (id : DefId) :
    Except Fault (List (Identity × DefId)) := do
  let identity := (← l.find id).identity
  return if c.covers identity && (seen.lookup identity).isNone then
    seen ++ [(identity, id)] else seen

/-- Every definition of the category that is visible from a namespace. An identity hides the
same identity further out. -/
def visible (l : Library) (start : NamespaceId) (c : Category) : Except Fault (List DefId) := do
  let ids ← (← l.namespaces.outwardFrom start).mapM fun ns => do
    return (← l.namespaces.find ns).registered
  return (← ids.flatten.foldlM (l.addVisible c) []).map Prod.snd

end Library
end Stencil
