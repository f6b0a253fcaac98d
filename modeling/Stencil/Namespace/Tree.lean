import Stencil.Namespace.Node

/-! # The tree of namespaces

A path that is opened twice is one namespace, so blocks and imports of the same path share their
definitions.
-/
namespace Stencil

structure NamespaceTree where
  table : Arena .namespaces Namespace

namespace NamespaceTree

def initial : NamespaceTree := ⟨⟨#[.fresh "" none]⟩⟩

def find (t : NamespaceTree) (id : NamespaceId) : Except Fault Namespace := t.table.find id

def modify (t : NamespaceTree) (id : NamespaceId) (f : Namespace → Namespace) : NamespaceTree :=
  ⟨t.table.modify id f⟩

/-- The namespaces from `id` up to the root. A namespace is older than those inside it. -/
def outward (t : NamespaceTree) (id : NamespaceId) : List NamespaceId :=
  match (t.table.get? id).bind Namespace.parent with
  | none => [id]
  | some p => if p.index < id.index then id :: t.outward p else [id]
termination_by id.index

/-- The namespaces from `id`, which has to be one, up to the root. -/
def outwardFrom (t : NamespaceTree) (id : NamespaceId) : Except Fault (List NamespaceId) := do
  let _ ← t.find id
  return t.outward id

/-- Whether `ancestor` is `id` or one of the namespaces around it. -/
def isInside (t : NamespaceTree) (id ancestor : NamespaceId) : Except Fault Bool := do
  return (← t.outwardFrom id).contains ancestor

def nameOf (t : NamespaceTree) (id : NamespaceId) : String :=
  ((t.table.get? id).map Namespace.name).getD ""

/-- The names from the root, which has none, down to `id`. -/
def path (t : NamespaceTree) (id : NamespaceId) : List String :=
  (((t.outward id).filter fun ns => decide (ns ≠ .root)).map t.nameOf).reverse

def pathOf (t : NamespaceTree) (id : NamespaceId) : Except Fault (List String) := do
  let _ ← t.find id
  return t.path id

def renderPath (t : NamespaceTree) (id : NamespaceId) : String := ".".intercalate (t.path id)

def title (t : NamespaceTree) (id : NamespaceId) : String :=
  if id = .root then "the global namespace" else "namespace '" ++ t.renderPath id ++ "'"

def child (t : NamespaceTree) (id : NamespaceId) (name : String) :
    Except Fault (Option NamespaceId) := do
  return (← t.find id).children.get? name

/-- Follows a path downwards. -/
def follow (t : NamespaceTree) : NamespaceId → List String → Except Fault (Option NamespaceId)
  | id, [] => .ok (some id)
  | id, segment :: rest => do
    match ← t.child id segment with
    | none => return none
    | some c => t.follow c rest

/-- The child of that name, which is made if there is none. -/
def openChild (t : NamespaceTree) (id : NamespaceId) (name : String) :
    Except Fault (NamespaceId × NamespaceTree) := do
  match ← t.child id name with
  | some c => return (c, t)
  | none =>
    let c := t.table.nextId
    let grown : NamespaceTree := ⟨t.table.push (.fresh name (some id))⟩
    return (c, grown.modify id fun n => { n with children := n.children.insert name c })

/-- Follows a path downwards and makes what is missing. -/
def openPath (t : NamespaceTree) : NamespaceId → List String →
    Except Fault (NamespaceId × NamespaceTree)
  | id, [] => .ok (id, t)
  | id, segment :: rest => do
    let (c, t) ← t.openChild id segment
    t.openPath c rest

/-- Marks a namespace other than the root as opened by a block of its own. -/
def markExplicit (t : NamespaceTree) (id : NamespaceId) : Except Fault NamespaceTree := do
  if id = .root then return t
  let _ ← t.find id
  return t.modify id fun n => { n with explicit := true }

/-- Opens the namespace at a path below `parent`. -/
def openAt (t : NamespaceTree) (parent : NamespaceId) (path : List String) (explicit : Bool) :
    Except Fault (NamespaceId × NamespaceTree) := do
  let (id, t) ← t.openPath parent path
  if explicit then return (id, ← t.markExplicit id) else return (id, t)

/-- Follows a path whose first name is an alias of a namespace. -/
def followAlias (t : NamespaceTree) (id : NamespaceId) : List String →
    Except Fault (Option NamespaceId)
  | [] => .ok none
  | first :: rest => do
    match (← t.find id).aliases.get? first with
    | some (.space target) => t.follow target rest
    | _ => return none

/-- The first namespace, from `start` up to the root, under which the path exists. At each one
its aliases are tried before its children. -/
def search (t : NamespaceTree) (start : NamespaceId) (path : List String) :
    Except Fault (Option NamespaceId) := do
  (← t.outwardFrom start).findSomeM? fun ns => do
    match ← t.followAlias ns path with
    | some found => return some found
    | none => t.follow ns path

/-- Registers an alias; a namespace has at most one of each name. -/
def addAlias (t : NamespaceTree) (id : NamespaceId) (name : String) (target : Meaning) :
    Except Failure NamespaceTree := do
  if (← t.find id).aliases.contains name then
    .error (.refused (.duplicate ("alias " ++ name) (t.title id)))
  else return t.modify id fun n => { n with aliases := n.aliases.insert name target }

/-- Registers a definition; a namespace has at most one of each identity. -/
def addDefinition (t : NamespaceTree) (id : NamespaceId) (identity : Identity) (d : DefId) :
    Except Failure NamespaceTree := do
  if (← t.find id).definitions.contains identity then
    .error (.refused (.duplicate identity.render (t.title id)))
  else return t.modify id fun n => { n with definitions := n.definitions.insert identity d }

def definitionIn (t : NamespaceTree) (id : NamespaceId) (identity : Identity) :
    Except Fault (Option DefId) := do
  return (← t.find id).definitions.get? identity

def named (t : NamespaceTree) (id : NamespaceId) (name : String) (c : Category) :
    Except Fault (List DefId) := do
  return (← t.find id).named name c

/-- The only definition of that name and category in the namespace that the path leads to. -/
def onlyNamed (t : NamespaceTree) (start : NamespaceId) (path : List String)
    (name : String) (c : Category) : Except Fault (Option DefId) := do
  match ← t.search start path with
  | none => return none
  | some ns =>
    match ← t.named ns name c with
    | [only] => return some only
    | _ => return none

/-- Opens the counterpart of one namespace of another tree. `mapping` holds the counterparts of
the older ones. -/
def copyNode (under : NamespaceId) (mapping : List NamespaceId) (t : NamespaceTree)
    (n : Namespace) : Except Fault (List NamespaceId × NamespaceTree) := do
  let parent ←
    match n.parent with
    | none => pure under
    | some p =>
      match mapping[p.index]? with
      | some q => pure q
      | none => .error .outsideTable
  let (id, t) ← t.openAt parent [n.name] n.explicit
  return (mapping ++ [id], t)

/-- Opens below `under` every namespace of another tree, whose root becomes `under` itself.
The list has the counterpart of each of them, by id. -/
def copyTree (t other : NamespaceTree) (under : NamespaceId) :
    Except Fault (List NamespaceId × NamespaceTree) :=
  (other.table.entries.toList.drop 1).foldlM
    (fun (mapping, t) n => copyNode under mapping t n) ([under], t)

end NamespaceTree
end Stencil
