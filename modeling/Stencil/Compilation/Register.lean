import Stencil.Compilation.Basic
import Stencil.Rule.Clause

/-! # Registration

In the order of the source text, scopes and namespaces are opened and closed, and definitions,
rules and aliases are added where they are written.
-/
namespace Stencil

/-- How far a rule reaches from where it is written. -/
inductive Reach where
  /-- The current scope and those inside it. -/
  | scope
  /-- The current namespace and those inside it. -/
  | global
  deriving DecidableEq

namespace Compiling

/-- Opens the namespace of a file, unless the settings say otherwise. -/
def openFile (stem : String) : Compiling Unit := do
  let c ← get
  if c.config.noFileNamespace || stem.isEmpty then return ()
  let (ns, namespaces) ← c.namespaces.openAt .root [stem] false
  let scopes := c.scopes.openIn .namespaceBlock ns
  set { c with namespaces := namespaces, scopes := scopes, fileScope := some scopes.current }

/-- Closes the namespace of the file and all that is still open inside it. -/
def closeFile : Compiling Unit := do
  let c ← get
  match c.fileScope with
  | none => return ()
  | some opened =>
    let (scopes, fault) := c.scopes.closeThrough opened
    set { c with scopes := scopes, fileScope := none }
    match fault with
    | none => return ()
    | some f => throw (.fault f)

/-- Gives a name a meaning in the current scope unless it has one there. -/
def announce (scopes : Scopes) (name : String) (meaning : Meaning) : Scopes :=
  match scopes.bind name meaning with
  | .ok scopes => scopes
  | .error _ => scopes

/-- Opens a namespace block. Its outermost name gets a meaning in the scope around it. -/
def openNamespacePath (path : List String) : Compiling NamespaceId := do
  let c ← get
  let parent ← c.home
  let (ns, namespaces) ← c.namespaces.openAt parent path true
  let scopes ←
    match path with
    | [] => pure c.scopes
    | first :: _ =>
      match ← namespaces.child parent first with
      | none => pure c.scopes
      | some head => pure (announce c.scopes first (.space head))
  set { c with namespaces := namespaces, scopes := scopes.openIn .namespaceBlock ns }
  return ns

def openNamespace (path : String) : Compiling NamespaceId :=
  recording none do openNamespacePath (← parseDotted path (Text.trim path.toList))

/-- Closes a namespace block, which has to be the innermost scope and not that of the file. -/
def closeNamespace : Compiling Unit := do
  let c ← get
  let kind := (← c.scopes.find c.scopes.current).kind
  if kind = .namespaceBlock ∧ some c.scopes.current ≠ c.fileScope then
    set { c with scopes := ← c.scopes.close }
  else throw (.fault (.noNamespaceBlock kind))

def openScope (kind : BlockKind) : Compiling ScopeId := do
  let c ← get
  let scopes ← c.scopes.openBlock kind
  set { c with scopes := scopes }
  return scopes.current

/-- Leaves the current scope, and gives it back. -/
def closeScope : Compiling ScopeId := do
  let c ← get
  set { c with scopes := ← c.scopes.close }
  return c.scopes.current

/-- Adds a definition to the table, whatever its name. -/
def store (d : Definition) : Compiling DefId :=
  modifyGet fun c => (c.definitions.nextId, { c with definitions := c.definitions.push d })

def addDefinition (ns : NamespaceId) (identity : Identity) (id : DefId) : Compiling Unit := do
  let c ← get
  set { c with namespaces := ← c.namespaces.addDefinition ns identity id }

def addAlias (ns : NamespaceId) (name : String) (target : Meaning) : Compiling Unit := do
  let c ← get
  set { c with namespaces := ← c.namespaces.addAlias ns name target }

def bind (name : String) (meaning : Meaning) : Compiling Unit := do
  let c ← get
  set { c with scopes := ← c.scopes.bind name meaning }

/-- Registers a definition in the current namespace. One that is refused because its identity is
taken still has an id. -/
def addGroup (identity : Identity) (body : Content) (edges : List Inheritance)
    (noValue : NameSet) (span : Option Span) : Compiling DefId :=
  recording span do
    if body.kind ≠ identity.kind then
      refuse (.wrongKind identity.render identity.kind.keyword body.kind.keyword)
    let c ← get
    let home ← c.home
    let id ← store ⟨identity, home, c.scopes.current, edges, body, noValue, span⟩
    addDefinition home identity id
    bind identity.render (.definition id)
    return id

def addTemplate (identity : Identity) (body : Content) (edges : List Inheritance) :
    Compiling DefId :=
  addGroup { identity with origin := .template } body edges .empty none

def addCustom (identity : Identity) (body : Content) (edges : List Inheritance)
    (noValue : NameSet) : Compiling DefId :=
  addGroup { identity with origin := .custom } body edges noValue none

/-- The place of a rule that is written now. -/
def ruleSite : Reach → Compiling RuleSite
  | .scope => do return .scope (← get).scopes.current
  | .global => do return .within (← (← get).home)

def addRule (denial : Denial) (reach : Reach) (span : Option Span) : Compiling Unit := do
  let site ← ruleSite reach
  modify fun c => { c with rules := c.rules ++ [⟨denial, site, span⟩] }

/-- Registers the rules of a clause. -/
def addClause (clause : String) (reach : Reach) (span : Option Span) : Compiling Unit :=
  recording span do
    match Denial.readClause clause with
    | .ok items => items.forM fun denial => addRule denial reach span
    | .error e => refuse (.malformed clause e.message)

def checkAliasName (name : String) : Compiling Unit :=
  if Text.isName name.toList then pure ()
  else refuse (.malformed name (Misspelling.invalid name).message)

/-- Registers an alias in the current namespace for the definition that a token means here. -/
def nameDefinition (name target : String) (span : Option Span) : Compiling DefId :=
  recording span do
    let c ← get
    let home ← c.home
    checkAliasName name
    let id ← c.library.resolveText home target .any
    addAlias home name (.definition id)
    return id

/-- Registers an alias in the current namespace for the namespace to which a path leads from
here. -/
def nameNamespace (name path : String) (span : Option Span) : Compiling NamespaceId :=
  recording span do
    let c ← get
    let home ← c.home
    checkAliasName name
    let segments ← parseDotted path path.toList
    match ← c.namespaces.search home segments with
    | none => refuse (.unresolved path)
    | some target =>
      addAlias home name (.space target)
      return target

end Compiling
end Stencil
