import Stencil.Config.Basic
import Stencil.Instance.Build

/-! # Compilations

A compilation holds all that is registered while a source text is read, and answers what is asked
afterwards. An error is given back to the caller and also recorded.
-/
namespace Stencil

structure Compilation where
  config : Config
  scopes : Scopes
  namespaces : NamespaceTree
  definitions : Definitions
  rules : List Rule
  session : Session
  /-- The scope of the namespace that was opened for the file. -/
  fileScope : Option ScopeId

namespace Compilation

def initial (config : Config) : Compilation where
  config := config
  scopes := .initial
  namespaces := .initial
  definitions := ⟨#[]⟩
  rules := []
  session := .initial
  fileScope := none

def diagnostics (c : Compilation) : Diagnostics := c.session.diagnostics

def library (c : Compilation) : Library :=
  ⟨c.namespaces, c.definitions, c.config.strategy, c.config.firstIndex⟩

def environment (c : Compilation) : Environment := ⟨c.library, c.scopes, c.rules⟩

/-- The namespace that names belong to at present. -/
def home (c : Compilation) : Except Fault NamespaceId := c.scopes.homeOf c.scopes.current

/-- The place of a use that would be written now. -/
def site (c : Compilation) : Except Fault UseSite := do
  return ⟨c.scopes.current, ← c.home⟩

/-- The namespace at a dotted path from the root. -/
def namespaceAt (c : Compilation) (path : String) : Except Fault (Option NamespaceId) :=
  if path.isEmpty then .ok (some .root)
  else
    match Name.parseDotted path.toList with
    | .error _ => .ok none
    | .ok segments => c.namespaces.follow .root segments

/-- The dotted path of a namespace. -/
def pathTo (c : Compilation) (id : NamespaceId) : Except Fault String := do
  return ".".intercalate (← c.namespaces.pathOf id)

/-- The definition of that identity in the namespace at a dotted path. -/
def findDefinition (c : Compilation) (path : String) (identity : Identity) :
    Except Fault (Option DefId) := do
  match ← c.namespaceAt path with
  | none => return none
  | some ns => c.namespaces.definitionIn ns identity

/-- The definitions of a category that are visible at a use. -/
def visible (c : Compilation) (site : UseSite) (category : Category) :
    Except Fault (List DefId) :=
  c.library.visible site.home category

def violation (c : Compilation) (site : UseSite) (target : Use) :
    Except Fault (Option Rule) :=
  Rule.denying c.rules c.scopes c.namespaces site target

end Compilation

/-- A step of a compilation. What it has done stays done if it fails. -/
abbrev Compiling := ExceptT Failure (StateM Compilation)

instance : MonadLift (Except Fault) Compiling where
  monadLift x := ExceptT.mk (pure (x.mapError .fault))

namespace Compiling

variable {α : Type}

def refuse (e : Problem) : Compiling α := throw (.refused e)

def report (e : Problem) (span : Option Span) : Compiling Unit :=
  modify fun c => { c with session.diagnostics := c.session.diagnostics.report e span }

/-- Records the error with which a step ends, if it does. -/
def recording (span : Option Span) (x : Compiling α) : Compiling α :=
  tryCatch x fun
    | .refused e => do
      report e span
      refuse e
    | .fault f => throw (.fault f)

/-- Resolves against what is registered. -/
def resolving (x : Environment → Resolving α) : Compiling α :=
  ExceptT.mk fun c =>
    let (result, session) := (x c.environment).run c.session
    (result, { c with session := session })

/-- Reads a name token. -/
def parseName (token : String) : Compiling Name :=
  match Name.parse token with
  | .ok n => pure n
  | .error e => refuse (.malformed token e.message)

/-- Reads a dotted path, which an error shows as `shown`. -/
def parseDotted (shown : String) (path : List Char) : Compiling (List String) :=
  match Name.parseDotted path with
  | .ok segments => pure segments
  | .error e => refuse (.malformed shown e.message)

/-- Changes the settings. What was worked out under the old ones is forgotten. -/
def setConfig (config : Config) : Compiling Unit :=
  modify fun c => { c with config := config, session.cache := .empty }

/-- Hands the diagnostics out. -/
def drainDiagnostics : Compiling Diagnostics :=
  modifyGet fun c => (c.diagnostics, { c with session.diagnostics := [] })

end Compiling
end Stencil
