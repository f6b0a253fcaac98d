import Stencil.Content.Reference
import Stencil.Instance.Inline
import Stencil.Library.Content
import Stencil.Rule.Basic

/-! # Instances

An instance is the content of a group at the place where it is used, edited, with the uses in it
expanded and its references to variables replaced. Names inside a definition mean what they mean
in its namespace; what may be used is decided where the instance is used.

A group may use itself, directly or through others. The use that closes such a circle is left
out with an error, so expansion is never deeper than there are definitions.
-/
namespace Stencil

structure Instance where
  /-- Nothing for the stand-in of a use that failed. -/
  definition : Option DefId
  identity : Option Identity
  body : Content

def Instance.empty (kind : Kind) : Instance := ⟨none, none, .empty kind⟩

/-- What instances are built from. -/
structure Environment where
  library : Library
  scopes : Scopes
  rules : List Rule

namespace Environment

def checkUse (env : Environment) (site : UseSite) (target : Use) : Except Failure Unit :=
  Rule.check env.rules env.scopes env.library.namespaces site target

def checkUseOf (env : Environment) (site : UseSite) (id : DefId) : Except Failure Unit := do
  env.checkUse site (.definition (← env.library.find id).identity)

/-- The definition that a name means where it is used, if it may be used there. -/
def resolveUse (env : Environment) (site : UseSite) (n : Name) (expected : Category) :
    Except Failure DefId := do
  let id ← env.library.resolve site.home n expected
  env.checkUseOf site id
  return id

/-- The value of a variable. One given at the use takes its place, but the variable has to be
there. -/
def valueIn (env : Environment) (id : DefId) (group : Name) (key : String)
    (override : Option String) : Resolving String := do
  let body ← env.library.content id
  match body.var?.bind fun v => v.get? key with
  | none => Resolving.refuse (.unresolved (group.render ++ "(" ++ key ++ ")"))
  | some value => return override.getD value

/-- The value of a reference in a text of the namespace `owner`. A name that is no variable group
there is a function of the style language; a failure on a variable group is reported. -/
def referenceValue (env : Environment) (site : UseSite) (owner : NamespaceId) (r : Reference) :
    Resolving (Option String) := do
  let group := Name.ofKind .var r.group
  match ← Failure.settle (env.library.resolve owner group .any) with
  | .error _ => return none
  | .ok id =>
    let result ← Resolving.attempt do
      env.checkUseOf site id
      env.valueIn id group r.key r.override
    match result with
    | .ok value => return some value
    | .error e =>
      Resolving.report e none
      return none

/-- Replaces the references in a text of the namespace `owner`. -/
def fillIn (env : Environment) (site : UseSite) (owner : NamespaceId) (text : String) :
    Resolving String :=
  Reference.replaceAll (env.referenceValue site owner) text

/-- The content of a use inside a definition of the namespace `owner`; `build` gives instances. A
failure is reported and the use has to go. -/
def usageContent (env : Environment) (site : UseSite) (owner : NamespaceId)
    (build : DefId → List Edit → Resolving Content) (kind : Kind) (u : Usage) :
    Resolving (Option Content) := do
  let result ← Resolving.attempt do
    let id ← env.library.resolve owner u.name (.ofKind kind)
    env.checkUseOf site id
    build id u.edits
  match result with
  | .ok body => return some body
  | .error e =>
    Resolving.report e u.span
    return none

/-- How the content of definitions of the namespace `owner` is expanded. -/
def expansion (env : Environment) (site : UseSite) (owner : NamespaceId)
    (build : DefId → List Edit → Resolving Content) : Expansion where
  content := env.usageContent site owner build
  value := env.fillIn site owner

/-- Edits the content of a definition, checks it and expands it; `build` gives the instances of
the groups used in it. -/
def assemble (env : Environment) (site : UseSite) (id : DefId) (d : Definition)
    (edits : List Edit) (build : DefId → List Edit → Resolving Content) : Resolving Content := do
  let edited ← env.library.contentEdited id edits
  let (body, warnings) := edited.dropUnfilled d.identity.render
  Resolving.reportAll warnings
  body.forTags fun tag => env.checkUse site (.element tag)
  (env.expansion site d.home build).inlineContent body

/-- The content of the instance of `id` at `site`, inside the instances being expanded. -/
def build (env : Environment) (site : UseSite) (expanding : List DefId) (id : DefId)
    (edits : List Edit) : Resolving Content := do
  if h : id ∈ expanding then Resolving.refuse (← env.library.cycle expanding id)
  else
    match hd : env.library.definitions.get? id with
    | none => throw (.fault .outsideTable)
    | some d =>
      have := Arena.unvisited_cons_lt hd h
      env.assemble site id d edits fun used edits =>
        env.build site (id :: expanding) used edits
termination_by env.library.definitions.unvisited expanding
decreasing_by assumption

/-- The instance of what a name means at a use. -/
def instanceOf (env : Environment) (site : UseSite) (n : Name) (edits : List Edit)
    (expected : Category) : Resolving Instance := do
  let id ← env.resolveUse site n expected
  let body ← env.build site [] id edits
  return ⟨some id, some (← env.library.find id).identity, body⟩

/-- The value of a variable of the group that a name means at a use. -/
def variableValue (env : Environment) (site : UseSite) (group : Name) (key : String)
    (override : Option String) : Resolving String := do
  env.valueIn (← env.resolveUse site group (.ofKind .var)) group key override

end Environment
end Stencil
