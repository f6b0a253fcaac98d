import Stencil.Compilation.Basic

/-! # What names, values and uses mean at a place, once the source text is registered -/
namespace Stencil.Compiling

/-- The definition that a token means at a use, if it may be used there. -/
def definitionFor (token : String) (expected : Category) (site : UseSite) : Compiling DefId :=
  recording none do
    let n ← parseName token
    (← get).environment.resolveUse site n expected

/-- The instance of what a name means at a use. -/
def instanceOfName (n : Name) (edits : List Edit) (expected : Category) (site : UseSite)
    (span : Option Span) : Compiling Instance :=
  recording span (resolving fun env => env.instanceOf site n edits expected)

def instanceOfUsage (u : Usage) (expected : Category) (site : UseSite) : Compiling Instance :=
  instanceOfName u.name u.edits expected site u.span

/-- The instance of what a token means at a use. -/
def instanceFor (token : String) (expected : Category) (site : UseSite) : Compiling Instance := do
  let n ← recording none (parseName token)
  instanceOfName n [] expected site none

/-- The kind of the stand-in for a use that failed: what its token says, else what was expected,
else an element group. -/
def standInKind (token : String) (expected : Category) : Kind :=
  let said :=
    match Name.parse token with
    | .ok n => n.kind
    | .error _ => none
  (said.or expected.kind).getD .element

/-- The instance of what a token means at a use, or an empty stand-in if that fails. -/
def instanceOrEmpty (token : String) (expected : Category) (site : UseSite) : Compiling Instance :=
  tryCatch (instanceFor token expected site) fun
    | .refused _ => return .empty (standInKind token expected)
    | .fault f => throw (.fault f)

/-- The content of a definition with all it inherits. -/
def contentOf (id : DefId) : Compiling Content := do
  match (← get).definitions.get? id with
  | none => recording none (refuse (.unresolved id.render))
  | some d => recording d.span (resolving fun env => env.library.content id)

def checkTag (tag : String) (site : UseSite) : Compiling Unit :=
  recording none do (← get).environment.checkUse site (.element tag)

/-- The value of a variable at a use. -/
def variableValue (group key : String) (override : Option String) (site : UseSite) :
    Compiling String :=
  recording none do
    let n ← parseName group
    resolving fun env => env.variableValue site n key override

/-- Replaces the references to variables in a text at a use. -/
def fillIn (text : String) (site : UseSite) : Compiling String :=
  resolving fun env => env.fillIn site site.home text

end Stencil.Compiling
