import Stencil.Position
import Stencil.Namespace.Tree

/-! # Rules that deny a use

A rule is declared in a scope, for that scope and those inside it, or for a namespace and those
inside it.
-/
namespace Stencil

/-- What a rule denies. -/
inductive Denial where
  /-- Elements and definitions of that name. -/
  | name (name : String)
  /-- Elements and definitions whose name begins so. -/
  | startingWith (stem : String)
  | definition (category : Category) (name : String)
  /-- All elements. -/
  | html
  /-- All definitions of a category. -/
  | definitions (category : Category)
  deriving DecidableEq

/-- What is used. -/
inductive Use where
  | element (tag : String)
  | definition (identity : Identity)
  deriving DecidableEq

namespace Use

def name : Use → String
  | element tag => tag
  | definition identity => identity.name

def render : Use → String
  | element tag => tag
  | definition identity => identity.render

end Use

namespace Denial

def denies : Denial → Use → Bool
  | name n, target => n == target.name
  | startingWith stem, target => stem.toList.isPrefixOf target.name.toList
  | definition c n, .definition identity => n == identity.name && c.covers identity
  | html, .element _ => true
  | definitions c, .definition identity => c.covers identity
  | _, _ => false

def render : Denial → String
  | name n => n
  | startingWith stem => stem ++ "*"
  | definition c n => if c = .any then n else c.render ++ " " ++ n
  | html => "@Html"
  | definitions c => c.render

end Denial

/-- Where a rule holds. -/
inductive RuleSite where
  | scope (id : ScopeId)
  | within (id : NamespaceId)
  deriving DecidableEq

structure Rule where
  denial : Denial
  site : RuleSite
  span : Option Span

/-- Where a use stands. -/
structure UseSite where
  scope : ScopeId
  home : NamespaceId
  deriving DecidableEq

def UseSite.global : UseSite := ⟨.global, .root⟩

namespace Rule

/-- Whether a rule for a namespace denies the target there. -/
def deniesWithin (t : NamespaceTree) (home : NamespaceId) (target : Use) (r : Rule) :
    Except Fault Bool :=
  match r.site with
  | .within ns => do return (← t.isInside home ns) && r.denial.denies target
  | .scope _ => .ok false

def deniesAt (scope : ScopeId) (target : Use) (r : Rule) : Bool :=
  r.site == .scope scope && r.denial.denies target

/-- The first rule for a namespace that denies the target, and otherwise the first rule of the
innermost scope that has one. -/
def denying (rules : List Rule) (scopes : Scopes) (t : NamespaceTree) (site : UseSite)
    (target : Use) : Except Fault (Option Rule) := do
  match ← rules.findM? (deniesWithin t site.home target) with
  | some r => return some r
  | none =>
    return (← scopes.outwardFrom site.scope).findSome? fun scope =>
      rules.find? (deniesAt scope target)

def check (rules : List Rule) (scopes : Scopes) (t : NamespaceTree) (site : UseSite)
    (target : Use) : Except Failure Unit := do
  match ← denying rules scopes t site target with
  | none => return ()
  | some r => .error (.refused (.denied target.render r.denial.render))

end Rule
end Stencil
