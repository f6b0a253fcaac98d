import Stencil.Arena
import Stencil.Content.Basic

/-! # Registered groups, with the groups they inherit from -/
namespace Stencil

/-- How an inheritance is written: by the bare name of a group, or by the word for it. -/
inductive InheritanceForm where
  | composition
  | explicit
  deriving DecidableEq

structure Inheritance where
  target : Name
  form : InheritanceForm
  /-- Changes to what is inherited. -/
  edits : List Edit
  span : Option Span

structure Definition where
  identity : Identity
  /-- The namespace in which the definition is registered. -/
  home : NamespaceId
  /-- The scope in which it was registered. -/
  scope : ScopeId
  /-- In the order in which they are written. -/
  edges : List Inheritance
  body : Content
  /-- Properties that a use has to give a value. -/
  noValue : NameSet
  span : Option Span

abbrev Definitions := Arena .definitions Definition

namespace Definition

def kind (d : Definition) : Kind := d.identity.kind

def isCustom (d : Definition) : Bool := d.identity.origin == .custom

def hasInheritance (d : Definition) : Bool := !d.edges.isEmpty

/-- The content that the definition adds to what it inherits. -/
def ownContent (d : Definition) : Content :=
  match d.body with
  | .style s => .style (s.addPlaceholders d.noValue.toList)
  | b => b

/-- Customs may be edited. Of templates only variable groups may, and only by giving values. -/
def allowsEdits (d : Definition) (edits : List Edit) : Bool :=
  edits.isEmpty || d.isCustom || (d.kind == .var && edits.all Edit.isAssign)

end Definition
end Stencil
