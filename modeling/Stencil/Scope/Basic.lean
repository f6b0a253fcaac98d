import Stencil.Arena
import Stencil.Ordered
import Stencil.Report.Problem

/-! # Nested scopes

A scope that is left stays in the table, so that a use recorded inside it can still be looked up
from there.
-/
namespace Stencil

/-- What a name stands for: a definition or a namespace. -/
inductive Meaning where
  | definition (id : DefId)
  | space (id : NamespaceId)
  deriving DecidableEq

structure Scope where
  kind : BlockKind
  parent : Option ScopeId
  /-- The namespace that names inside the scope belong to. -/
  home : NamespaceId
  children : List ScopeId
  meanings : OrderedMap String Meaning

/-- The scope outside of all others. -/
def ScopeId.global : ScopeId := ⟨0⟩

/-- The namespace outside of all others. -/
def NamespaceId.root : NamespaceId := ⟨0⟩

structure Scopes where
  table : Arena .scopes Scope
  current : ScopeId

namespace Scopes

def initial : Scopes := ⟨⟨#[⟨.global, none, .root, [], .empty⟩]⟩, .global⟩

def find (s : Scopes) (id : ScopeId) : Except Fault Scope := s.table.find id

/-- The scopes from `id` outwards. A scope is older than those inside it. -/
def outward (s : Scopes) (id : ScopeId) : List ScopeId :=
  match (s.table.get? id).bind Scope.parent with
  | none => [id]
  | some p => if p.index < id.index then id :: s.outward p else [id]
termination_by id.index

/-- The scopes from `id`, which has to be one, outwards. -/
def outwardFrom (s : Scopes) (id : ScopeId) : Except Fault (List ScopeId) := do
  let _ ← s.find id
  return s.outward id

/-- Number of scopes that are open inside the global one. -/
def depth (s : Scopes) : Nat := (s.outward s.current).length - 1

def homeOf (s : Scopes) (id : ScopeId) : Except Fault NamespaceId := do
  return (← s.find id).home

/-- Opens a scope inside the current one and makes it current. -/
def openIn (s : Scopes) (kind : BlockKind) (home : NamespaceId) : Scopes :=
  let id := s.table.nextId
  let table := s.table.push ⟨kind, some s.current, home, [], .empty⟩
  ⟨table.modify s.current fun parent => { parent with children := parent.children ++ [id] }, id⟩

/-- Opens a scope of the same namespace as the current one. -/
def openBlock (s : Scopes) (kind : BlockKind) : Except Fault Scopes := do
  return s.openIn kind (← s.homeOf s.current)

/-- Goes back to the scope around the current one. -/
def close (s : Scopes) : Except Fault Scopes := do
  match (← s.find s.current).parent with
  | none => .error .cannotCloseGlobal
  | some p => return { s with current := p }

/-- Leaves scopes until `target` has been left. If it is not open, every scope but the global
one is left and the global one cannot be. -/
def closeThrough (s : Scopes) (target : ScopeId) : Scopes × Option Fault :=
  let opened := s.outward s.current
  match opened.dropWhile fun id => decide (id ≠ target) with
  | _ :: parent :: _ => ({ s with current := parent }, none)
  | _ => ({ s with current := opened.getLast?.getD s.current }, some .cannotCloseGlobal)

/-- Gives a name a meaning in the current scope. An outer meaning is hidden, but in one scope a
name has one meaning. -/
def bind (s : Scopes) (name : String) (meaning : Meaning) : Except Failure Scopes := do
  let scope ← s.find s.current
  if scope.meanings.contains name then
    .error (.refused (.duplicate name
      (scope.kind.label ++ " scope " ++ s.current.render)))
  else
    return { s with table := s.table.modify s.current fun scope =>
      { scope with meanings := scope.meanings.insert name meaning } }

/-- What a name means directly in a scope. -/
def meaningIn (s : Scopes) (id : ScopeId) (name : String) : Option Meaning :=
  (s.table.get? id).bind fun scope => scope.meanings.get? name

/-- What a name means in a scope: the innermost one, from the scope outwards. -/
def meaningFrom (s : Scopes) (id : ScopeId) (name : String) : Except Fault (Option Meaning) := do
  return (← s.outwardFrom id).findSome? fun id => s.meaningIn id name

def meaning (s : Scopes) (name : String) : Except Fault (Option Meaning) :=
  s.meaningFrom s.current name

end Scopes
end Stencil
