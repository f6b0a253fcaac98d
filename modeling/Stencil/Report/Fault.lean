import Stencil.Scope.Block

/-! # Faults: calls that no caller may make

They end the call, and what it had done stays done.
-/
namespace Stencil

inductive Fault where
  /-- An id that the table it points into never handed out. -/
  | outsideTable
  /-- The global scope cannot be left. -/
  | cannotCloseGlobal
  /-- A namespace block was to be closed where none is innermost. -/
  | noNamespaceBlock (current : BlockKind)
  deriving DecidableEq

/-- The text of a fault that has one of its own. -/
def Fault.message : Fault → Option String
  | .outsideTable => none
  | .cannotCloseGlobal => some "ScopeStack::exit called on the Global scope"
  | .noNamespaceBlock current =>
    some ("exit_namespace called outside a [Namespace] block (current scope: " ++
      current.label ++ ")")

end Stencil
