/-! # The blocks that open a scope -/
namespace Stencil

inductive BlockKind where
  | global
  | namespaceBlock
  | template
  | custom
  | element
  deriving DecidableEq

def BlockKind.label : BlockKind → String
  | .global => "Global"
  | .namespaceBlock => "Namespace"
  | .template => "Template"
  | .custom => "Custom"
  | .element => "Element"

end Stencil
