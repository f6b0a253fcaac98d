import Stencil.Scope.Basic
import Stencil.Group.Identity

/-! # One namespace: its place in the tree, its definitions and its aliases -/
namespace Stencil

structure Namespace where
  name : String
  parent : Option NamespaceId
  children : OrderedMap String NamespaceId
  /-- Opened by a block of its own, not only by the name of a file or a place of import. -/
  explicit : Bool
  definitions : OrderedMap Identity DefId
  aliases : OrderedMap String Meaning

namespace Namespace

def fresh (name : String) (parent : Option NamespaceId) : Namespace :=
  ⟨name, parent, .empty, false, .empty, .empty⟩

/-- The definitions of that name in a category, templates before customs. -/
def named (n : Namespace) (name : String) (c : Category) : List DefId :=
  c.members.filterMap fun (origin, kind) => n.definitions.get? ⟨origin, kind, name⟩

/-- Every definition, grouped by origin and kind and in order of registration within a group. -/
def registered (n : Namespace) : List DefId :=
  Category.any.members.flatMap fun (origin, kind) =>
    (n.definitions.entries.filter fun e => e.1.origin == origin && e.1.kind == kind).map Prod.snd

end Namespace
end Stencil
