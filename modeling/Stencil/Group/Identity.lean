/-! # What a group is

A group comes from a template or a custom, holds style properties, elements or variables, and has a
name.
-/
namespace Stencil

inductive Origin where
  | template
  | custom
  deriving DecidableEq

namespace Origin

def all : List Origin := [template, custom]

def keyword : Origin → String
  | template => "[Template]"
  | custom => "[Custom]"

def ofKeyword? (text : String) : Option Origin := all.find? fun o => o.keyword = text

end Origin

inductive Kind where
  | style
  | element
  | var
  deriving DecidableEq

namespace Kind

def all : List Kind := [style, element, var]

def keyword : Kind → String
  | style => "@Style"
  | element => "@Element"
  | var => "@Var"

def ofKeyword? (text : String) : Option Kind := all.find? fun k => k.keyword = text

end Kind

structure Identity where
  origin : Origin
  kind : Kind
  name : String
  deriving DecidableEq

def Identity.render (i : Identity) : String :=
  i.origin.keyword ++ " " ++ i.kind.keyword ++ " " ++ i.name

/-- What a use expects to find; a missing part admits anything. -/
structure Category where
  origin : Option Origin
  kind : Option Kind
  deriving DecidableEq

namespace Category

def any : Category := ⟨none, none⟩

def ofKind (kind : Kind) : Category := ⟨none, some kind⟩

/-- Whether groups of this origin and kind belong to the category. -/
def admits (c : Category) (origin : Origin) (kind : Kind) : Bool :=
  c.origin.all (· == origin) && c.kind.all (· == kind)

def covers (c : Category) (i : Identity) : Bool := c.admits i.origin i.kind

/-- The keywords of the parts that are there. -/
def keywords (c : Category) : List String :=
  (c.origin.map Origin.keyword).toList ++ (c.kind.map Kind.keyword).toList

def render (c : Category) : String :=
  if c = any then "any definition" else " ".intercalate c.keywords

/-- Every origin and kind of the category, templates before customs. -/
def members (c : Category) : List (Origin × Kind) :=
  (Origin.all.flatMap fun o => Kind.all.map fun k => (o, k)).filter fun (o, k) => c.admits o k

end Category

def Identity.category (i : Identity) : Category := ⟨some i.origin, some i.kind⟩

end Stencil
