import Stencil.Content.Node

/-! # The content of a group: style properties, elements or variables

Content is laid over content of the same kind. Properties and variables are overridden by name and
keep their places, elements are appended.
-/
namespace Stencil

inductive StyleValue where
  | concrete (text : String)
  /-- A property that the use of the group has to give a value. -/
  | placeholder
  deriving DecidableEq

namespace StyleValue

def text? : StyleValue → Option String
  | concrete text => some text
  | placeholder => none

def isPlaceholder : StyleValue → Bool
  | concrete _ => false
  | placeholder => true

end StyleValue

structure StyleContent where
  properties : OrderedMap String StyleValue
  deriving DecidableEq

namespace StyleContent

def empty : StyleContent := ⟨.empty⟩

def ofList (entries : List (String × StyleValue)) : StyleContent := ⟨.ofList entries⟩

def put (s : StyleContent) (name : String) (value : StyleValue) : StyleContent :=
  ⟨s.properties.insert name value⟩

def set (s : StyleContent) (name text : String) : StyleContent := s.put name (.concrete text)

def get? (s : StyleContent) (name : String) : Option String :=
  (s.properties.get? name).bind StyleValue.text?

def contains (s : StyleContent) (name : String) : Bool := s.properties.contains name

def erase (s : StyleContent) (name : String) : StyleContent := ⟨s.properties.erase name⟩

/-- The properties that have no value yet. -/
def placeholders (s : StyleContent) : List String :=
  (s.properties.entries.filter fun e => e.2.isPlaceholder).map Prod.fst

/-- Adds placeholders for the names that are not there. -/
def addPlaceholders (s : StyleContent) (names : List String) : StyleContent :=
  names.foldl (fun s name => if s.contains name then s else s.put name .placeholder) s

/-- Lays one property over the others; a placeholder takes no value away. -/
def overlayProperty (s : StyleContent) (name : String) (value : StyleValue) : StyleContent :=
  if value.isPlaceholder && (s.get? name).isSome then s else s.put name value

def overlay (s later : StyleContent) : StyleContent :=
  later.properties.entries.foldl (fun s e => s.overlayProperty e.1 e.2) s

end StyleContent

structure VarContent where
  vars : OrderedMap String String
  deriving DecidableEq

namespace VarContent

def empty : VarContent := ⟨.empty⟩

def ofList (entries : List (String × String)) : VarContent := ⟨.ofList entries⟩

def set (v : VarContent) (key value : String) : VarContent := ⟨v.vars.insert key value⟩

def get? (v : VarContent) (key : String) : Option String := v.vars.get? key

def erase (v : VarContent) (key : String) : VarContent := ⟨v.vars.erase key⟩

def overlay (v later : VarContent) : VarContent := ⟨v.vars.insertMany later.vars.entries⟩

end VarContent

inductive Content where
  | style (s : StyleContent)
  | element (nodes : List Node)
  | var (v : VarContent)

namespace Content

def empty : Kind → Content
  | .style => style .empty
  | .element => element []
  | .var => var .empty

def kind : Content → Kind
  | style _ => .style
  | element _ => .element
  | var _ => .var

def size : Content → Nat
  | style s => s.properties.size
  | element nodes => nodes.length
  | var v => v.vars.size

def isEmpty (b : Content) : Bool := b.size == 0

def var? : Content → Option VarContent
  | var v => some v
  | _ => none

/-- The tags of the outermost elements, for an element group. -/
def tags? : Content → Option (List String)
  | element nodes => some ((nodes.filterMap Node.element?).map Element.tag)
  | _ => none

/-- Lays `later` over the body. Content of another kind cannot be. -/
def overlay : Content → Content → Option Content
  | style s, style later => some (style (s.overlay later))
  | element nodes, element later => some (element (nodes ++ later))
  | var v, var later => some (var (v.overlay later))
  | _, _ => none

@[simp] theorem kind_empty (k : Kind) : (empty k).kind = k := by
  cases k <;> rfl

theorem kind_overlay {b later r : Content} (h : b.overlay later = some r) : r.kind = b.kind := by
  cases b <;> cases later <;> simp [overlay] at h <;> subst h <;> rfl

end Content
end Stencil
