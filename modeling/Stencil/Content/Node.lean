import Stencil.Position
import Stencil.Ordered
import Stencil.Content.Selector

/-! # Elements, texts, and uses of other groups

A use may carry edits, and an edit may bring content of its own, so the five types are defined
together.
-/
namespace Stencil

/-- Where inserted content goes. -/
inductive Place where
  | after
  | before
  | replace
  | atTop
  | atBottom
  deriving DecidableEq

namespace Place

/-- The top and the bottom need no anchor. -/
def isRelative : Place → Bool
  | after | before | replace => true
  | atTop | atBottom => false

def render : Place → String
  | after => "after"
  | before => "before"
  | replace => "replace"
  | atTop => "at top"
  | atBottom => "at bottom"

end Place

mutual

inductive Node where
  | element (e : Element)
  | text (text : String)
  | usage (u : Usage)

structure Element where
  tag : String
  attributes : OrderedMap String String
  style : List StyleLine
  children : List Node

/-- A group used by name, with edits to its content. -/
structure Usage where
  name : Name
  edits : List Edit
  span : Option Span

/-- A line of an element's own style block. -/
inductive StyleLine where
  | property (name value : String)
  | usage (u : Usage)

/-- A change to the content of a group, made where the group is used or inherited. -/
inductive Edit where
  | deleteProperty (name : String)
  | deleteInheritance (target : Name)
  | insert (place : Place) (anchor : Option Anchor) (content : List Node)
  | deleteContent (anchor : Anchor)
  | assign (name value : String)
  | modify (anchor : Anchor) (style : List StyleLine) (attributes : OrderedMap String String)

end

def Edit.render : Edit → String
  | deleteProperty name => "delete " ++ name
  | deleteInheritance target => "delete " ++ target.render
  | insert place (some anchor) _ => "insert " ++ place.render ++ " " ++ anchor.render
  | insert place none _ => "insert " ++ place.render
  | deleteContent anchor => "delete " ++ anchor.render
  | assign name value => name ++ ": " ++ value
  | modify anchor _ _ => anchor.render ++ " \x7b … \x7d"

/-- The group an edit takes out of the inheritance, if it is such an edit. -/
def Edit.deletedAncestor? : Edit → Option Name
  | deleteInheritance target => some target
  | _ => none

def Edit.isAssign : Edit → Bool
  | assign _ _ => true
  | _ => false

def Node.element? : Node → Option Element
  | element e => some e
  | _ => none

namespace Element

def id? (e : Element) : Option String :=
  (e.attributes.get? "id").map fun s => String.ofList (Text.trim s.toList)

def classes (e : Element) : List String :=
  match e.attributes.get? "class" with
  | none => []
  | some s => (Text.words s.toList).map String.ofList

def hasClass (e : Element) (name : String) : Bool := e.classes.contains name

/-- Gives the first property of that name the value, or adds the property at the end. -/
def putProperty (name value : String) : List StyleLine → List StyleLine
  | [] => [.property name value]
  | .property n v :: rest =>
    if n = name then .property n value :: rest else .property n v :: putProperty name value rest
  | .usage u :: rest => .usage u :: putProperty name value rest

def setProperty (e : Element) (name value : String) : Element :=
  { e with style := putProperty name value e.style }

def addLine (e : Element) (entry : StyleLine) : Element :=
  { e with style := e.style ++ [entry] }

def setAttribute (e : Element) (name value : String) : Element :=
  { e with attributes := e.attributes.insert name value }

def addChild (e : Element) (child : Node) : Element :=
  { e with children := e.children ++ [child] }

/-- The value of the first property of that name in a style block. -/
def propertyIn (name : String) : List StyleLine → Option String
  | [] => none
  | .property n v :: rest => if n = name then some v else propertyIn name rest
  | .usage _ :: rest => propertyIn name rest

def property? (e : Element) (name : String) : Option String := propertyIn name e.style

/-- Properties take the place of those of the same name; uses of style groups are added. -/
def mergeLines (e : Element) : List StyleLine → Element
  | [] => e
  | .property n v :: rest => (e.setProperty n v).mergeLines rest
  | .usage u :: rest => (e.addLine (.usage u)).mergeLines rest

/-- What an edit of the element's style and attributes leaves. -/
def modify (e : Element) (style : List StyleLine) (attributes : OrderedMap String String) :
    Element :=
  let e := e.mergeLines style
  { e with attributes := e.attributes.insertMany attributes.entries }

end Element

/-- Every part that the selector names has to fit. -/
def Selector.picks (s : Selector) (e : Element) : Bool :=
  s.tag.all (· == e.tag) && s.id.all (fun id => e.id? == some id) && s.classes.all e.hasClass

end Stencil
