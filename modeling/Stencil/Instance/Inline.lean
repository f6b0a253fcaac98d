import Stencil.Library.Session

/-! # Expansion of content

The uses of other groups are replaced by the content of those groups, and the values in style
blocks are filled in. How a use is looked up and how a value is filled in are given from outside.
-/
namespace Stencil

/-- How uses and values are read while content is expanded. -/
structure Expansion where
  /-- The content of a used group of the given kind, or nothing if the use has to go. -/
  content : Kind → Usage → Resolving (Option Content)
  value : String → Resolving String

namespace Expansion

/-- Puts the properties that have a value into a style block. -/
def putProperties (s : StyleContent) (entries : List StyleLine) : List StyleLine :=
  s.properties.entries.foldl
    (fun entries (name, value) =>
      match value with
      | .concrete text => Element.putProperty name text entries
      | .placeholder => entries) entries

/-- Puts one line of a style block behind those already expanded. -/
def inlineLine (x : Expansion) (done : List StyleLine) : StyleLine → Resolving (List StyleLine)
  | .property name value => do return Element.putProperty name (← x.value value) done
  | .usage u => do
    match ← x.content .style u with
    | some (.style s) => return putProperties s done
    | _ => return done

/-- Expands a style block. Of several properties of one name the last value stays, in the place
of the first. -/
def inlineLines (x : Expansion) (entries : List StyleLine) : Resolving (List StyleLine) :=
  entries.foldlM x.inlineLine []

mutual

def inlineNode (x : Expansion) : Node → Resolving (List Node)
  | .text t => return [.text t]
  | .usage u => do
    match ← x.content .element u with
    | some (.element nodes) => return nodes
    | _ => return []
  | .element ⟨tag, attributes, style, children⟩ => do
    let style ← x.inlineLines style
    let children ← x.inlineNodes children
    return [.element ⟨tag, attributes, style, children⟩]

def inlineNodes (x : Expansion) : List Node → Resolving (List Node)
  | [] => return []
  | n :: ns => do
    let front ← x.inlineNode n
    let back ← x.inlineNodes ns
    return front ++ back

end

/-- Fills in the values of a style group in order. -/
def fillProperties (x : Expansion) (s : StyleContent) : Resolving StyleContent :=
  s.properties.entries.foldlM
    (fun s (name, value) =>
      match value with
      | .concrete text => do return s.set name (← x.value text)
      | .placeholder => return s) s

/-- Expands the content of a group; variables are kept as they are. -/
def inlineContent (x : Expansion) : Content → Resolving Content
  | .element nodes => return .element (← x.inlineNodes nodes)
  | .style s => return .style (← x.fillProperties s)
  | .var v => return .var v

end Expansion

mutual

/-- Checks the tag of an element and those of the elements in it. -/
def Node.forTags (check : String → Except Failure Unit) : Node → Except Failure Unit
  | .element ⟨tag, _, _, children⟩ => do
    check tag
    Node.forTagsIn check children
  | .text _ => .ok ()
  | .usage _ => .ok ()

def Node.forTagsIn (check : String → Except Failure Unit) : List Node → Except Failure Unit
  | [] => .ok ()
  | n :: ns => do
    n.forTags check
    Node.forTagsIn check ns

end

/-- Checks every tag in the content of an element group. -/
def Content.forTags (check : String → Except Failure Unit) : Content → Except Failure Unit
  | .element nodes => Node.forTagsIn check nodes
  | _ => .ok ()

end Stencil
