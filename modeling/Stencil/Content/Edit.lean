import Stencil.Content.Basic
import Stencil.Report.Problem

/-! # Edits applied to content

An edit that makes no sense for the kind of content, or whose anchor picks nothing, changes nothing
and is answered by a warning.
-/
namespace Stencil

namespace Anchor

/-- The elements among which the anchor counts. -/
def picks : Anchor → Element → Bool
  | index _, _ => true
  | selector s, e => s.picks e
  | nth s _, e => s.picks e

/-- How many of those elements stand before the one meant; positions are written from `base` on. -/
def rank (base : Nat) : Anchor → Option Nat
  | index n => if base ≤ n then some (n - base) else none
  | selector _ => some 0
  | nth _ n => if base ≤ n then some (n - base) else none

end Anchor

/-- The place of the element that satisfies `p` and has `k` such elements before it. -/
def findElement (p : Element → Bool) : Nat → List Node → Option Nat
  | _, [] => none
  | k, .element e :: rest =>
    if p e then
      match k with
      | 0 => some 0
      | k + 1 => (findElement p k rest).map (· + 1)
    else (findElement p k rest).map (· + 1)
  | k, .text _ :: rest => (findElement p k rest).map (· + 1)
  | k, .usage _ :: rest => (findElement p k rest).map (· + 1)

/-- The place of the element that the anchor means. -/
def Anchor.find (base : Nat) (a : Anchor) (nodes : List Node) : Option Nat :=
  (a.rank base).bind fun k => findElement a.picks k nodes

/-- Puts `content` in the place of the nodes from `start` up to `stop`. -/
def splice (nodes content : List Node) (start stop : Nat) : List Node :=
  nodes.take start ++ content ++ nodes.drop stop

def deleteNode (base : Nat) (a : Anchor) (nodes : List Node) : Option (List Node) :=
  (a.find base nodes).map fun i => splice nodes [] i (i + 1)

def insertNodes (base : Nat) (place : Place) (anchor : Option Anchor) (content nodes : List Node) :
    Option (List Node) :=
  let found := anchor.bind fun a => a.find base nodes
  match place with
  | .atTop => some (content ++ nodes)
  | .atBottom => some (nodes ++ content)
  | .before => found.map fun i => splice nodes content i i
  | .after => found.map fun i => splice nodes content (i + 1) (i + 1)
  | .replace => found.map fun i => splice nodes content i (i + 1)

def modifyNode (style : List StyleLine) (attributes : OrderedMap String String) : Node → Node
  | .element e => .element (e.modify style attributes)
  | n => n

namespace Edit

/-- What an edit makes of a style group, if it applies. -/
def editStyle (e : Edit) (s : StyleContent) : Option StyleContent :=
  match e with
  | deleteProperty name => if s.contains name then some (s.erase name) else none
  | assign name value => some (s.set name value)
  | deleteInheritance _ => some s
  | _ => none

/-- What an edit makes of a variable group, if it applies. -/
def editVars (e : Edit) (v : VarContent) : Option VarContent :=
  match e with
  | deleteProperty name => if v.vars.contains name then some (v.erase name) else none
  | assign name value => some (v.set name value)
  | deleteInheritance _ => some v
  | _ => none

/-- What an edit makes of an element group, if it applies. A property to delete is read as a
selector. -/
def editNodes (base : Nat) (e : Edit) (nodes : List Node) : Option (List Node) :=
  match e with
  | deleteProperty name =>
    match Selector.parse name.toList with
    | .ok s => deleteNode base (.selector s) nodes
    | .error _ => none
  | deleteContent anchor => deleteNode base anchor nodes
  | insert place anchor content => insertNodes base place anchor content nodes
  | modify anchor style attributes =>
    (anchor.find base nodes).map fun i => nodes.modify i (modifyNode style attributes)
  | deleteInheritance _ => some nodes
  | assign _ _ => none

/-- What an edit makes of a body, if it applies. Taking a group out of the inheritance is done
before the bodies are laid over each other, so here nothing is left to do for it. -/
def apply (base : Nat) (e : Edit) : Content → Option Content
  | .style s => (e.editStyle s).map .style
  | .var v => (e.editVars v).map .var
  | .element nodes => (e.editNodes base nodes).map .element

theorem kind_apply {base : Nat} {e : Edit} {b r : Content} (h : e.apply base b = some r) :
    r.kind = b.kind := by
  cases b <;> obtain ⟨_, _, rfl⟩ := Option.map_eq_some_iff.1 h <;> rfl

/-- Applies edits in order. The second part tells of those that did not apply to `target`. -/
def applyAll (base : Nat) (target : String) : List Edit → Content → Content × List Problem
  | [], b => (b, [])
  | e :: es, b =>
    match e.apply base b with
    | some b => applyAll base target es b
    | none =>
      let (r, warnings) := applyAll base target es b
      (r, .dangling e.render target :: warnings)

end Edit

namespace Content

/-- Takes out the placeholders that got no value, and tells of each. -/
def dropUnfilled (target : String) : Content → Content × List Problem
  | .style s =>
    (.style (s.placeholders.foldl StyleContent.erase s),
      s.placeholders.map fun name => .unfilled name target)
  | b => (b, [])

end Content
end Stencil
