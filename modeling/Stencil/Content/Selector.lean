import Stencil.Group.Name
import Stencil.Text.Decimal

/-! # Selectors and anchors

A selector names elements by tag, classes and id (`div.card#main`). An anchor is a place among the
children of an element group: a position, the first element a selector picks, or the n-th.
-/
namespace Stencil

structure Selector where
  tag : Option String
  classes : List String
  id : Option String
  deriving DecidableEq

namespace Selector

def empty : Selector := ⟨none, [], none⟩

def render (s : Selector) : String :=
  s.tag.getD "" ++ String.join (s.classes.map ("." ++ ·)) ++ (s.id.map ("#" ++ ·)).getD ""

/-- The text behind the mark of a class or an id. -/
def unmarked : List Char → List Char
  | [] => []
  | c :: cs => if c = '.' || c = '#' then cs else c :: cs

theorem length_unmarked_le (cs : List Char) : (unmarked cs).length ≤ cs.length := by
  cases cs with
  | nil => exact Nat.le_refl _
  | cons c cs =>
    rw [unmarked]
    split <;> simp

/-- Adds the part that begins with `mark`; a tag may only come first. -/
def addPart (s : Selector) (first : Bool) (mark : Char) (part : String) : Option Selector :=
  if mark = '.' then some { s with classes := s.classes ++ [part] }
  else if mark = '#' then if s.id.isNone then some { s with id := some part } else none
  else if first then some { s with tag := some part } else none

variable [Text.Alphabet]

/-- Reads the parts of a selector up to the end of the text. -/
def parseParts (s : Selector) (first : Bool) : List Char → Except Misspelling Selector
  | [] => .ok s
  | mark :: rest =>
    let part := Text.leadingName (unmarked (mark :: rest))
    if h : part = [] then .error (.invalid (String.ofList (mark :: rest)))
    else
      have : (Text.afterName (unmarked (mark :: rest))).length < (mark :: rest).length :=
        Nat.lt_of_lt_of_le (Text.length_afterName_lt h) (length_unmarked_le _)
      match s.addPart first mark (String.ofList part) with
      | none => .error (.unexpected (String.ofList (mark :: rest)))
      | some s => parseParts s false (Text.afterName (unmarked (mark :: rest)))
termination_by text => text.length
decreasing_by assumption

def parse (text : List Char) : Except Misspelling Selector :=
  let text := Text.trim text
  if text.isEmpty then .error .empty else parseParts empty true text

end Selector

inductive Anchor where
  | index (n : Nat)
  | selector (s : Selector)
  | nth (s : Selector) (n : Nat)
  deriving DecidableEq

namespace Anchor

def render : Anchor → String
  | index n => "[" ++ toString n ++ "]"
  | selector s => s.render
  | nth s n => s.render ++ "[" ++ toString n ++ "]"

/-- Cuts `sel[index]` at its first bracket. -/
def cutIndex (text : List Char) : Option (List Char × List Char) :=
  if text.getLast? = some ']' then Text.cutAt '[' text.dropLast else none

def parse [Text.Alphabet] (text : List Char) : Except Misspelling Anchor :=
  let text := Text.trim text
  match cutIndex text with
  | none => (Selector.parse text).map selector
  | some (sel, digits) =>
    match Text.readNat64 (Text.trim digits) with
    | none => .error (.unexpected (String.ofList digits))
    | some n =>
      if (Text.trim sel).isEmpty then .ok (index n) else (Selector.parse sel).map (nth · n)

end Anchor
end Stencil
