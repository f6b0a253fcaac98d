/-! # How one definition is chosen where a bare name could mean several -/
namespace Stencil

inductive Strategy where
  /-- The innermost namespace that has the name decides. -/
  | preferCurrent
  /-- Namespaces opened by a block of their own go before the others. -/
  | preferExplicit
  /-- Nothing is chosen. -/
  | error
  deriving DecidableEq

namespace Strategy

def render : Strategy → String
  | preferCurrent => "PREFER_CURRENT_NAMESPACE"
  | preferExplicit => "PREFER_EXPLICIT"
  | error => "ERROR"

/-- The ASCII letters and digits of a text, in lower case. -/
def letters (text : String) : String :=
  String.ofList ((text.toList.filter Char.isAlphanum).map Char.toLower)

/-- Reads a strategy, whatever stands between its letters. -/
def parse? (text : String) : Option Strategy :=
  let spelled := letters text
  if ["prefercurrentnamespace", "prefercurrent", "current"].contains spelled then
    some preferCurrent
  else if ["preferexplicitlyqualified", "preferexplicit", "explicit"].contains spelled then
    some preferExplicit
  else if spelled = "error" then some error
  else none

def parse (text : String) : Except String Strategy :=
  match parse? text with
  | some s => .ok s
  | none => .error ("unknown conflict strategy '" ++ text ++ "'")

end Strategy
end Stencil
