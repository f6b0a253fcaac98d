import Stencil.Report.Fault

/-! # What can be wrong with a definition or a use: its text, its code and its severity -/
namespace Stencil

inductive Severity where
  | error
  | warning
  deriving DecidableEq

def Severity.label : Severity → String
  | error => "error"
  | warning => "warning"

inductive Problem where
  | duplicate (name scope : String)
  | circular (path : List String)
  | unresolved (name : String)
  | ambiguous (name : String) (candidates : List String)
  | denied (target rule : String)
  | dangling (anchor target : String)
  | malformed (token reason : String)
  | wrongKind (name expected found : String)
  | notEditable (target : String)
  | unfilled (property target : String)
  deriving DecidableEq

namespace Problem

def message : Problem → String
  | duplicate name scope =>
    "duplicate definition: '" ++ name ++ "' is already defined in " ++ scope
  | circular path => "cyclic inheritance: " ++ " -> ".intercalate path
  | unresolved name => "unresolved name: '" ++ name ++ "'"
  | ambiguous name candidates =>
    "ambiguous name: '" ++ name ++ "' could be: " ++ ", ".intercalate candidates
  | denied target rule =>
    "'" ++ target ++ "' is not allowed here (except " ++ rule ++ ")"
  | dangling anchor target => "'" ++ anchor ++ "' matches nothing in " ++ target
  | malformed token reason => "malformed name '" ++ token ++ "': " ++ reason
  | wrongKind name expected found =>
    "type mismatch for '" ++ name ++ "': expected " ++ expected ++ ", found " ++ found
  | notEditable target => target ++ " is a template and cannot be specialized"
  | unfilled property target =>
    "property '" ++ property ++ "' of " ++ target ++ " has no value"

def code : Problem → String
  | unresolved _ => "E0001"
  | ambiguous _ _ => "E0002"
  | wrongKind _ _ _ => "E0003"
  | duplicate _ _ => "E0004"
  | malformed _ _ => "E0005"
  | notEditable _ => "E0006"
  | circular _ => "E0007"
  | denied _ _ => "E0011"
  | dangling _ _ => "W0001"
  | unfilled _ _ => "W0002"

def severity : Problem → Severity
  | dangling _ _ | unfilled _ _ => .warning
  | _ => .error

end Problem

/-- Why a call has no result: an error of the source text, or a fault of the caller. -/
inductive Failure where
  | refused (e : Problem)
  | fault (f : Fault)
  deriving DecidableEq

/-- Keeps an error of the source text as a value; only a fault still ends the call. -/
def Failure.settle {α : Type} : Except Failure α → Except Fault (Except Problem α)
  | .ok a => .ok (.ok a)
  | .error (.refused e) => .ok (.error e)
  | .error (.fault f) => .error f

/-- Lets a fault end a call that can also be refused. -/
instance : MonadLift (Except Fault) (Except Failure) where
  monadLift x := x.mapError .fault

instance : MonadLift (Except Problem) (Except Failure) where
  monadLift x := x.mapError .refused

end Stencil
