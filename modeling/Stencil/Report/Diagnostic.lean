import Stencil.Position
import Stencil.Report.Problem

/-! # Diagnostics: what is told to the author of a source text, in the order it was found -/
namespace Stencil

structure Diagnostic where
  span : Option Span
  severity : Severity
  code : Option String
  message : String
  /-- What the diagnostic was made from, unless it is a plain message. -/
  error : Option Problem
  deriving DecidableEq

namespace Diagnostic

def ofError (e : Problem) (span : Option Span) : Diagnostic :=
  ⟨span, e.severity, some e.code, e.message, some e⟩

def isError (d : Diagnostic) : Bool := d.severity == .error

def isWarning (d : Diagnostic) : Bool := d.severity == .warning

def render (d : Diagnostic) : String :=
  d.severity.label ++ (d.code.map fun c => "[" ++ c ++ "]").getD "" ++
    (d.span.map fun s => " at " ++ s.start.render).getD "" ++ ": " ++ d.message

end Diagnostic

/-- A list of diagnostics, the oldest first. -/
abbrev Diagnostics := List Diagnostic

namespace Diagnostics

def report (ds : Diagnostics) (e : Problem) (span : Option Span) : Diagnostics :=
  ds ++ [.ofError e span]

def errors (ds : Diagnostics) : List Diagnostic := ds.filter Diagnostic.isError

def warnings (ds : Diagnostics) : List Diagnostic := ds.filter Diagnostic.isWarning

def anyError (ds : Diagnostics) : Bool := ds.any Diagnostic.isError

end Diagnostics
end Stencil
