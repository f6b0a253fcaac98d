import Stencil.Library.Lookup
import Stencil.Report.Diagnostic

/-! # What resolution remembers and reports

The content of definitions is remembered once it is worked out. That and the diagnostics outlast a
call that fails.
-/
namespace Stencil

/-- What is known of the content of definitions: the content, or why there is none. -/
abbrev Cache := OrderedMap DefId (Except Problem Content)

structure Session where
  cache : Cache
  diagnostics : Diagnostics

def Session.initial : Session := ⟨.empty, []⟩

abbrev Resolving := ExceptT Failure (StateM Session)

instance : MonadLift (Except Fault) Resolving where
  monadLift x := ExceptT.mk (pure (x.mapError .fault))

instance : MonadLift (Except Problem) Resolving where
  monadLift x := ExceptT.mk (pure (x.mapError .refused))

namespace Resolving

variable {α : Type}

def refuse (e : Problem) : Resolving α := throw (.refused e)

def report (e : Problem) (span : Option Span) : Resolving Unit :=
  modify fun s => { s with diagnostics := s.diagnostics.report e span }

def reportAll (es : List Problem) : Resolving Unit :=
  es.forM fun e => report e none

/-- The outcome of `x` unless it ends in a fault, which goes on. -/
def attempt (x : Resolving α) : Resolving (Except Problem α) :=
  tryCatch (Except.ok <$> x) fun
    | .refused e => pure (.error e)
    | .fault f => throw (.fault f)

def remembered (id : DefId) : Resolving (Option (Except Problem Content)) := do
  return (← get).cache.get? id

def remember (id : DefId) (known : Except Problem Content) : Resolving Unit :=
  modify fun s => { s with cache := s.cache.insert id known }

end Resolving
end Stencil
