import Stencil.Proofs.Kinds
import Stencil.Proofs.Registration

/-! # Compilations that can be reached

A compilation is reached from its settings by registering, asking and importing, in any order, also
through steps that fail.
-/
namespace Stencil

/-- What is done to a compilation from outside, imports apart. Templates and customs are groups. -/
inductive Operation where
  | openFile (stem : String)
  | closeFile
  | openNamespacePath (path : List String)
  | openNamespace (path : String)
  | closeNamespace
  | openScope (kind : BlockKind)
  | closeScope
  | addGroup (identity : Identity) (body : Content) (edges : List Inheritance)
    (noValue : NameSet) (span : Option Span)
  | addRule (denial : Denial) (reach : Reach) (span : Option Span)
  | addClause (clause : String) (reach : Reach) (span : Option Span)
  | nameDefinition (name target : String) (span : Option Span)
  | nameNamespace (name path : String) (span : Option Span)
  | setConfig (config : Config)
  | drainDiagnostics
  | request (r : Request)

namespace Operation

/-- The compilation after an operation, whatever it gives. -/
def after (op : Operation) (c : Compilation) : Compilation :=
  match op with
  | openFile stem => (Compiling.openFile stem).after c
  | closeFile => Compiling.closeFile.after c
  | openNamespacePath path => (Compiling.openNamespacePath path).after c
  | openNamespace path => (Compiling.openNamespace path).after c
  | closeNamespace => Compiling.closeNamespace.after c
  | openScope kind => (Compiling.openScope kind).after c
  | closeScope => Compiling.closeScope.after c
  | addGroup identity body edges noValue span =>
    (Compiling.addGroup identity body edges noValue span).after c
  | addRule denial reach span => (Compiling.addRule denial reach span).after c
  | addClause clause reach span => (Compiling.addClause clause reach span).after c
  | nameDefinition name target span => (Compiling.nameDefinition name target span).after c
  | nameNamespace name path span => (Compiling.nameNamespace name path span).after c
  | setConfig config => (Compiling.setConfig config).after c
  | drainDiagnostics => Compiling.drainDiagnostics.after c
  | request r => r.after c

/-- The compilation after one operation after another. -/
def afterAll (ops : List Operation) (c : Compilation) : Compilation :=
  ops.foldl (fun c op => op.after c) c

/-- An operation that is no request only adds to what is stored. -/
theorem after_extends (op : Operation) (c : Compilation) :
    (∃ r, op = request r) ∨ c.Extends (op.after c) := by
  cases op with
  | request r => exact .inl ⟨r, rfl⟩
  | openFile stem => exact .inr (Compiling.openFile_extending stem c)
  | closeFile => exact .inr (Compiling.closeFile_extending c)
  | openNamespacePath path => exact .inr (Compiling.openNamespacePath_extending path c)
  | openNamespace path => exact .inr (Compiling.openNamespace_extending path c)
  | closeNamespace => exact .inr (Compiling.closeNamespace_extending c)
  | openScope kind => exact .inr (Compiling.openScope_extending kind c)
  | closeScope => exact .inr (Compiling.closeScope_extending c)
  | addGroup identity body edges noValue span =>
    exact .inr (Compiling.addGroup_extending identity body edges noValue span c)
  | addRule denial reach span => exact .inr (Compiling.addRule_extending denial reach span c)
  | addClause clause reach span =>
    exact .inr (Compiling.addClause_extending clause reach span c)
  | nameDefinition name target span =>
    exact .inr (Compiling.nameDefinition_extending name target span c)
  | nameNamespace name path span =>
    exact .inr (Compiling.nameNamespace_extending name path span c)
  | setConfig config => exact .inr (Compiling.setConfig_extending config c)
  | drainDiagnostics => exact .inr (Compiling.drainDiagnostics_extending c)

end Operation

namespace Compilation

inductive Reachable : Compilation → Prop
  | initial (config : Config) : Reachable (.initial config)
  | step {c : Compilation} (op : Operation) (hc : Reachable c) : Reachable (op.after c)
  | mount {c other : Compilation} (path : List String) (hc : Reachable c)
    (hother : Reachable other) : Reachable ((Compiling.mount other path).after c)

theorem Reachable.afterAll {c : Compilation} (hc : c.Reachable) (ops : List Operation) :
    (Operation.afterAll ops c).Reachable := by
  induction ops generalizing c with
  | nil => exact hc
  | cons op ops ih => exact ih (hc.step op)

theorem Extends.kinded {c c' : Compilation} (h : c.Extends c')
    (hc : c.library.Kinded c.session) : c'.library.Kinded c'.session := by
  intro id b hb
  rcases h.cache with hcache | hcache
  · rw [hcache] at hb
    obtain ⟨d, hd, hkind⟩ := hc id b hb
    exact ⟨d, h.definitions id d hd, hkind⟩
  · rw [hcache] at hb
    cases hb

theorem kept_kinded : Compiling.Kept Library.Kinded := fun l => l.walks_kinded.respects

/-- Whatever is done, all content that is remembered has the kind of its definition. -/
theorem Reachable.kinded {c : Compilation} (h : c.Reachable) : c.library.Kinded c.session := by
  induction h with
  | initial config =>
    intro id b hb
    cases hb
  | @step c op _ ih =>
    rcases op.after_extends c with ⟨r, rfl⟩ | hop
    · obtain ⟨s, hs, hkinded⟩ := r.after_resolves kept_kinded c
      rw [Operation.after, hs]
      exact hkinded ih
    · exact hop.kinded ih
  | @mount c other path _ _ ih _ => exact (Compiling.mount_extending other path c).kinded ih

end Compilation
end Stencil
