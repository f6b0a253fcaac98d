import Stencil.Compilation.Register

/-! # Import of another compilation below a namespace

Namespaces of the same path become one. Where both have a definition or an alias, the one that
was there stays and the other is a duplicate.
-/
namespace Stencil.Compiling

/-- The definitions of the imported compilation with those that now stand for them. -/
abbrev Moved := OrderedMap DefId DefId

/-- Copies a definition to the namespace `target`. -/
def importDefinition (other : Compilation) (target : NamespaceId) (moved : Moved) (old : DefId) :
    Compiling Moved := do
  let d ← other.definitions.find old
  let id ← store { d with home := target, scope := .global }
  let inserted := (← get).namespaces.addDefinition target d.identity id
  match ← Failure.settle inserted with
  | .ok namespaces =>
    modify fun c => { c with namespaces := namespaces }
    return moved.insert old id
  | .error e =>
    let kept ← (← get).namespaces.definitionIn target d.identity
    report e d.span
    return moved.insert old (kept.getD id)

/-- Copies the definitions of a namespace. -/
def importDefinitions (other : Compilation) (moved : Moved) (place : Namespace × NamespaceId) :
    Compiling Moved :=
  place.1.registered.foldlM (importDefinition other place.2) moved

/-- What an alias stands for after the import, if that has come along. -/
def relocate (moved : Moved) (mapping : List NamespaceId) : Meaning → Except Fault (Option Meaning)
  | .definition old => .ok ((moved.get? old).map .definition)
  | .space ns =>
    match mapping[ns.index]? with
    | some target => .ok (some (.space target))
    | none => .error .outsideTable

def importAlias (moved : Moved) (mapping : List NamespaceId) (target : NamespaceId)
    (entry : String × Meaning) : Compiling Unit := do
  match ← relocate moved mapping entry.2 with
  | none => return ()
  | some meaning =>
    match ← Failure.settle ((← get).namespaces.addAlias target entry.1 meaning) with
    | .ok namespaces => modify fun c => { c with namespaces := namespaces }
    | .error e => report e none

/-- Copies the aliases of a namespace. -/
def importAliases (moved : Moved) (mapping : List NamespaceId) (place : Namespace × NamespaceId) :
    Compiling Unit :=
  place.1.aliases.entries.forM (importAlias moved mapping place.2)

/-- Copies a rule for a namespace. Rules of scopes stay behind with their scopes. -/
def importRule (mapping : List NamespaceId) (r : Rule) : Compiling Unit :=
  match r.site with
  | .scope _ => return ()
  | .within ns =>
    match mapping[ns.index]? with
    | some target =>
      modify fun c => { c with rules := c.rules ++ [{ r with site := .within target }] }
    | none => throw (.fault .outsideTable)

/-- Imports another compilation below the namespace at `path`. -/
def mount (other : Compilation) (path : List String) : Compiling Unit := do
  let c ← get
  let (top, namespaces) ← c.namespaces.openAt .root path false
  let (mapping, namespaces) ← namespaces.copyTree other.namespaces top
  set { c with namespaces := namespaces }
  let places := other.namespaces.table.entries.toList.zip mapping
  let moved ← places.foldlM (importDefinitions other) .empty
  places.forM (importAliases moved mapping)
  other.rules.forM (importRule mapping)
  modify fun c =>
    { c with session := ⟨.empty, c.session.diagnostics ++ other.session.diagnostics⟩ }

end Stencil.Compiling
