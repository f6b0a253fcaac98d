import Stencil.Compilation.Mount
import Stencil.Proofs.Requests

/-! # Registration only adds

A step of registration, also one that fails, leaves every stored definition as it is. It keeps all
that is remembered, or forgets all of it.
-/
namespace Stencil

/-- What is stored in `c` is stored in `c'`, and nothing new is remembered there. -/
structure Compilation.Extends (c c' : Compilation) : Prop where
  definitions : ∀ id d, c.definitions.get? id = some d → c'.definitions.get? id = some d
  cache : c'.session.cache = c.session.cache ∨ c'.session.cache = .empty

namespace Compilation.Extends

variable {c c' c'' : Compilation}

theorem of_eq (hd : c'.definitions = c.definitions)
    (hs : c'.session.cache = c.session.cache) : c.Extends c' :=
  ⟨fun _ _ h => hd ▸ h, .inl hs⟩

theorem refl (c : Compilation) : c.Extends c := of_eq rfl rfl

theorem trans (h : c.Extends c') (h' : c'.Extends c'') : c.Extends c'' where
  definitions id d hd := h'.definitions id d (h.definitions id d hd)
  cache := by
    rcases h'.cache with h' | h'
    · rw [h']
      exact h.cache
    · exact .inr h'

end Compilation.Extends

namespace Compiling

open Compilation

variable {α β : Type} {c : Compilation} {x : Compiling α} {f : α → Compiling β}

/-- Whatever the step gives, the compilation it leaves extends the one before. -/
def Extending (x : Compiling α) : Prop := ∀ c : Compilation, c.Extends (x.after c)

namespace Extending

theorem bind_at (hx : c.Extends (x.after c))
    (hf : ∀ a, (x.after c).Extends ((f a).after (x.after c))) :
    c.Extends ((x >>= f).after c) := by
  rw [after, run_bind]
  cases x.outcome c with
  | error e => exact hx
  | ok a => exact hx.trans (hf a)

theorem lift_bind {r : Except Failure α} (hf : ∀ a, c.Extends ((f a).after c)) :
    c.Extends (((liftM r : Compiling α) >>= f).after c) := by
  cases r with
  | error e => exact .refl c
  | ok a => exact hf a

theorem liftFault_bind {r : Except Fault α} (hf : ∀ a, c.Extends ((f a).after c)) :
    c.Extends (((liftM r : Compiling α) >>= f).after c) := by
  cases r with
  | error e => exact .refl c
  | ok a => exact hf a

theorem get_bind {f : Compilation → Compiling α} (h : c.Extends ((f c).after c)) :
    c.Extends (((get : Compiling Compilation) >>= f).after c) := h

theorem set_of_eq {c' : Compilation} (hd : c'.definitions = c.definitions)
    (hs : c'.session.cache = c.session.cache) :
    c.Extends ((set c' : Compiling PUnit).after c) := .of_eq hd hs

theorem pure (a : α) : Extending (pure a) := fun c => .refl c

theorem throw (e : Failure) : Extending (throw e : Compiling α) := fun c => .refl c

theorem bind (hx : Extending x) (hf : ∀ a, Extending (f a)) : Extending (x >>= f) :=
  fun c => bind_at (hx c) fun a => hf a (x.after c)

theorem modify {f : Compilation → Compilation} (h : ∀ c : Compilation, c.Extends (f c)) :
    Extending (modify f) := h

theorem report (e : Problem) (span : Option Span) : Extending (report e span) :=
  modify fun _ => .of_eq rfl rfl

theorem recording (span : Option Span) (hx : Extending x) : Extending (recording span x) := by
  intro c
  rw [after, Compiling.recording, run_tryCatch]
  rcases x.outcome c with (e | f) | a
  · exact (hx c).trans (bind (report e span) (fun _ => throw _) (x.after c))
  · exact hx c
  · exact hx c

theorem forM {f : α → Compiling Unit} (as : List α) (hf : ∀ a, Extending (f a)) :
    Extending (as.forM f) := by
  induction as with
  | nil => exact pure ()
  | cons a as ih => exact bind (hf a) fun _ => ih

theorem foldlM {f : β → α → Compiling β} (as : List α) (b : β)
    (hf : ∀ b a, Extending (f b a)) : Extending (as.foldlM f b) := by
  induction as generalizing b with
  | nil => exact pure b
  | cons a as ih =>
    rw [List.foldlM_cons]
    exact bind (hf b a) fun b => ih b

end Extending

/-! ## The steps one by one -/

theorem parseDotted_extending (shown : String) (path : List Char) :
    Extending (parseDotted shown path) := by
  unfold parseDotted
  split
  · exact .pure _
  · exact .throw _

theorem openFile_extending (stem : String) : Extending (openFile stem) := by
  intro c
  apply Extending.get_bind
  change c.Extends (Compiling.after (if _ then _ else _) c)
  split
  · exact .refl c
  · apply Extending.liftFault_bind
    exact fun _ => Extending.set_of_eq rfl rfl

theorem closeFile_extending : Extending closeFile := by
  intro c
  apply Extending.get_bind
  split
  · exact .refl c
  · apply Extending.bind_at
    · exact Extending.set_of_eq rfl rfl
    · intro _
      split
      · exact .refl _
      · exact .refl _

theorem openNamespacePath_extending (path : List String) :
    Extending (openNamespacePath path) := by
  intro c
  apply Extending.get_bind
  apply Extending.liftFault_bind
  intro parent
  apply Extending.liftFault_bind
  intro opened
  cases path with
  | nil => exact .of_eq rfl rfl
  | cons first rest =>
    apply Extending.liftFault_bind
    intro head
    cases head with
    | none => exact .of_eq rfl rfl
    | some ns => exact .of_eq rfl rfl

theorem openNamespace_extending (path : String) : Extending (openNamespace path) := by
  apply Extending.recording
  apply Extending.bind
  · exact parseDotted_extending path _
  · exact openNamespacePath_extending

theorem closeNamespace_extending : Extending closeNamespace := by
  intro c
  apply Extending.get_bind
  apply Extending.liftFault_bind
  intro scope
  change c.Extends (Compiling.after (if _ then _ else _) c)
  split
  · apply Extending.liftFault_bind
    exact fun _ => Extending.set_of_eq rfl rfl
  · exact .refl c

theorem openScope_extending (kind : BlockKind) : Extending (openScope kind) := by
  intro c
  apply Extending.get_bind
  apply Extending.liftFault_bind
  exact fun _ => .of_eq rfl rfl

theorem closeScope_extending : Extending closeScope := by
  intro c
  apply Extending.get_bind
  apply Extending.liftFault_bind
  exact fun _ => .of_eq rfl rfl

theorem store_extending (d : Definition) : Extending (store d) := by
  intro c
  refine ⟨fun id d' hd' => ?_, .inl rfl⟩
  change (c.definitions.push d).get? id = some d'
  rw [Arena.get?_push, if_neg (Nat.ne_of_lt (Arena.lt_size_of_get? hd'))]
  exact hd'

theorem addDefinition_extending (ns : NamespaceId) (identity : Identity) (id : DefId) :
    Extending (addDefinition ns identity id) := by
  intro c
  apply Extending.get_bind
  apply Extending.lift_bind
  exact fun _ => Extending.set_of_eq rfl rfl

theorem addAlias_extending (ns : NamespaceId) (name : String) (target : Meaning) :
    Extending (addAlias ns name target) := by
  intro c
  apply Extending.get_bind
  apply Extending.lift_bind
  exact fun _ => Extending.set_of_eq rfl rfl

theorem bind_extending (name : String) (meaning : Meaning) : Extending (bind name meaning) := by
  intro c
  apply Extending.get_bind
  apply Extending.lift_bind
  exact fun _ => Extending.set_of_eq rfl rfl

theorem addGroup_extending (identity : Identity) (body : Content) (edges : List Inheritance)
    (noValue : NameSet) (span : Option Span) :
    Extending (addGroup identity body edges noValue span) := by
  apply Extending.recording
  change Extending (if _ then _ else _)
  split
  · exact .throw _
  · intro c
    apply Extending.get_bind
    apply Extending.liftFault_bind
    intro home
    apply Extending.bind_at
    · exact store_extending _ c
    · intro id
      apply Extending.bind
      · exact addDefinition_extending home identity id
      · intro _
        apply Extending.bind
        · exact bind_extending _ _
        · exact fun _ => .pure id

theorem addRule_extending (denial : Denial) (reach : Reach) (span : Option Span) :
    Extending (addRule denial reach span) := by
  apply Extending.bind
  · intro c
    cases reach with
    | scope => exact .refl c
    | global =>
      apply Extending.get_bind
      apply Extending.liftFault_bind
      exact fun _ => .refl c
  · exact fun _ => .modify fun _ => .of_eq rfl rfl

theorem addClause_extending (clause : String) (reach : Reach) (span : Option Span) :
    Extending (addClause clause reach span) := by
  apply Extending.recording
  split
  · exact .forM _ fun denial => addRule_extending denial reach span
  · exact .throw _

theorem checkAliasName_extending (name : String) : Extending (checkAliasName name) := by
  unfold checkAliasName
  split
  · exact .pure ()
  · exact .throw _

theorem nameDefinition_extending (name target : String) (span : Option Span) :
    Extending (nameDefinition name target span) := by
  apply Extending.recording
  intro c
  apply Extending.get_bind
  apply Extending.liftFault_bind
  intro home
  apply Extending.bind_at
  · exact checkAliasName_extending name c
  · intro _
    apply Extending.lift_bind
    intro id
    apply Extending.bind
    · exact addAlias_extending home name _
    · exact fun _ => .pure id

theorem nameNamespace_extending (name path : String) (span : Option Span) :
    Extending (nameNamespace name path span) := by
  apply Extending.recording
  intro c
  apply Extending.get_bind
  apply Extending.liftFault_bind
  intro home
  apply Extending.bind_at
  · exact checkAliasName_extending name c
  · intro _
    apply Extending.bind_at
    · exact parseDotted_extending path _ _
    · intro segments
      apply Extending.liftFault_bind
      intro found
      cases found with
      | none => exact .refl _
      | some target =>
        apply Extending.bind
        · exact addAlias_extending home name _
        · exact fun _ => .pure target

theorem setConfig_extending (config : Config) : Extending (setConfig config) :=
  .modify fun _ => ⟨fun _ _ h => h, .inr rfl⟩

theorem drainDiagnostics_extending : Extending drainDiagnostics :=
  fun _ => .of_eq rfl rfl

theorem importDefinition_extending (other : Compilation) (target : NamespaceId) (moved : Moved)
    (old : DefId) : Extending (importDefinition other target moved old) := by
  intro c
  apply Extending.liftFault_bind
  intro d
  apply Extending.bind_at
  · exact store_extending _ c
  · intro id
    apply Extending.get_bind
    apply Extending.liftFault_bind
    intro inserted
    cases inserted with
    | ok namespaces => exact .of_eq rfl rfl
    | error e =>
      apply Extending.get_bind
      apply Extending.liftFault_bind
      intro kept
      apply Extending.bind
      · exact .report e d.span
      · exact fun _ => .pure _

theorem importAlias_extending (moved : Moved) (mapping : List NamespaceId) (target : NamespaceId)
    (entry : String × Meaning) : Extending (importAlias moved mapping target entry) := by
  intro c
  apply Extending.liftFault_bind
  intro meaning
  cases meaning with
  | none => exact .refl c
  | some meaning =>
    apply Extending.get_bind
    apply Extending.liftFault_bind
    intro added
    cases added with
    | ok namespaces => exact .of_eq rfl rfl
    | error e => exact Extending.report e none c

theorem importRule_extending (mapping : List NamespaceId) (r : Rule) :
    Extending (importRule mapping r) := by
  unfold importRule
  split
  · exact .pure ()
  · split
    · exact .modify fun _ => .of_eq rfl rfl
    · exact .throw _

theorem mount_extending (other : Compilation) (path : List String) :
    Extending (mount other path) := by
  intro c
  apply Extending.get_bind
  apply Extending.liftFault_bind
  intro top
  apply Extending.liftFault_bind
  intro copied
  apply Extending.bind_at
  · exact Extending.set_of_eq rfl rfl
  · intro _
    apply Extending.bind
    · exact .foldlM _ _ fun moved place =>
        .foldlM _ _ fun moved old => importDefinition_extending other place.2 moved old
    · intro moved
      apply Extending.bind
      · exact .forM _ fun place =>
          .forM _ fun entry => importAlias_extending moved copied.1 place.2 entry
      · intro _
        apply Extending.bind
        · exact .forM _ fun r => importRule_extending copied.1 r
        · exact fun _ => .modify fun _ => ⟨fun _ _ h => h, .inr rfl⟩

end Compiling
end Stencil
