import Stencil.Proofs.Import

/-! # What a step does not show

A view of a compilation that leaves out what a step writes is the same after the step. Which parts a
view leaves out is said once; that the steps leave it alone follows from it.
-/
namespace Stencil

open Compilation

theorem Failure.eq_ok_of_settle {α : Type} {r : Except Failure α} {a : α}
    (h : Failure.settle r = .ok (.ok a)) : r = .ok a := by
  rcases r with (e | f) | b <;> cases h
  rfl

/-- The view does not show what is registered, where only namespaces in `targets` are written to. -/
structure Overlooks {γ : Type} (view : Compilation → γ) (targets : NamespaceId → Prop) : Prop where
  session : ∀ c s, view { c with session := s } = view c
  rules : ∀ c rules, view { c with rules := rules } = view c
  definitions : ∀ c ds, view { c with definitions := ds } = view c
  registered : ∀ c ns identity id t, targets ns → c.namespaces.addDefinition ns identity id = .ok t →
    view { c with namespaces := t } = view c
  aliased : ∀ c ns name m t, targets ns → c.namespaces.addAlias ns name m = .ok t →
    view { c with namespaces := t } = view c

/-- The view does not show which scopes there are either. -/
def OverlooksScopes {γ : Type} (view : Compilation → γ) : Prop :=
  ∀ c scopes, view { c with scopes := scopes } = view c

namespace Compiling

variable {α β γ : Type} {c c' : Compilation} {view : Compilation → γ} {targets : NamespaceId → Prop}

theorem Spares.get_bind_of {g : Compilation → Compiling β} (h : ∀ c, Spares view (g c)) :
    Spares view ((get : Compiling Compilation) >>= g) := fun c => h c c

theorem Spares.lift (r : Except Failure α) : Spares view (liftM r : Compiling α) := fun c => by
  cases r <;> rfl

theorem Spares.recording {x : Compiling α} (hx : Spares view x)
    (hview : ∀ c s, view { c with session := s } = view c) (span : Option Span) :
    Spares view (recording span x) := by
  intro c
  rw [after, Compiling.recording, run_tryCatch]
  rcases x.outcome c with (e | f) | a
  · exact (hview _ _).trans (hx c)
  · exact hx c
  · exact hx c

/-! ## Registration -/

theorem addRule_spares (h : Overlooks view targets) (denial : Denial) (reach : Reach)
    (span : Option Span) : Spares view (addRule denial reach span) := by
  apply Spares.bind (α := RuleSite)
  · cases reach with
    | scope => exact fun _ => rfl
    | global => exact .get_bind_of fun c => .bind (.liftFault _) fun _ => .pure _
  · exact fun _ => .modify fun c => h.rules c _

theorem addClause_spares (h : Overlooks view targets) (clause : String) (reach : Reach)
    (span : Option Span) : Spares view (addClause clause reach span) := by
  refine .recording ?_ h.session span
  split
  · exact .forM fun denial _ => addRule_spares h denial reach span
  · exact .throw _

theorem checkAliasName_spares (name : String) : Spares view (checkAliasName name) := by
  unfold checkAliasName
  split
  · exact .pure _
  · exact .throw _

theorem parseDotted_spares (shown : String) (path : List Char) :
    Spares view (parseDotted shown path) := by
  unfold parseDotted
  split
  · exact .pure _
  · exact .throw _

theorem addAlias_spares (h : Overlooks view targets) {ns : NamespaceId} (hns : targets ns)
    (name : String) (m : Meaning) : Spares view (addAlias ns name m) := by
  apply Spares.get_bind
  intro c
  change view (((liftM (c.namespaces.addAlias ns name m) : Compiling NamespaceTree) >>= _).after c) = _
  rw [after, run_bind]
  cases ht : c.namespaces.addAlias ns name m with
  | error e => cases e <;> rfl
  | ok t => exact h.aliased c ns name m t hns ht

theorem nameDefinition_spares (h : Overlooks view fun _ => True) (name target : String)
    (span : Option Span) : Spares view (nameDefinition name target span) := by
  refine .recording ?_ h.session span
  refine .get_bind_of fun c => .bind (.liftFault _) fun home => ?_
  refine .bind (checkAliasName_spares name) fun _ => .bind (.lift _) fun id => ?_
  exact .bind (addAlias_spares h trivial name _) fun _ => .pure _

theorem nameNamespace_spares (h : Overlooks view fun _ => True) (name path : String)
    (span : Option Span) : Spares view (nameNamespace name path span) := by
  refine .recording ?_ h.session span
  refine .get_bind_of fun c => .bind (.liftFault _) fun home => ?_
  refine .bind (checkAliasName_spares name) fun _ => .bind (parseDotted_spares _ _) fun segments => ?_
  refine .bind (.liftFault _) fun found => ?_
  split
  · exact .throw _
  · exact .bind (addAlias_spares h trivial name _) fun _ => .pure _

theorem addDefinition_spares (h : Overlooks view targets) {ns : NamespaceId} (hns : targets ns)
    (identity : Identity) (id : DefId) : Spares view (addDefinition ns identity id) := by
  apply Spares.get_bind
  intro c
  change view (((liftM (c.namespaces.addDefinition ns identity id) : Compiling NamespaceTree) >>=
    _).after c) = _
  rw [after, run_bind]
  cases ht : c.namespaces.addDefinition ns identity id with
  | error e => cases e <;> rfl
  | ok t => exact h.registered c ns identity id t hns ht

theorem bind_spares (h : OverlooksScopes view) (name : String) (m : Meaning) :
    Spares view (Compiling.bind name m) := by
  apply Spares.get_bind
  intro c
  change view (((liftM (c.scopes.bind name m) : Compiling Scopes) >>= _).after c) = _
  rw [after, run_bind]
  cases c.scopes.bind name m with
  | error e => cases e <;> rfl
  | ok scopes => exact h c scopes

theorem addGroup_spares (h : Overlooks view fun _ => True) (hscopes : OverlooksScopes view)
    (identity : Identity) (body : Content) (edges : List Inheritance) (noValue : NameSet)
    (span : Option Span) : Spares view (addGroup identity body edges noValue span) := by
  have hrest (c : Compilation) : Spares view (do
      let home ← c.home
      let id ← store ⟨identity, home, c.scopes.current, edges, body, noValue, span⟩
      addDefinition home identity id
      Compiling.bind identity.render (.definition id)
      return id) := by
    refine .bind (.liftFault _) fun home => .bind (fun c => h.definitions c _) fun id => ?_
    refine .bind (addDefinition_spares h trivial identity id) fun _ => ?_
    exact .bind (bind_spares hscopes _ _) fun _ => .pure _
  refine .recording ?_ h.session span
  split
  · exact .bind (.throw _) fun _ => .get_bind_of fun c => hrest c
  · exact .get_bind_of hrest

/-! ## Scopes -/

theorem after_liftFault_bind (r : Except Fault α) (f : α → Compiling β) (c : Compilation) :
    ((liftM r : Compiling α) >>= f).after c =
      match r with
      | .ok a => (f a).after c
      | .error _ => c := by
  cases r <;> rfl

theorem after_get_bind (f : Compilation → Compiling β) (c : Compilation) :
    ((get : Compiling Compilation) >>= f).after c = (f c).after c := rfl

theorem after_set_bind (f : PUnit → Compiling β) (c c' : Compilation) :
    ((MonadStateOf.set c' : Compiling PUnit) >>= f).after c = (f ⟨⟩).after c' := rfl

theorem closeFile_spares (h : OverlooksScopes view)
    (hfile : ∀ c opened, view { c with fileScope := opened } = view c) : Spares view closeFile := by
  intro c
  rw [closeFile, after_get_bind]
  cases c.fileScope with
  | none => rfl
  | some opened =>
    dsimp only
    obtain ⟨scopes, fault⟩ := c.scopes.closeThrough opened
    change view (((MonadStateOf.set { c with scopes := scopes, fileScope := none } :
      Compiling PUnit) >>= _).after c) = _
    rw [after_set_bind]
    have hview := (hfile { c with scopes := scopes } none).trans (h c scopes)
    cases fault <;> exact hview

theorem close_bind_spares (h : OverlooksScopes view) (a : α) (c : Compilation) :
    view (((liftM c.scopes.close : Compiling Scopes) >>= fun scopes =>
      (MonadStateOf.set { c with scopes := scopes } : Compiling PUnit) >>= fun _ => pure a).after c) =
      view c := by
  rw [after_liftFault_bind]
  cases c.scopes.close with
  | error e => rfl
  | ok scopes => exact h c scopes

theorem closeNamespace_spares (h : OverlooksScopes view) : Spares view closeNamespace := by
  apply Spares.get_bind
  intro c
  rw [after_liftFault_bind]
  split
  · rename_i s _
    change view ((if s.kind = .namespaceBlock ∧ _ then _ else _ : Compiling Unit).after c) = _
    split
    · exact close_bind_spares h () c
    · rfl
  · rfl

theorem openScope_spares (h : OverlooksScopes view) (kind : BlockKind) :
    Spares view (openScope kind) := by
  apply Spares.get_bind
  intro c
  change view (((liftM (c.scopes.openBlock kind) : Compiling Scopes) >>= _).after c) = _
  rw [after_liftFault_bind]
  cases c.scopes.openBlock kind with
  | error e => rfl
  | ok scopes => exact h c scopes

theorem closeScope_spares (h : OverlooksScopes view) : Spares view closeScope :=
  Spares.get_bind fun c => close_bind_spares h c.scopes.current c

/-! ## Imports -/

variable {other : Compilation} {target : NamespaceId} {mapping : List NamespaceId}

theorem importDefinition_spares (h : Overlooks view targets) (htarget : targets target)
    (moved : Moved) (old : DefId) : Spares view (importDefinition other target moved old) := by
  refine .bind (.liftFault _) fun d => .bind (fun c => h.definitions c _) fun id => ?_
  apply Spares.get_bind
  intro c
  rw [after_liftFault_bind]
  cases hr : Failure.settle (c.namespaces.addDefinition target d.identity id) with
  | error f => rfl
  | ok r =>
    cases r with
    | ok t => exact h.registered c target d.identity id t htarget (Failure.eq_ok_of_settle hr)
    | error e =>
      refine (Spares.get_bind_of fun c => .bind (.liftFault _) fun kept => ?_ : Spares view _) c
      exact .bind (.modify fun c => h.session c _) fun _ => .pure _

theorem importAlias_spares (h : Overlooks view targets) (htarget : targets target) (moved : Moved)
    (entry : String × Meaning) : Spares view (importAlias moved mapping target entry) := by
  refine .bind (.liftFault _) fun meaning => ?_
  cases meaning with
  | none => exact .pure ()
  | some m =>
    apply Spares.get_bind
    intro c
    rw [after_liftFault_bind]
    cases hr : Failure.settle (c.namespaces.addAlias target entry.1 m) with
    | error f => rfl
    | ok r =>
      cases r with
      | ok t => exact h.aliased c target entry.1 m t htarget (Failure.eq_ok_of_settle hr)
      | error e => exact h.session c _

theorem importRule_spares (h : Overlooks view targets) (r : Rule) :
    Spares view (importRule mapping r) := by
  unfold importRule
  split
  · exact .pure ()
  · split
    · exact .modify fun c => h.rules c _
    · exact .throw _

/-- The passes of an import write to counterparts only. -/
theorem importInto_spares (h : Overlooks view targets) (hmapping : ∀ q ∈ mapping, targets q) :
    Spares view (importInto other mapping) := by
  have htarget {β : Type} {entries : Namespace → List β} {e : NamespaceId × β}
      (he : e ∈ other.arriving mapping entries) : targets e.1 := by
    obtain ⟨o, n, -, htarget, -⟩ := Compilation.mem_arriving.1 he
    exact hmapping _ (List.mem_of_getElem? htarget)
  refine .bind (.foldlM (fun moved e he => importDefinition_spares h (htarget he) moved e.2) _)
    fun moved => ?_
  refine .bind (.forM fun e he => importAlias_spares h (htarget he) moved e.2) fun _ => ?_
  exact .bind (.forM fun r _ => importRule_spares h r) fun _ => .modify fun c => h.session c _

end Compiling
end Stencil
