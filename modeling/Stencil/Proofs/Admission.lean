import Stencil.Proofs.Denials
import Stencil.Proofs.Integrity
import Stencil.Proofs.Sparing
import Stencil.Proofs.Spelling
import Stencil.Proofs.Strategies
import Stencil.Proofs.Trie

/-! # Registration is decided by the namespace

A definition is entered in the table of its namespace and then, as it is spelled, in the scope where it
is written. The second entry is never refused: what a scope knows by the spelling of an identity is
registered under that identity in the namespace of the scope, and no namespace is spelled like one.
-/
namespace Stencil

open Compilation

/-! ## Spellings -/

theorem Identity.render_injective : Function.Injective Identity.render := by
  rintro ⟨origin, kind, name⟩ ⟨origin', kind', name'⟩ h
  have hlist := congrArg String.toList h
  simp only [render, String.toList_append] at hlist
  cases origin <;> cases origin' <;> cases kind <;> cases kind' <;>
    simp [Origin.keyword, Kind.keyword, String.toList_inj] at hlist
  all_goals rw [hlist]

theorem Identity.not_isName_render (i : Identity) : ¬ Text.isName i.render.toList := by
  obtain ⟨origin, kind, name⟩ := i
  have hbracket : Text.beginsName '[' = false := by decide
  cases origin <;> simp [render, Origin.keyword, Text.isName, hbracket]

/-! ## What scopes know -/

theorem Scopes.meaningIn_openIn {s : Scopes} {kind : BlockKind} {home : NamespaceId} {id : ScopeId}
    {name : String} {m : Meaning} (h : (s.openIn kind home).meaningIn id name = some m) :
    s.meaningIn id name = some m := by
  obtain ⟨x, hx, hm⟩ := Option.bind_eq_some_iff.1 h
  simp only [openIn, Arena.get?_modify, Arena.get?_push] at hx
  have hfresh : ∀ y : Scope, some y = some ⟨kind, some s.current, home, [], .empty⟩ →
      y.meanings.get? name ≠ some m := by
    rintro y hy
    obtain rfl := Option.some.inj hy
    intro h
    cases h
  split at hx
  · obtain ⟨y, hy, rfl⟩ := Option.map_eq_some_iff.1 hx
    split at hy
    · exact absurd hm (hfresh y hy.symm)
    · exact Option.bind_eq_some_iff.2 ⟨y, hy, hm⟩
  · split at hx
    · exact absurd hm (hfresh x hx.symm)
    · exact Option.bind_eq_some_iff.2 ⟨x, hx, hm⟩

theorem Scopes.meaningIn_bind {s s' : Scopes} {bound name : String} {target m : Meaning}
    {id : ScopeId} (hbind : s.bind bound target = .ok s') (h : s'.meaningIn id name = some m) :
    s.meaningIn id name = some m ∨ id = s.current ∧ name = bound ∧ m = target := by
  obtain ⟨x, hx, -, rfl⟩ := bind_eq_ok hbind
  obtain ⟨y, hy, hm⟩ := Option.bind_eq_some_iff.1 h
  rw [Arena.get?_modify] at hy
  split at hy
  · rename_i hid
    subst hid
    rw [hx] at hy
    obtain rfl := Option.some.inj hy
    rw [OrderedMap.get?_insert] at hm
    split at hm
    · rename_i hname
      exact .inr ⟨rfl, hname.symm, (Option.some.inj hm).symm⟩
    · exact .inl (Option.bind_eq_some_iff.2 ⟨x, hx, hm⟩)
  · exact .inl (Option.bind_eq_some_iff.2 ⟨y, hy, hm⟩)

theorem Scopes.bind_of_none {s : Scopes} {x : Scope} {name : String} (m : Meaning)
    (hx : s.table.get? s.current = some x) (h : x.meanings.get? name = none) :
    ∃ s', s.bind name m = .ok s' := by
  have hcontains : ¬ x.meanings.contains name := by simp [OrderedMap.contains, h]
  unfold bind find
  rw [Arena.find_of_get? hx]
  exact ⟨_, if_neg hcontains⟩

namespace Compilation

variable {c c' : Compilation}

/-- What a name means in a scope of that namespace: a namespace, or what is registered in the
namespace under the identity that is spelled so. -/
def Means (c : Compilation) (home : NamespaceId) (name : String) (m : Meaning) : Prop :=
  (Text.isName name.toList ∧ ∃ ns, m = .space ns) ∨
    ∃ identity id, name = identity.render ∧ m = .definition id ∧
      c.namespaces.definition? home identity = some id

/-- The scopes know nothing but what the namespaces have. -/
def Settled (c : Compilation) : Prop :=
  c.scopes.table.All fun _ s => ∀ name m, s.meanings.get? name = some m → c.Means s.home name m

theorem Grows.definition? (h : c.Grows c') {ns : NamespaceId} {identity : Identity} {id : DefId}
    (hid : c.namespaces.definition? ns identity = some id) :
    c'.namespaces.definition? ns identity = some id := by
  obtain ⟨n, hn, hid⟩ := Option.bind_eq_some_iff.1 hid
  obtain ⟨n', hn', hgrows⟩ := h.namespaces ns n hn
  rw [NamespaceTree.definition?, hn']
  exact hgrows.definitions identity id hid

theorem Grows.means (h : c.Grows c') {home : NamespaceId} {name : String} {m : Meaning}
    (hm : c.Means home name m) : c'.Means home name m := by
  rcases hm with hspace | ⟨identity, id, hname, hm, hid⟩
  · exact .inl hspace
  · exact .inr ⟨identity, id, hname, hm, h.definition? hid⟩

/-- Every meaning that has come to a scope is one that the scope may have. -/
theorem Settled.of_grows (hc : c.Settled) (hgrows : c.Grows c')
    (hnew : ∀ id name m, c'.scopes.meaningIn id name = some m →
      c.scopes.meaningIn id name = some m ∨
        ∀ s, c.scopes.table.get? id = some s → c'.Means s.home name m)
    (hscopes : ∀ id name m, c'.scopes.meaningIn id name = some m → c.scopes.table.Holds id) :
    c'.Settled := by
  intro id s' hs' name m hm
  have hmeaning : c'.scopes.meaningIn id name = some m := Option.bind_eq_some_iff.2 ⟨s', hs', hm⟩
  obtain ⟨s, hs⟩ := (hscopes id name m hmeaning).exists_get?
  obtain ⟨s'', hs'', -, -, hhome⟩ := hgrows.scopes id s hs
  obtain rfl := Option.some.inj (hs'.symm.trans hs'')
  rw [hhome]
  rcases hnew id name m hmeaning with hold | hmeans
  · obtain ⟨s₁, hs₁, hm⟩ := Option.bind_eq_some_iff.1 hold
    obtain rfl := Option.some.inj (hs.symm.trans hs₁)
    exact hgrows.means (hc id s hs name m hm)
  · exact hmeans s hs

/-- No scope has got a new meaning. -/
def Quiet (c c' : Compilation) : Prop :=
  ∀ id name m, c'.scopes.meaningIn id name = some m → c.scopes.meaningIn id name = some m

theorem Quiet.settled (h : c.Quiet c') (hgrows : c.Grows c') (hc : c.Settled) : c'.Settled := by
  refine hc.of_grows hgrows (fun id name m hm => .inl (h id name m hm)) fun id name m hm => ?_
  obtain ⟨s, hs, -⟩ := Option.bind_eq_some_iff.1 (h id name m hm)
  exact Arena.holds_of_get? hs

/-- An identity that is not registered in the current namespace is not known in the current scope. -/
theorem Settled.get?_render_eq_none (hc : c.Settled) {s : Scope} {identity : Identity}
    (hs : c.scopes.table.get? c.scopes.current = some s)
    (hfree : c.namespaces.definition? s.home identity = none) :
    s.meanings.get? identity.render = none := by
  cases hm : s.meanings.get? identity.render with
  | none => rfl
  | some m =>
    rcases hc _ s hs _ m hm with ⟨hname, -⟩ | ⟨identity', id, hrender, -, hid⟩
    · exact absurd hname identity.not_isName_render
    · rw [Identity.render_injective hrender, hid] at hfree
      cases hfree

end Compilation

/-! ## Steps that tell the scopes nothing -/

namespace Compiling

variable {α β γ : Type} {c c' : Compilation} {view : Compilation → γ}

theorem quiet_of_spares {x : Compiling α} (h : Spares Compilation.scopes x) (c : Compilation) :
    c.Quiet (x.after c) := by
  intro id name m hm
  rwa [h c] at hm

theorem quiet_openFile (stem : String) : c.Quiet ((openFile stem).after c) := by
  change c.Quiet ((if _ then _ else _ : Compiling Unit).after c)
  split
  · exact fun _ _ _ hm => hm
  · rw [after_liftFault_bind]
    split
    · exact fun _ _ _ hm => Scopes.meaningIn_openIn hm
    · exact fun _ _ _ hm => hm

theorem quiet_of_table (c : Compilation) {scopes : Scopes} (h : scopes.table = c.scopes.table)
    (fileScope : Option ScopeId) :
    c.Quiet { c with scopes := scopes, fileScope := fileScope } := by
  intro id name m hm
  unfold Scopes.meaningIn at hm ⊢
  rwa [← h]

theorem quiet_closeFile : c.Quiet (closeFile.after c) := by
  rw [closeFile, after_get_bind]
  cases c.fileScope with
  | none => exact fun _ _ _ hm => hm
  | some opened =>
    obtain ⟨p, -, heq, -⟩ := closeThrough_cases c.scopes opened
    have htable : (c.scopes.closeThrough opened).1.table = c.scopes.table := by rw [heq]
    have hquiet := quiet_of_table c htable none
    dsimp only
    generalize c.scopes.closeThrough opened = closed at hquiet ⊢
    obtain ⟨scopes, fault⟩ := closed
    change c.Quiet (((MonadStateOf.set _ : Compiling PUnit) >>= _).after c)
    rw [after_set_bind]
    cases fault <;> exact hquiet

theorem table_of_close {s s' : Scopes} (h : s.close = .ok s') : s'.table = s.table := by
  obtain ⟨x, -, h⟩ := Except.bind_eq_ok h
  split at h
  · cases h
  · cases h
    rfl

theorem quiet_close {f : Scopes → Compiling α} (hf : ∀ scopes, scopes.table = c.scopes.table →
    c.Quiet ((f scopes).after c)) :
    c.Quiet (((liftM c.scopes.close : Compiling Scopes) >>= f).after c) := by
  rw [after_liftFault_bind]
  split
  · rename_i scopes h
    exact hf scopes (table_of_close h)
  · exact fun _ _ _ hm => hm

theorem quiet_closeNamespace : c.Quiet (closeNamespace.after c) := by
  change c.Quiet (((liftM (c.scopes.find c.scopes.current) : Compiling Scope) >>= _).after c)
  rw [after_liftFault_bind]
  split
  · rename_i s _
    change c.Quiet ((if s.kind = .namespaceBlock ∧ _ then _ else _ : Compiling Unit).after c)
    split
    · exact quiet_close fun scopes h => quiet_of_table c h c.fileScope
    · exact fun _ _ _ hm => hm
  · exact fun _ _ _ hm => hm

theorem quiet_openScope (kind : BlockKind) : c.Quiet ((openScope kind).after c) := by
  change c.Quiet (((liftM (c.scopes.openBlock kind) : Compiling Scopes) >>= _).after c)
  rw [after_liftFault_bind]
  split
  · rename_i scopes h
    obtain ⟨home, -, h⟩ := Except.bind_eq_ok h
    cases h
    exact fun _ _ _ hm => Scopes.meaningIn_openIn hm
  · exact fun _ _ _ hm => hm

theorem quiet_closeScope : c.Quiet (closeScope.after c) :=
  quiet_close fun _ h => quiet_of_table c h c.fileScope

theorem overlooks_scopes : Overlooks Compilation.scopes fun _ => True where
  session _ _ := rfl
  rules _ _ := rfl
  definitions _ _ := rfl
  registered _ _ _ _ _ _ _ := rfl
  aliased _ _ _ _ _ _ _ := rfl

/-- An import leaves alone what is not in the namespaces. -/
theorem spares_mount {γ : Type} {view : Compilation → γ} (h : Overlooks view fun _ => True)
    (hspaces : ∀ c t, view { c with namespaces := t } = view c) (other : Compilation)
    (path : List String) : Spares view (mount other path) := by
  rw [mount_eq]
  refine .bind (.get_bind fun c => ?_) fun mapping => ?_
  · rw [after_liftFault_bind]
    split
    · rw [after_liftFault_bind]
      split
      · exact hspaces _ _
      · rfl
    · rfl
  · exact importInto_spares h fun _ _ => trivial

theorem mount_spares (other : Compilation) (path : List String) :
    Spares Compilation.scopes (mount other path) :=
  spares_mount overlooks_scopes (fun _ _ => rfl) other path

end Compiling

/-! ## Blocks and groups tell the scopes what the namespaces have -/

namespace Compiling

variable {c : Compilation}

theorem run_liftFault_bind {α β : Type} {r : Except Fault α} {a : α} (h : r = .ok a)
    (f : α → Compiling β) (c : Compilation) :
    ((liftM r : Compiling α) >>= f).run c = (f a).run c := by
  rw [h]
  rfl

/-- A block is opened in any case. Its first name may become known in the scope around it. -/
theorem run_openNamespacePath (hc : c.Intact) (path : List String) : ∃ home ns t scopes,
    c.home = .ok home ∧ c.namespaces.openAt home path true = .ok (ns, t) ∧
    (scopes = c.scopes ∨ ∃ first head, path.head? = some first ∧
      c.scopes.bind first (.space head) = .ok scopes) ∧
    (openNamespacePath path).run c =
      (.ok ns, { c with namespaces := t, scopes := scopes.openIn .namespaceBlock ns }) := by
  obtain ⟨home, hhome, hholds⟩ := hc.finds_home
  obtain ⟨⟨ns, t⟩, hopen, hupdates, -⟩ := hc.finds_openAt path true hholds
  cases path with
  | nil =>
    refine ⟨home, ns, t, c.scopes, hhome, hopen, .inl rfl, ?_⟩
    change ((liftM c.home : Compiling NamespaceId) >>= _).run c = _
    rw [run_liftFault_bind hhome, run_liftFault_bind hopen]
    rfl
  | cons first rest =>
    obtain ⟨n, hn⟩ := (hupdates.grows.holds_namespace hholds).exists_get?
    have hchild : t.child home first = .ok (n.children.get? first) := by
      rw [NamespaceTree.child, NamespaceTree.find, Arena.find_of_get? hn]
      rfl
    have hscopes : ∀ head, announce c.scopes first (.space head) = c.scopes ∨
        c.scopes.bind first (.space head) = .ok (announce c.scopes first (.space head)) := by
      intro head
      unfold announce
      split
      · rename_i scopes hbind
        exact .inr hbind
      · exact .inl rfl
    cases hhead : n.children.get? first with
    | none =>
      refine ⟨home, ns, t, c.scopes, hhome, hopen, .inl rfl, ?_⟩
      change ((liftM c.home : Compiling NamespaceId) >>= _).run c = _
      rw [run_liftFault_bind hhome, run_liftFault_bind hopen]
      change ((liftM (t.child home first) : Compiling _) >>= _).run c = _
      rw [run_liftFault_bind hchild, hhead]
      rfl
    | some head =>
      refine ⟨home, ns, t, announce c.scopes first (.space head), hhome, hopen, ?_, ?_⟩
      · exact (hscopes head).imp_right fun hbind => ⟨first, head, rfl, hbind⟩
      · change ((liftM c.home : Compiling NamespaceId) >>= _).run c = _
        rw [run_liftFault_bind hhome, run_liftFault_bind hopen]
        change ((liftM (t.child home first) : Compiling _) >>= _).run c = _
        rw [run_liftFault_bind hchild, hhead]
        rfl

variable {identity : Identity} {body : Content} {home : NamespaceId} {n : Namespace}

/-- The definition that a group becomes. -/
def written (c : Compilation) (home : NamespaceId) (identity : Identity) (body : Content)
    (edges : List Inheritance) (noValue : NameSet) (span : Option Span) : Definition :=
  ⟨identity, home, c.scopes.current, edges, body, noValue, span⟩

variable (edges : List Inheritance) (noValue : NameSet) (span : Option Span)

theorem run_recording_of_refused {α : Type} {x : Compiling α} {c : Compilation} (c' : Compilation)
    {e : Problem} (h : x.run c = (.error (.refused e), c')) (span : Option Span) :
    (recording span x).run c =
      (.error (.refused e), { c' with session := c'.session.reporting e span }) := by
  rw [recording, run_tryCatch, outcome, after, h]
  rfl

theorem run_recording_of_ok {α : Type} {x : Compiling α} {c c' : Compilation} {a : α}
    (h : x.run c = (.ok a, c')) (span : Option Span) : (recording span x).run c = (.ok a, c') := by
  rw [recording, run_tryCatch, outcome, after, h]

theorem run_addGroup_of_wrongKind (hkind : body.kind ≠ identity.kind) :
    (addGroup identity body edges noValue span).run c =
      (.error (.refused (.wrongKind identity.render identity.kind.keyword body.kind.keyword)), { c with
        session := c.session.reporting
          (.wrongKind identity.render identity.kind.keyword body.kind.keyword) span }) := by
  refine run_recording_of_refused c ?_ span
  rw [if_pos hkind]
  rfl

theorem run_addGroup_of_some (hkind : body.kind = identity.kind) (hhome : c.home = .ok home)
    (hn : c.namespaces.table.get? home = some n) {kept : DefId}
    (h : n.definitions.get? identity = some kept) :
    (addGroup identity body edges noValue span).run c =
      (.error (.refused (.duplicate identity.render (c.namespaces.title home))), { c with
        definitions := c.definitions.push (written c home identity body edges noValue span)
        session := c.session.reporting
          (.duplicate identity.render (c.namespaces.title home)) span }) := by
  have hadd := NamespaceTree.addDefinition_of_some hn h c.definitions.nextId
  refine run_recording_of_refused { c with
    definitions := c.definitions.push (written c home identity body edges noValue span) } ?_ span
  rw [if_neg (not_not.2 hkind)]
  change ((liftM c.home : Compiling NamespaceId) >>= _).run c = _
  rw [run_liftFault_bind hhome, run_bind]
  change (((liftM (c.namespaces.addDefinition home identity c.definitions.nextId) : Compiling _) >>=
    _) >>= _).run _ = _
  rw [hadd]
  rfl

theorem run_addGroup_of_none (hkind : body.kind = identity.kind) (hhome : c.home = .ok home)
    (hn : c.namespaces.table.get? home = some n) (h : n.definitions.get? identity = none)
    {scopes : Scopes}
    (hbind : c.scopes.bind identity.render (.definition c.definitions.nextId) = .ok scopes) :
    (addGroup identity body edges noValue span).run c = (.ok c.definitions.nextId, { c with
      definitions := c.definitions.push (written c home identity body edges noValue span)
      namespaces := c.namespaces.insertDefinition home identity c.definitions.nextId
      scopes := scopes }) := by
  have hadd := NamespaceTree.addDefinition_of_none hn h c.definitions.nextId
  refine run_recording_of_ok ?_ span
  rw [if_neg (not_not.2 hkind)]
  change ((liftM c.home : Compiling NamespaceId) >>= _).run c = _
  rw [run_liftFault_bind hhome, run_bind]
  change (((liftM (c.namespaces.addDefinition home identity c.definitions.nextId) : Compiling _) >>=
    _) >>= _).run _ = _
  rw [hadd]
  change (((liftM (c.scopes.bind identity.render (.definition c.definitions.nextId)) : Compiling _)
    >>= _) >>= _).run _ = _
  rw [hbind]
  rfl

theorem run_openNamespace (hc : c.Intact) {path : String} {segments : List String}
    (hparse : Name.parseDotted (Text.trim path.toList) = .ok segments) : ∃ home ns t scopes,
    c.home = .ok home ∧ c.namespaces.openAt home segments true = .ok (ns, t) ∧
    (scopes = c.scopes ∨ ∃ first head, segments.head? = some first ∧
      c.scopes.bind first (.space head) = .ok scopes) ∧
    (openNamespace path).run c =
      (.ok ns, { c with namespaces := t, scopes := scopes.openIn .namespaceBlock ns }) := by
  obtain ⟨home, ns, t, scopes, hhome, hopen, hscopes, hrun⟩ := run_openNamespacePath hc segments
  refine ⟨home, ns, t, scopes, hhome, hopen, hscopes, run_recording_of_ok ?_ none⟩
  rw [parseDotted, hparse]
  exact hrun

theorem run_openNamespace_of_error {path : String} {e : Misspelling}
    (hparse : Name.parseDotted (Text.trim path.toList) = .error e) (c : Compilation) :
    (openNamespace path).run c = (.error (.refused (.malformed path e.message)), { c with
      session := c.session.reporting (.malformed path e.message) none }) := by
  refine run_recording_of_refused c ?_ none
  rw [parseDotted, hparse]
  rfl

end Compiling

namespace Compilation

variable {c : Compilation}

theorem Settled.openNamespace (h : c.Settled) (hc : c.Intact) (path : String) :
    ((Compiling.openNamespace path).after c).Settled := by
  have hgrows := (Compiling.openNamespace_runs hc path).1.grows
  rw [Compiling.after] at hgrows ⊢
  cases hparse : Name.parseDotted (Text.trim path.toList) with
  | error e =>
    rw [Compiling.run_openNamespace_of_error hparse] at hgrows ⊢
    exact h
  | ok segments =>
    obtain ⟨home, ns, t, scopes, -, -, hscopes, hrun⟩ := Compiling.run_openNamespace hc hparse
    rw [hrun] at hgrows ⊢
    rcases hscopes with rfl | ⟨first, head, hfirst, hbind⟩
    · exact Quiet.settled (fun id name m hm => Scopes.meaningIn_openIn hm) hgrows h
    · have hname := (Name.parseDotted_eq_ok_iff.1 hparse).2.1 _ (List.mem_of_head? hfirst)
      refine h.of_grows hgrows (fun id name m hm => ?_) fun id name m hm => ?_
      · rcases Scopes.meaningIn_bind hbind (Scopes.meaningIn_openIn hm) with hold | ⟨-, rfl, rfl⟩
        · exact .inl hold
        · exact .inr fun s _ => .inl ⟨hname, head, rfl⟩
      · rcases Scopes.meaningIn_bind hbind (Scopes.meaningIn_openIn hm) with hold | ⟨rfl, -, -⟩
        · obtain ⟨s, hs, -⟩ := Option.bind_eq_some_iff.1 hold
          exact Arena.holds_of_get? hs
        · exact hc.current

/-- Whether a group is registered, is decided by the current namespace. -/
theorem Settled.addGroup_cases (h : c.Settled) (hc : c.Intact) (identity : Identity)
    (body : Content) :
    ∃ s n, c.home = .ok s.home ∧ c.scopes.table.get? c.scopes.current = some s ∧
      c.namespaces.table.get? s.home = some n ∧
      (body.kind ≠ identity.kind ∨
        (∃ kept, body.kind = identity.kind ∧ n.definitions.get? identity = some kept) ∨
        ∃ scopes, body.kind = identity.kind ∧ n.definitions.get? identity = none ∧
          c.scopes.bind identity.render (.definition c.definitions.nextId) = .ok scopes) := by
  obtain ⟨s, hs⟩ := hc.current.exists_get?
  have hhome : c.home = .ok s.home := by
    rw [home, Scopes.homeOf, Scopes.find, Arena.find_of_get? hs]
    rfl
  have hholds : c.namespaces.table.Holds s.home := (hc.scopes _ s hs).home
  obtain ⟨n, hn⟩ := hholds.exists_get?
  refine ⟨s, n, hhome, hs, hn, ?_⟩
  by_cases hkind : body.kind = identity.kind
  · cases hd : n.definitions.get? identity with
    | some kept => exact .inr (.inl ⟨kept, hkind, rfl⟩)
    | none =>
      have hfree := h.get?_render_eq_none hs
        (by rw [NamespaceTree.definition?, hn]; exact hd)
      obtain ⟨scopes, hbind⟩ := Scopes.bind_of_none (.definition c.definitions.nextId) hs hfree
      exact .inr (.inr ⟨scopes, hkind, rfl, hbind⟩)
  · exact .inl hkind

theorem Settled.addGroup (h : c.Settled) (hc : c.Intact) (identity : Identity) (body : Content)
    (edges : List Inheritance) (noValue : NameSet) (span : Option Span) :
    ((Compiling.addGroup identity body edges noValue span).after c).Settled := by
  have hgrows := (Compiling.addGroup_runs hc identity body edges noValue span).1.grows
  obtain ⟨s, n, hhome, hs, hn, hkind | ⟨kept, hkind, hd⟩ | ⟨scopes, hkind, hd, hbind⟩⟩ :=
    h.addGroup_cases hc identity body
  · rw [Compiling.after, Compiling.run_addGroup_of_wrongKind edges noValue span hkind] at hgrows ⊢
    exact h
  · rw [Compiling.after, Compiling.run_addGroup_of_some edges noValue span hkind hhome hn hd]
      at hgrows ⊢
    exact h
  · rw [Compiling.after, Compiling.run_addGroup_of_none edges noValue span hkind hhome hn hd hbind]
      at hgrows ⊢
    refine h.of_grows hgrows (fun id name m hm => ?_) fun id name m hm => ?_
    · rcases Scopes.meaningIn_bind hbind hm with hold | ⟨rfl, rfl, rfl⟩
      · exact .inl hold
      · refine .inr fun s' hs' => .inr ⟨identity, _, rfl, rfl, ?_⟩
        obtain rfl := Option.some.inj (hs.symm.trans hs')
        rw [NamespaceTree.definition?_insertDefinition hn]
        exact if_pos ⟨rfl, rfl⟩
    · rcases Scopes.meaningIn_bind hbind hm with hold | ⟨rfl, -, -⟩
      · obtain ⟨s, hs, -⟩ := Option.bind_eq_some_iff.1 hold
        exact Arena.holds_of_get? hs
      · exact hc.current

/-- What is reached if every namespace block is opened by a dotted path or for a file. -/
inductive Orderly : Compilation → Prop
  | initial (config : Config) : Orderly (.initial config)
  | step {c : Compilation} (op : Operation) (hop : ∀ path, op ≠ .openNamespacePath path)
    (hc : Orderly c) : Orderly (op.after c)
  | mount {c other : Compilation} (path : List String) (hc : Orderly c)
    (hother : other.Reachable) : Orderly ((Compiling.mount other path).after c)

namespace Orderly

theorem reachable (h : c.Orderly) : c.Reachable := by
  induction h with
  | initial config => exact .initial config
  | step op _ _ ih => exact ih.step op
  | mount path _ hother ih => exact ih.mount path hother

theorem afterAll (h : c.Orderly) {ops : List Operation}
    (hops : ∀ op ∈ ops, ∀ path, op ≠ .openNamespacePath path) :
    (Operation.afterAll ops c).Orderly := by
  induction ops generalizing c with
  | nil => exact h
  | cons op ops ih =>
    exact ih (h.step op (hops op List.mem_cons_self))
      fun op' hop' => hops op' (List.mem_cons_of_mem _ hop')

theorem settled (h : c.Orderly) : c.Settled := by
  induction h with
  | initial config =>
    refine Arena.All.singleton fun name m hm => ?_
    cases hm
  | @mount c other path hc hother ih =>
    have hgrows := (Compiling.mount_runs hc.reachable.intact hother.intact path).1.grows
    exact (Compiling.quiet_of_spares (Compiling.mount_spares other path) c).settled hgrows ih
  | @step c op hop hc ih =>
    have hintact := hc.reachable.intact
    have hgrows := (op.after_updates hintact).grows
    have hquiet (h : c.Quiet (op.after c)) : (op.after c).Settled := h.settled hgrows ih
    have hspares {α : Type} {x : Compiling α} (hx : Compiling.Spares Compilation.scopes x) :
        c.Quiet (x.after c) := Compiling.quiet_of_spares hx c
    have hview := Compiling.overlooks_scopes
    cases op with
    | openNamespacePath path => exact absurd rfl (hop path)
    | openNamespace path => exact ih.openNamespace hintact path
    | addGroup identity body edges noValue span =>
      exact ih.addGroup hintact identity body edges noValue span
    | openFile stem => exact hquiet (Compiling.quiet_openFile stem)
    | closeFile => exact hquiet Compiling.quiet_closeFile
    | closeNamespace => exact hquiet Compiling.quiet_closeNamespace
    | openScope kind => exact hquiet (Compiling.quiet_openScope kind)
    | closeScope => exact hquiet Compiling.quiet_closeScope
    | addRule denial reach span => exact hquiet (hspares (Compiling.addRule_spares hview denial reach span))
    | addClause clause reach span =>
      exact hquiet (hspares (Compiling.addClause_spares hview clause reach span))
    | nameDefinition name target span =>
      exact hquiet (hspares (Compiling.nameDefinition_spares hview name target span))
    | nameNamespace name path span =>
      exact hquiet (hspares (Compiling.nameNamespace_spares hview name path span))
    | setConfig config => exact hquiet fun _ _ _ hm => hm
    | drainDiagnostics => exact hquiet fun _ _ _ hm => hm
    | request r =>
      obtain ⟨s, hs, -⟩ := r.after_resolves kept_kinded c
      refine hquiet ?_
      rw [Operation.after, hs]
      exact fun _ _ _ hm => hm

end Orderly

/-! ## The decision -/

/-- No table, alias or look-up gives the definition. -/
structure Withholds (c : Compilation) (id : DefId) : Prop where
  tables : ∀ ns identity, c.namespaces.definition? ns identity ≠ some id
  aliases : ∀ ns name, c.namespaces.alias? ns name ≠ some (.definition id)
  lookups : ∀ start n k r, c.namespaces.table.Holds start →
    c.library.lookup start n k = .ok r → id ∉ r.ids
  tokens : ∀ start token expected, c.namespaces.table.Holds start →
    c.library.resolveText start token expected ≠ .ok id
  visible : ∀ (site : UseSite) category ids, c.namespaces.table.Holds site.home →
    c.visible site category = .ok ids → id ∉ ids
  found : ∀ path identity, c.findDefinition path identity ≠ .ok (some id)

theorem Intact.withholds (hc : c.Intact) {id : DefId} (h : ¬ c.namespaces.Lists id) :
    c.Withholds id where
  tables ns identity hid := by
    obtain ⟨n, hn, hid⟩ := Option.bind_eq_some_iff.1 hid
    exact h ⟨ns, n, identity, hn, hid⟩
  aliases ns name hid := by
    obtain ⟨n, hn, hid⟩ := Option.bind_eq_some_iff.1 hid
    exact h (hc.aliases ns n hn name id hid)
  lookups start n k r hstart hr hid := by
    obtain ⟨r', hr', hoffered⟩ := hc.library.finds_lookup n k hstart
    obtain rfl := Except.ok.inj (hr.symm.trans hr')
    cases r with
    | found id' => exact h (hc.lists_of_offers (List.mem_singleton.1 hid ▸ hoffered))
    | ambiguous ids => exact h (hc.lists_of_offers (hoffered id hid))
    | notFound => cases hid
  tokens start token expected hstart hid := by
    rcases hc.answers_resolveText token expected hstart with ⟨id', hid', hlists⟩ | ⟨e, he⟩
    · exact h (Except.ok.inj (hid.symm.trans hid') ▸ hlists)
    · cases hid.symm.trans he
  visible site category ids hsite hids hid := by
    obtain ⟨ids', hids', hlists⟩ := hc.toClosed.library.finds_visible hsite category
    obtain rfl := Except.ok.inj (hids.symm.trans hids')
    exact h (hlists id hid)
  found path identity hid := by
    obtain ⟨r, hr, hid⟩ := Except.bind_eq_ok hid
    cases r with
    | none => cases hid
    | some ns =>
      obtain ⟨n, hn, hid⟩ := Except.bind_eq_ok hid
      exact h ⟨ns, n, identity, Arena.get?_of_find hn, Except.ok.inj hid⟩

/-- What becomes of a group that is written in that namespace. -/
structure Admission (c : Compilation) (home : NamespaceId) (identity : Identity) (body : Content)
    (edges : List Inheritance) (noValue : NameSet) (span : Option Span) : Prop where
  decided : (∃ id, (Compiling.addGroup identity body edges noValue span).outcome c = .ok id) ↔
    body.kind = identity.kind ∧ c.namespaces.definition? home identity = none
  /-- What the namespace takes, the scope takes. -/
  bound : body.kind = identity.kind → c.namespaces.definition? home identity = none →
    ∃ scopes, c.scopes.bind identity.render (.definition c.definitions.nextId) = .ok scopes
  /-- A group that is refused leaves everything as it was, but for an entry that nothing ever gives. -/
  refused : ∀ e, (Compiling.addGroup identity body edges noValue span).outcome c = .error e →
    ∀ c', c' = (Compiling.addGroup identity body edges noValue span).after c →
      c'.namespaces = c.namespaces ∧ c'.scopes = c.scopes ∧ c'.rules = c.rules ∧
      c'.config = c.config ∧ c'.fileScope = c.fileScope ∧
      ∀ id d, c'.definitions.get? id = some d → c.definitions.get? id = some d ∨
        ∀ later, c'.Later later → later.Fits → later.Withholds id
  /-- A group that is registered stays registered. -/
  registered : ∀ id, (Compiling.addGroup identity body edges noValue span).outcome c = .ok id →
    id = c.definitions.nextId ∧
    ∀ later, ((Compiling.addGroup identity body edges noValue span).after c).Later later →
      later.namespaces.definition? home identity = some id

/-- A definition whose identity was taken when it was stored is never given. -/
theorem Reachable.withholds_taken {c' later : Compilation} (hc' : c'.Reachable) {home : NamespaceId}
    {d : Definition} {id kept : DefId} (hd : c'.definitions.get? id = some d) (hhome : d.home = home)
    (hkept : c'.namespaces.definition? home d.identity = some kept) (hne : id ≠ kept)
    (hlater : c'.Later later) (hfits : later.Fits) : later.Withholds id := by
  have hreach := hlater.reachable hc'
  have hgrows := hlater.grows hc'
  refine hreach.intact.withholds fun ⟨ns, n, identity, hn, hid⟩ => hne ?_
  obtain ⟨d', hd', rfl, rfl⟩ := hreach.filed hfits ns n hn identity id hid
  obtain rfl := Option.some.inj ((hgrows.definitions id d hd).symm.trans hd')
  have hlisted := hgrows.definition? hkept
  rw [← hhome, NamespaceTree.definition?_of_get? hn, hid] at hlisted
  exact Option.some.inj hlisted

theorem Admission.of_error {home : NamespaceId} {identity : Identity} {body : Content}
    {edges : List Inheritance} {noValue : NameSet} {span : Option Span} {e : Failure}
    {c' : Compilation}
    (hrun : (Compiling.addGroup identity body edges noValue span).run c = (.error e, c'))
    (hnot : ¬ (body.kind = identity.kind ∧ c.namespaces.definition? home identity = none))
    (hsame : c'.namespaces = c.namespaces ∧ c'.scopes = c.scopes ∧ c'.rules = c.rules ∧
      c'.config = c.config ∧ c'.fileScope = c.fileScope ∧
      ∀ id d, c'.definitions.get? id = some d → c.definitions.get? id = some d ∨
        ∀ later, c'.Later later → later.Fits → later.Withholds id) :
    c.Admission home identity body edges noValue span where
  decided := by
    refine ⟨fun ⟨id, hid⟩ => ?_, fun h => absurd h hnot⟩
    rw [Compiling.outcome, hrun] at hid
    cases hid
  bound hkind hfree := absurd ⟨hkind, hfree⟩ hnot
  refused _ _ c'' hc'' := by
    rw [Compiling.after, hrun] at hc''
    exact hc'' ▸ hsame
  registered id hid := by
    rw [Compiling.outcome, hrun] at hid
    cases hid

/-- A group of the right kind is registered just if its identity is free in the current namespace.
Otherwise it never is, and what is registered stays registered. -/
theorem Orderly.admission (h : c.Orderly) (identity : Identity) (body : Content)
    (edges : List Inheritance) (noValue : NameSet) (span : Option Span) :
    ∃ home, c.home = .ok home ∧ c.Admission home identity body edges noValue span := by
  have hc := h.reachable.intact
  obtain ⟨s, n, hhome, -, hn, hcases⟩ := h.settled.addGroup_cases hc identity body
  have hdefined := NamespaceTree.definition?_of_get? hn identity
  have hreach : ((Compiling.addGroup identity body edges noValue span).run c).2.Reachable :=
    h.reachable.step (.addGroup identity body edges noValue span)
  refine ⟨s.home, hhome, ?_⟩
  rcases hcases with hkind | ⟨kept, hkind, hd⟩ | ⟨scopes, hkind, hd, hbind⟩
  · refine .of_error (Compiling.run_addGroup_of_wrongKind edges noValue span hkind)
      (fun h => hkind h.1) ⟨rfl, rfl, rfl, rfl, rfl, fun id d hd => .inl hd⟩
  · have hrun := Compiling.run_addGroup_of_some edges noValue span hkind hhome hn hd
    rw [hrun] at hreach
    have hkept := hdefined.trans hd
    refine .of_error hrun (fun h => ?_) ⟨rfl, rfl, rfl, rfl, rfl, fun id d hstored => ?_⟩
    · cases hkept.symm.trans h.2
    · have hpushed := hstored
      rw [Arena.get?_push] at hpushed
      split at hpushed
      · rename_i hid
        obtain rfl := Option.some.inj hpushed
        have hold : c.definitions.Holds kept := (hc.namespaces _ n hn).definitions identity kept hd
        have hne : id ≠ kept := fun heq => Nat.ne_of_lt hold (heq ▸ hid)
        exact .inr fun later => hreach.withholds_taken hstored rfl hkept hne
      · exact .inl hpushed
  · have hrun := Compiling.run_addGroup_of_none edges noValue span hkind hhome hn hd hbind
    rw [hrun] at hreach
    have hout : (Compiling.addGroup identity body edges noValue span).outcome c =
        .ok c.definitions.nextId := congrArg Prod.fst hrun
    refine ⟨⟨fun _ => ⟨hkind, hdefined.trans hd⟩, fun _ => ⟨_, hout⟩⟩, fun _ _ => ⟨scopes, hbind⟩,
      fun e he => ?_, fun id hid => ?_⟩
    · cases hout.symm.trans he
    · obtain rfl := Except.ok.inj (hout.symm.trans hid)
      rw [Compiling.after, hrun]
      refine ⟨rfl, fun later hlater => (hlater.grows hreach).definition? ?_⟩
      rw [NamespaceTree.definition?_insertDefinition hn]
      exact if_pos ⟨rfl, rfl⟩

end Compilation

/-- A larder that is opened again, with one jar in it. -/
def larder : Compilation :=
  Operation.afterAll
    [.openNamespace "larder", .addGroup ⟨.custom, .style, "Jar"⟩ (.empty .style) [] .empty none,
      .closeNamespace, .openNamespace "larder"]
    (.initial .initial)

/-- In the second block a second jar is refused, and a lid is taken in. -/
theorem admission_larder : larder.Orderly ∧ larder.home = .ok ⟨1⟩ ∧
    larder.Admission ⟨1⟩ ⟨.custom, .style, "Jar"⟩ (.empty .style) [] .empty none ∧
    larder.Admission ⟨1⟩ ⟨.custom, .style, "Lid"⟩ (.empty .style) [] .empty none ∧
    larder.namespaces.definition? ⟨1⟩ ⟨.custom, .style, "Jar"⟩ = some ⟨0⟩ ∧
    larder.namespaces.definition? ⟨1⟩ ⟨.custom, .style, "Lid"⟩ = none := by
  have horderly : larder.Orderly := (Orderly.initial .initial).afterAll (by simp)
  have hhome : larder.home = .ok ⟨1⟩ := by rfl
  have hadmission (name : String) :
      larder.Admission ⟨1⟩ ⟨.custom, .style, name⟩ (.empty .style) [] .empty none := by
    obtain ⟨home, hhome', h⟩ :=
      horderly.admission ⟨.custom, .style, name⟩ (.empty .style) [] .empty none
    obtain rfl := Except.ok.inj (hhome.symm.trans hhome')
    exact h
  exact ⟨horderly, hhome, hadmission "Jar", hadmission "Lid", by decide +kernel, by decide +kernel⟩

end Stencil
