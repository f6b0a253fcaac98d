import Stencil.Proofs.Blocks

/-! # What an operation does to the scopes

An operation opens one scope, or teaches the current scope a name, or leaves scopes. So a scope keeps
its place, and what it knows is never taken back. Only the global scope is in no other one.
-/
namespace Stencil

open Compilation

/-! ## The place of a scope, and what it knows -/

namespace Scopes

variable {s s' : Scopes} {id p : ScopeId} {name : String} {m : Meaning}

/-- The scope around a scope. -/
def parent? (s : Scopes) (id : ScopeId) : Option ScopeId := (s.table.get? id).bind Scope.parent

/-- The scope around a scope and the namespace of its names, if it is in the table. -/
def place? (s : Scopes) (id : ScopeId) : Option (Option ScopeId × NamespaceId) :=
  (s.table.get? id).map fun x => (x.parent, x.home)

theorem parent?_eq (s : Scopes) (id : ScopeId) : s.parent? id = (s.place? id).bind Prod.fst := by
  rw [parent?, place?]
  cases s.table.get? id <;> rfl

theorem place?_of_get? {x : Scope} (hx : s.table.get? id = some x) :
    s.place? id = some (x.parent, x.home) := by
  rw [place?, hx]
  rfl

/-- The current scope has learned a name, or nothing has changed. -/
def Learns (s s' : Scopes) : Prop := s' = s ∨ ∃ name m, s.bind name m = .ok s'

namespace Learns

theorem refl (s : Scopes) : s.Learns s := .inl rfl

theorem current_eq (h : s.Learns s') : s'.current = s.current := by
  rcases h with rfl | ⟨name, m, h⟩
  · rfl
  · obtain ⟨x, -, -, rfl⟩ := bind_eq_ok h
    rfl

theorem size_eq (h : s.Learns s') : s'.table.size = s.table.size := by
  rcases h with rfl | ⟨name, m, h⟩
  · rfl
  · obtain ⟨x, -, -, rfl⟩ := bind_eq_ok h
    simp

theorem holds_current (h : s.Learns s') (hcurrent : s.table.Holds s.current) :
    s'.table.Holds s'.current := by
  rw [Arena.Holds, h.size_eq, h.current_eq]
  exact hcurrent

theorem place?_eq (h : s.Learns s') (id : ScopeId) : s'.place? id = s.place? id := by
  rcases h with rfl | ⟨name, m, h⟩
  · rfl
  · obtain ⟨x, -, -, rfl⟩ := bind_eq_ok h
    simp only [place?, Arena.get?_modify]
    split
    · cases s.table.get? id <;> rfl
    · rfl

theorem meaningIn (h : s.Learns s') (hm : s.meaningIn id name = some m) :
    s'.meaningIn id name = some m := by
  rcases h with rfl | ⟨bound, target, h⟩
  · exact hm
  · obtain ⟨x, hx, hnew, rfl⟩ := bind_eq_ok h
    obtain ⟨y, hy, hm⟩ := Option.bind_eq_some_iff.1 hm
    rw [Scopes.meaningIn, Arena.get?_modify]
    split
    · rename_i hid
      subst hid
      obtain rfl := Option.some.inj (hx.symm.trans hy)
      have hne : bound ≠ name := by
        rintro rfl
        cases hnew.symm.trans hm
      rw [hx, Option.map_some, Option.bind_some, OrderedMap.get?_insert, if_neg hne]
      exact hm
    · rw [hy]
      exact hm

theorem only_current (h : s.Learns s') (hm : s'.meaningIn id name = some m) :
    s.meaningIn id name = some m ∨ id = s.current := by
  rcases h with rfl | ⟨bound, target, h⟩
  · exact .inl hm
  · exact (meaningIn_bind h hm).imp_right And.left

end Learns

theorem place?_openIn (hcurrent : s.table.Holds s.current) (kind : BlockKind) (home : NamespaceId)
    (id : ScopeId) : (s.openIn kind home).place? id =
      if id.index = s.table.size then some (some s.current, home) else s.place? id := by
  simp only [place?, openIn, Arena.get?_modify, Arena.get?_push]
  by_cases hid : s.current = id
  · subst hid
    have hne : s.current.index ≠ s.table.size := Nat.ne_of_lt hcurrent
    simp [hne, Function.comp_def]
  · rw [if_neg hid]
    split <;> rfl

/-- A scope that is opened, knows nothing. -/
theorem meaningIn_openIn_eq (s : Scopes) (kind : BlockKind) (home : NamespaceId) (id : ScopeId)
    (name : String) : (s.openIn kind home).meaningIn id name = s.meaningIn id name := by
  have hnone (h : id.index = s.table.size) : s.table.get? id = none := by
    simp [Arena.get?, h, Arena.size]
  simp only [meaningIn, openIn, Arena.get?_modify, Arena.get?_push]
  by_cases hsize : id.index = s.table.size
  · rw [if_pos hsize, hnone hsize]
    split <;> rfl
  · rw [if_neg hsize]
    split
    · cases s.table.get? id <;> rfl
    · rfl

end Scopes

/-! ## What an operation does to the scopes -/

namespace Compiling

variable {α β : Type} {c : Compilation} {x : Compiling α} {f : α → Compiling β}

/-- The step teaches at most one name to the current scope, and does nothing else to the scopes. -/
def Teaches (x : Compiling α) : Prop := ∀ c : Compilation, c.scopes.Learns (x.after c).scopes

namespace Teaches

theorem spares_bind (hx : Spares Compilation.scopes x) (hf : ∀ a, Teaches (f a)) :
    Teaches (x >>= f) := by
  intro c
  rw [after, run_bind]
  cases x.outcome c with
  | error e => exact .inl (hx c)
  | ok a => exact hx c ▸ hf a (x.after c)

theorem bind_spares (hx : Teaches x) (hf : ∀ a, Spares Compilation.scopes (f a)) :
    Teaches (x >>= f) := by
  intro c
  rw [after, run_bind]
  cases x.outcome c with
  | error e => exact hx c
  | ok a => exact (hf a (x.after c)).symm ▸ hx c

theorem get_bind {g : Compilation → Compiling β} (h : ∀ c, Teaches (g c)) :
    Teaches ((get : Compiling Compilation) >>= g) := fun c => h c c

theorem recording (hx : Teaches x) (span : Option Span) : Teaches (recording span x) := by
  intro c
  rw [after, Compiling.recording, run_tryCatch]
  rcases x.outcome c with (e | f) | a <;> exact hx c

theorem bind (name : String) (m : Meaning) : Teaches (Compiling.bind name m) := by
  intro c
  rw [Compiling.bind, after_get_bind]
  change c.scopes.Learns (((liftM (c.scopes.bind name m) : Compiling Scopes) >>= _).after c).scopes
  rw [after, run_bind]
  cases hbind : c.scopes.bind name m with
  | error e => cases e <;> exact .inl rfl
  | ok scopes => exact .inr ⟨name, m, hbind⟩

theorem addGroup (identity : Identity) (body : Content) (edges : List Inheritance)
    (noValue : NameSet) (span : Option Span) : Teaches (addGroup identity body edges noValue span) := by
  have hrest (c : Compilation) : Teaches (do
      let home ← c.home
      let id ← store ⟨identity, home, c.scopes.current, edges, body, noValue, span⟩
      addDefinition home identity id
      Compiling.bind identity.render (.definition id)
      return id) := by
    refine spares_bind (.liftFault _) fun home => spares_bind (fun _ => rfl) fun id => ?_
    refine spares_bind (addDefinition_spares overlooks_scopes trivial identity id) fun _ => ?_
    exact bind_spares (bind identity.render _) fun _ => .pure _
  refine recording ?_ span
  split
  · exact spares_bind (.throw _) fun _ => get_bind hrest
  · exact get_bind hrest

end Teaches
end Compiling

/-- The operation opens a scope. -/
def Operation.Enters (op : Operation) (c : Compilation) : Prop :=
  match op with
  | openScope _ => True
  | openNamespacePath _ => True
  | openNamespace path => ∃ ns, (Compiling.openNamespace path).outcome c = .ok ns
  | openFile stem => c.config.noFileNamespace = false ∧ stem.isEmpty = false
  | _ => False

/-- The operation is there to leave scopes. -/
def Operation.Leaves : Operation → Prop
  | closeFile | closeNamespace | closeScope => True
  | _ => False

/-- The sort of the scope that the operation opens. -/
def Operation.blockKind : Operation → BlockKind
  | openScope kind => kind
  | _ => .namespaceBlock

/-- The scope of the file after an operation that opens a scope. -/
def Operation.fileScope (op : Operation) (c : Compilation) : Option ScopeId :=
  match op with
  | openFile _ => some c.scopes.table.nextId
  | _ => c.fileScope

namespace Compilation

variable {c c' : Compilation}

/-- The current scope may have learned a name, and then a scope was opened inside it. Its namespace is
inside that of the current scope, unless it is the namespace of a file. -/
def Entered (c : Compilation) (op : Operation) (c' : Compilation) : Prop :=
  ∃ scopes home, c.scopes.Learns scopes ∧ c'.scopes = scopes.openIn op.blockKind home ∧
    c'.fileScope = op.fileScope c ∧ ∃ a path, c'.namespaces.Leads a path home ∧
      (c.home = .ok a ∨ a = .root ∧ ∃ stem, op = .openFile stem)

theorem learns_of_openNamespace {scopes : Scopes} {path : List String}
    (h : scopes = c.scopes ∨ ∃ first head, path.head? = some first ∧
      c.scopes.bind first (.space head) = .ok scopes) : c.scopes.Learns scopes :=
  h.imp_right fun ⟨first, head, _, hbind⟩ => ⟨first, .space head, hbind⟩

theorem entered (hc : c.Intact) {op : Operation} (h : op.Enters c) : c.Entered op (op.after c) := by
  cases op with
  | openScope kind =>
    obtain ⟨home, hhome, -⟩ := hc.finds_home
    have hopen : c.scopes.openBlock kind = .ok (c.scopes.openIn kind home) := by
      rw [Scopes.openBlock, show c.scopes.homeOf c.scopes.current = .ok home from hhome]
      rfl
    have hrun : (Compiling.openScope kind).after c =
        { c with scopes := c.scopes.openIn kind home } := by
      change (((liftM (c.scopes.openBlock kind) : Compiling Scopes) >>= _).after c) = _
      rw [Compiling.after_liftFault_bind, hopen]
      rfl
    rw [Operation.after, hrun]
    exact ⟨c.scopes, home, .refl _, rfl, rfl, home, [], NamespaceTree.leads_nil.2 rfl, .inl hhome⟩
  | openNamespacePath path =>
    obtain ⟨home, ns, t, scopes, hhome, hopen, hscopes, hrun⟩ :=
      Compiling.run_openNamespacePath hc path
    rw [Operation.after, Compiling.after, hrun]
    exact ⟨scopes, ns, learns_of_openNamespace hscopes, rfl, rfl, home, path,
      (NamespaceTree.opens_of_openAt hopen).1.leads, .inl hhome⟩
  | openNamespace path =>
    obtain ⟨ns, hns⟩ := h
    cases hparse : Name.parseDotted (Text.trim path.toList) with
    | error e =>
      rw [Compiling.outcome, Compiling.run_openNamespace_of_error hparse] at hns
      cases hns
    | ok segments =>
      obtain ⟨home, ns, t, scopes, hhome, hopen, hscopes, hrun⟩ :=
        Compiling.run_openNamespace hc hparse
      rw [Operation.after, Compiling.after, hrun]
      exact ⟨scopes, ns, learns_of_openNamespace hscopes, rfl, rfl, home, segments,
        (NamespaceTree.opens_of_openAt hopen).1.leads, .inl hhome⟩
  | openFile stem =>
    obtain ⟨⟨ns, t⟩, hopen, -⟩ := hc.finds_openAt [stem] false hc.root
    obtain ⟨hconfig, hstem⟩ := h
    have hrun : (Compiling.openFile stem).after c = { c with
        namespaces := t, scopes := c.scopes.openIn .namespaceBlock ns
        fileScope := some c.scopes.table.nextId } := by
      change ((if _ then _ else _ : Compiling Unit).after c) = _
      rw [if_neg (by simp [hconfig, hstem]), Compiling.after_liftFault_bind, hopen]
      rfl
    rw [Operation.after, hrun]
    exact ⟨c.scopes, ns, .refl _, rfl, rfl, .root, [stem],
      (NamespaceTree.opens_of_openAt hopen).1.leads, .inr ⟨rfl, stem, rfl⟩⟩
  | _ => exact h.elim

/-- The current scope may have learned a name, or it and some of those around it were left. -/
def Stayed (c : Compilation) (op : Operation) (c' : Compilation) : Prop :=
  (op = .closeFile ∧ c'.fileScope = none ∨ c'.fileScope = c.fileScope) ∧
    (c.scopes.Learns c'.scopes ∨
      ∃ p ∈ c.scopes.outward c.scopes.current, c'.scopes = { c.scopes with current := p })

theorem Stayed.refl (c : Compilation) (op : Operation) : c.Stayed op c := ⟨.inr rfl, .inl (.refl _)⟩

theorem stayed_of_close (hc : c.Intact) (op : Operation) {α : Type} (a : α) :
    c.Stayed op (((liftM c.scopes.close : Compiling Scopes) >>= fun scopes =>
      (MonadStateOf.set { c with scopes := scopes } : Compiling PUnit) >>= fun _ =>
        (pure a : Compiling α)).after c) := by
  rw [Compiling.after_liftFault_bind]
  rcases Compiling.close_cases hc with herror | ⟨p, hp, hclose⟩
  · rw [herror]
    exact .refl c op
  · rw [hclose]
    exact ⟨.inr rfl, .inr ⟨p, hp, rfl⟩⟩

theorem stayed_of_closeNamespace (hc : c.Intact) :
    c.Stayed .closeNamespace (Compiling.closeNamespace.after c) := by
  change c.Stayed _ (((liftM (c.scopes.find c.scopes.current) : Compiling Scope) >>= _).after c)
  rw [Compiling.after_liftFault_bind]
  split
  · rename_i s _
    change c.Stayed _ ((if s.kind = .namespaceBlock ∧ _ then _ else _ : Compiling Unit).after c)
    split
    · exact stayed_of_close hc _ ()
    · exact .refl c _
  · exact .refl c _

theorem stayed_of_closeFile : c.Stayed .closeFile (Compiling.closeFile.after c) := by
  rw [Compiling.closeFile, Compiling.after_get_bind]
  cases c.fileScope with
  | none => exact .refl c _
  | some opened =>
    obtain ⟨p, hp, heq, -⟩ := Compiling.closeThrough_cases c.scopes opened
    dsimp only
    generalize c.scopes.closeThrough opened = closed at heq ⊢
    obtain ⟨scopes, fault⟩ := closed
    change c.Stayed _ (((MonadStateOf.set { c with scopes := scopes, fileScope := none } :
      Compiling PUnit) >>= _).after c)
    rw [Compiling.after_set_bind]
    cases fault <;> exact ⟨.inl ⟨rfl, rfl⟩, .inr ⟨p, hp, heq⟩⟩

/-- Which scopes there are, which of them is current and which is that of the file. -/
def scoping (c : Compilation) : Scopes × Option ScopeId := (c.scopes, c.fileScope)

theorem overlooks_scoping : Overlooks scoping fun _ => True where
  session _ _ := rfl
  rules _ _ := rfl
  definitions _ _ := rfl
  registered _ _ _ _ _ _ _ := rfl
  aliased _ _ _ _ _ _ _ := rfl

theorem overlooks_fileScope : Overlooks Compilation.fileScope fun _ => True where
  session _ _ := rfl
  rules _ _ := rfl
  definitions _ _ := rfl
  registered _ _ _ _ _ _ _ := rfl
  aliased _ _ _ _ _ _ _ := rfl

theorem mount_scoping (other : Compilation) (path : List String) (c : Compilation) :
    ((Compiling.mount other path).after c).scoping = c.scoping :=
  Compiling.spares_mount overlooks_scoping (fun _ _ => rfl) other path c

/-- An operation that neither opens a scope nor leaves one, teaches the current scope a name at most. -/
theorem learned (hc : c.Intact) {op : Operation} (henters : ¬ op.Enters c) (hleaves : ¬ op.Leaves) :
    (op.after c).fileScope = c.fileScope ∧ c.scopes.Learns (op.after c).scopes := by
  have hview := overlooks_scoping
  have hspares {α : Type} {x : Compiling α} (hx : Compiling.Spares scoping x) :
      (x.after c).fileScope = c.fileScope ∧ c.scopes.Learns (x.after c).scopes := by
    obtain ⟨hscopes, hfile⟩ := Prod.mk.inj (hx c)
    exact ⟨hfile, .inl hscopes⟩
  cases op with
  | openScope kind => exact absurd trivial henters
  | openNamespacePath path => exact absurd trivial henters
  | openNamespace path =>
    rw [Operation.after, Compiling.after]
    cases hparse : Name.parseDotted (Text.trim path.toList) with
    | error e =>
      rw [Compiling.run_openNamespace_of_error hparse]
      exact ⟨rfl, .refl _⟩
    | ok segments =>
      obtain ⟨home, ns, t, scopes, -, -, -, hrun⟩ := Compiling.run_openNamespace hc hparse
      exact absurd ⟨ns, congrArg Prod.fst hrun⟩ henters
  | openFile stem =>
    have hskip : (c.config.noFileNamespace || stem.isEmpty) = true := by
      by_contra hopens
      simp only [Bool.or_eq_true, not_or, Bool.not_eq_true] at hopens
      exact henters hopens
    have hrun : (Operation.openFile stem).after c = c := by
      change (if _ then _ else _ : Compiling Unit).after c = c
      rw [if_pos hskip]
      rfl
    rw [hrun]
    exact ⟨rfl, .refl _⟩
  | closeFile => exact absurd trivial hleaves
  | closeNamespace => exact absurd trivial hleaves
  | closeScope => exact absurd trivial hleaves
  | addGroup identity body edges noValue span =>
    refine ⟨?_, Compiling.Teaches.addGroup identity body edges noValue span c⟩
    exact Compiling.addGroup_spares overlooks_fileScope (fun _ _ => rfl) identity body edges noValue
      span c
  | addRule denial reach span => exact hspares (Compiling.addRule_spares hview denial reach span)
  | addClause clause reach span =>
    exact hspares (Compiling.addClause_spares hview clause reach span)
  | nameDefinition name target span =>
    exact hspares (Compiling.nameDefinition_spares hview name target span)
  | nameNamespace name path span =>
    exact hspares (Compiling.nameNamespace_spares hview name path span)
  | setConfig config => exact ⟨rfl, .refl _⟩
  | drainDiagnostics => exact ⟨rfl, .refl _⟩
  | request r =>
    obtain ⟨s, hs, -⟩ := r.after_resolves kept_kinded c
    rw [Operation.after, hs]
    exact ⟨rfl, .refl _⟩

theorem stayed (hc : c.Intact) {op : Operation} (h : ¬ op.Enters c) : c.Stayed op (op.after c) := by
  by_cases hleaves : op.Leaves
  · cases op with
    | closeFile => exact stayed_of_closeFile
    | closeNamespace => exact stayed_of_closeNamespace hc
    | closeScope => exact stayed_of_close hc _ _
    | _ => exact hleaves.elim
  · obtain ⟨hfile, hlearns⟩ := learned hc h hleaves
    exact ⟨.inr hfile, .inl hlearns⟩

end Compilation

/-! ## The way outwards -/

namespace Scopes

variable {s s' : Scopes} {id p : ScopeId} {name : String} {m : Meaning}

theorem exists_place? (h : s.table.Holds id) : ∃ parent home, s.place? id = some (parent, home) := by
  obtain ⟨x, hx⟩ := h.exists_get?
  exact ⟨x.parent, x.home, place?_of_get? hx⟩

theorem holds_of_place? {place : Option ScopeId × NamespaceId} (h : s.place? id = some place) :
    s.table.Holds id := by
  obtain ⟨x, hx, -⟩ := Option.map_eq_some_iff.1 h
  exact Arena.holds_of_get? hx

theorem homeOf_of_place? {parent : Option ScopeId} {home : NamespaceId}
    (h : s.place? id = some (parent, home)) : s.homeOf id = .ok home := by
  obtain ⟨x, hx, heq⟩ := Option.map_eq_some_iff.1 h
  rw [homeOf, find, Arena.find_of_get? hx]
  exact congrArg (fun place => Except.ok place.2) heq

theorem outward_of_parent? (h : s.parent? id = some p) (hlt : p.index < id.index) :
    s.outward id = id :: s.outward p := by
  rw [outward, show (s.table.get? id).bind Scope.parent = some p from h]
  simp [hlt]

/-- What is left of the way outwards from one of its scopes on, is the way from there. -/
theorem dropWhile_outward (h : p ∈ s.outward id) :
    (s.outward id).dropWhile (fun x => decide (x ≠ p)) = s.outward p := by
  fun_induction s.outward id with
  | case1 id hnone =>
    obtain rfl := List.mem_singleton.1 h
    rw [outward, hnone]
    simp
  | case2 id q hsome hlt ih =>
    rcases List.mem_cons.1 h with rfl | h
    · rw [outward_of_parent? hsome hlt]
      simp
    · have hle : p.index ≤ q.index := by
        rw [outward_eq] at h
        exact Arena.index_le_of_mem_chain h
      have hne : id ≠ p := by
        rintro rfl
        omega
      rw [List.dropWhile_cons_of_pos (by simpa using hne), ih h]
  | case3 id q hsome hlt =>
    obtain rfl := List.mem_singleton.1 h
    rw [outward, hsome]
    simp [hlt]

theorem exists_outward_eq_cons (s : Scopes) (id : ScopeId) : ∃ rest, s.outward id = id :: rest := by
  rw [outward]
  split
  · exact ⟨[], rfl⟩
  · split
    · exact ⟨_, rfl⟩
    · exact ⟨[], rfl⟩

/-- Leaving an open scope, and all that is still open inside it, goes to the scope around it. -/
theorem closeThrough_of_mem (h : id ∈ s.outward s.current) (hp : s.parent? id = some p)
    (hlt : p.index < id.index) : s.closeThrough id = ({ s with current := p }, none) := by
  obtain ⟨rest, hrest⟩ := s.exists_outward_eq_cons p
  rw [closeThrough, dropWhile_outward h, outward_of_parent? hp hlt, hrest]

theorem meaningFrom_of_holds (h : s.table.Holds id) (name : String) :
    s.meaningFrom id name = .ok ((s.outward id).findSome? fun id => s.meaningIn id name) := by
  obtain ⟨ids, hids, rfl⟩ := finds_outwardFrom h
  rw [meaningFrom, hids]
  rfl

/-- Only the global scope is in no other one. It belongs to the root namespace. -/
structure Seated (s : Scopes) : Prop where
  global : s.place? .global = some (none, .root)
  inner : ∀ id home, s.place? id = some (none, home) → id = .global
  older : ∀ id p home, s.place? id = some (some p, home) → p.index < id.index

theorem initial_seated : initial.Seated := by
  have hplace : ∀ id place, initial.place? id = some place → id = .global ∧ place = (none, .root) := by
    rintro ⟨i⟩ place hplace
    obtain ⟨x, hx, rfl⟩ := Option.map_eq_some_iff.1 hplace
    obtain rfl : i = 0 := Nat.lt_one_iff.1 (Arena.lt_size_of_get? hx)
    obtain rfl := Option.some.inj hx
    exact ⟨rfl, rfl⟩
  exact ⟨rfl, fun id home h => (hplace id _ h).1, fun id p home h => by cases (hplace id _ h).2⟩

namespace Seated

theorem of_place? (h : s.Seated) (hplace : ∀ id, s'.place? id = s.place? id) : s'.Seated where
  global := hplace _ ▸ h.global
  inner id home hid := h.inner id home (hplace id ▸ hid)
  older id p home hid := h.older id p home (hplace id ▸ hid)

theorem openIn (h : s.Seated) (hcurrent : s.table.Holds s.current) (kind : BlockKind)
    (home : NamespaceId) : (s.openIn kind home).Seated where
  global := by
    have hne : ScopeId.global.index ≠ s.table.size :=
      Nat.ne_of_lt (holds_of_place? h.global)
    rw [place?_openIn hcurrent, if_neg hne]
    exact h.global
  inner id home' hid := by
    rw [place?_openIn hcurrent] at hid
    split at hid
    · cases hid
    · exact h.inner id home' hid
  older id p home' hid := by
    rw [place?_openIn hcurrent] at hid
    split at hid
    · rename_i hnew
      cases hid
      exact hnew ▸ hcurrent
    · exact h.older id p home' hid

theorem lt_of_parent? (h : s.Seated) (hp : s.parent? id = some p) : p.index < id.index := by
  rw [parent?_eq] at hp
  obtain ⟨⟨parent, home⟩, hplace, hparent⟩ := Option.bind_eq_some_iff.1 hp
  obtain rfl : parent = some p := hparent
  exact h.older id p home hplace

theorem outward_global (h : s.Seated) : s.outward .global = [.global] := by
  have hnone : s.parent? .global = none := by
    rw [parent?_eq, h.global]
    rfl
  rw [outward, show (s.table.get? ScopeId.global).bind Scope.parent = none from hnone]

/-- From a scope outwards, each one is in the next one, which is older, and the last is the global
one. -/
theorem outward_chain (h : s.Seated) (hid : s.table.Holds id) :
    (s.outward id).head? = some id ∧
      (s.outward id).IsChain (fun x y => s.parent? x = some y ∧ y.index < x.index) ∧
      (s.outward id).getLast? = some .global := by
  fun_induction s.outward id with
  | case1 id hnone =>
    obtain ⟨parent, home, hplace⟩ := exists_place? hid
    have hparent : s.parent? id = none := hnone
    rw [parent?_eq, hplace] at hparent
    obtain rfl : parent = none := hparent
    obtain rfl := h.inner id home hplace
    simp
  | case2 id p hsome hlt ih =>
    obtain ⟨hhead, hchain, hlast⟩ := ih (Nat.lt_trans hlt hid)
    obtain ⟨rest, hrest⟩ := List.head?_eq_some_iff.1 hhead
    rw [hrest] at hchain hlast ⊢
    exact ⟨rfl, hchain.cons_cons ⟨hsome, hlt⟩, hlast⟩
  | case3 id p hsome hlt => exact absurd (h.lt_of_parent? hsome) hlt

/-- Each scope on the way outwards is older than those before it. -/
theorem pairwise_outward (h : s.Seated) (hid : s.table.Holds id) :
    (s.outward id).Pairwise fun x y => y.index < x.index := by
  obtain ⟨-, hchain, -⟩ := h.outward_chain hid
  have : IsTrans ScopeId fun x y => y.index < x.index := ⟨fun _ _ _ hxy hyz => hyz.trans hxy⟩
  exact List.isChain_iff_pairwise.1 (hchain.imp fun _ _ => And.right)

end Seated

end Scopes

namespace Compilation

variable {c c' : Compilation} {id p s : ScopeId}

/-- Scopes keep their places, and one that is entered is in the current one. -/
theorem place?_after (hc : c.Intact) (op : Operation) :
    (∀ id, (op.after c).scopes.place? id = c.scopes.place? id) ∨
      op.Enters c ∧ ∃ home, (∀ id, (op.after c).scopes.place? id =
          if id.index = c.scopes.table.size then some (some c.scopes.current, home)
          else c.scopes.place? id) ∧
        ∃ a path, (op.after c).namespaces.Leads a path home ∧
          (c.home = .ok a ∨ a = .root ∧ ∃ stem, op = .openFile stem) := by
  by_cases h : op.Enters c
  · obtain ⟨scopes, home, hlearns, heq, -, hhome⟩ := entered hc h
    refine .inr ⟨h, home, fun id => ?_, hhome⟩
    rw [heq, Scopes.place?_openIn (hlearns.holds_current hc.current), hlearns.size_eq,
      hlearns.current_eq, hlearns.place?_eq]
  · refine .inl fun id => ?_
    rcases (stayed hc h).2 with hlearns | ⟨p, -, heq⟩
    · exact hlearns.place?_eq id
    · rw [heq]
      rfl

/-- The scope that is entered is a new one, inside the one that was current. -/
theorem opened (hc : c.Intact) {op : Operation} (h : op.Enters c)
    (hroom : (op.after c).scopes.table.size ≤ idLimit) :
    (op.after c).scopes.current = ⟨c.scopes.table.size⟩ ∧
      c.scopes.table.nextId = ⟨c.scopes.table.size⟩ ∧ ∃ home,
      (op.after c).scopes.table.get? (op.after c).scopes.current =
        some ⟨op.blockKind, some c.scopes.current, home, [], .empty⟩ := by
  obtain ⟨scopes, home, hlearns, heq, -, -⟩ := entered hc h
  rw [heq] at hroom ⊢
  have hsize : scopes.table.size + 1 ≤ idLimit := by
    simpa [Scopes.openIn] using hroom
  refine ⟨?_, ?_, home, ?_⟩
  · rw [← hlearns.size_eq]
    exact Id.ofIndex_of_lt hsize
  · exact Id.ofIndex_of_lt (hlearns.size_eq ▸ hsize)
  · rw [Scopes.get?_current_openIn (hlearns.holds_current hc.current) hroom, hlearns.current_eq]

theorem size_opened (hc : c.Intact) {op : Operation} (h : op.Enters c) :
    (op.after c).scopes.table.size = c.scopes.table.size + 1 := by
  obtain ⟨scopes, home, hlearns, heq, -⟩ := entered hc h
  rw [heq, ← hlearns.size_eq]
  simp [Scopes.openIn]

/-- What scopes know after an operation, they know once the current one may have learned a name. -/
theorem learns_after (hc : c.Intact) (op : Operation) : ∃ scopes, c.scopes.Learns scopes ∧
    ∀ id name, (op.after c).scopes.meaningIn id name = scopes.meaningIn id name := by
  by_cases h : op.Enters c
  · obtain ⟨scopes, home, hlearns, heq, -, -⟩ := entered hc h
    exact ⟨scopes, hlearns, fun id name => heq ▸ scopes.meaningIn_openIn_eq _ _ id name⟩
  · rcases (stayed hc h).2 with hlearns | ⟨p, -, heq⟩
    · exact ⟨_, hlearns, fun _ _ => rfl⟩
    · exact ⟨c.scopes, .refl _, fun _ _ => heq ▸ rfl⟩

theorem Reachable.seated (h : c.Reachable) : c.scopes.Seated := by
  induction h with
  | initial config => exact Scopes.initial_seated
  | @step c op hc ih =>
    have hcurrent := hc.intact.current
    rcases place?_after hc.intact op with hsame | ⟨-, home, hplace, -⟩
    · exact ih.of_place? hsame
    · refine (ih.openIn hcurrent .global home).of_place? fun id => ?_
      rw [hplace, Scopes.place?_openIn hcurrent]
  | mount path _ _ ih _ =>
    refine ih.of_place? fun id => ?_
    rw [show _ = _ from Compiling.mount_spares _ path _]

end Compilation
end Stencil
