import Stencil.Proofs.Lookup

/-! # What a step can do

All that is done to a compilation is done by a few small updates: a table gets one more entry, an
entry that is there gets one more name, or what is current changes. Nothing that is stored is taken
away or overwritten, so every invariant has to be shown for the updates only.
-/
namespace Stencil

namespace NamespaceTree

/-- The tree with one more namespace, inside `id`. -/
def addChild (t : NamespaceTree) (id : NamespaceId) (name : String) : NamespaceTree :=
  let grown : NamespaceTree := ⟨t.table.push (.fresh name (some id))⟩
  grown.modify id fun n => { n with children := n.children.insert name t.table.nextId }

def insertAlias (t : NamespaceTree) (id : NamespaceId) (name : String) (m : Meaning) :
    NamespaceTree :=
  t.modify id fun n => { n with aliases := n.aliases.insert name m }

def insertDefinition (t : NamespaceTree) (id : NamespaceId) (identity : Identity) (d : DefId) :
    NamespaceTree :=
  t.modify id fun n => { n with definitions := n.definitions.insert identity d }

def setExplicit (t : NamespaceTree) (id : NamespaceId) : NamespaceTree :=
  t.modify id fun n => { n with explicit := true }

@[simp] theorem size_addChild (t : NamespaceTree) (id : NamespaceId) (name : String) :
    (t.addChild id name).table.size = t.table.size + 1 := by
  simp [addChild, modify]

/-- The definition is registered in some namespace. -/
def Lists (t : NamespaceTree) (id : DefId) : Prop :=
  ∃ ns n identity, t.table.get? ns = some n ∧ n.definitions.get? identity = some id

end NamespaceTree

namespace Compilation

/-- One update. What it brings in points into the tables. -/
inductive Update (c : Compilation) : Compilation → Prop
  | session (s : Session) : Update c { c with session := s }
  | config (config : Config) : Update c { c with config := config }
  | fileScope (opened : Option ScopeId) (h : ∀ s, opened = some s → c.scopes.table.Holds s) :
    Update c { c with fileScope := opened }
  | rule (r : Rule) (h : r.site.Within c.scopes.table.size c.namespaces.table.size) :
    Update c { c with rules := c.rules ++ [r] }
  | openScope (kind : BlockKind) (home : NamespaceId) (h : c.namespaces.table.Holds home) :
    Update c { c with scopes := c.scopes.openIn kind home }
  | goTo (s : ScopeId) (h : s ∈ c.scopes.outward c.scopes.current) :
    Update c { c with scopes := { c.scopes with current := s } }
  | bind (scopes : Scopes) {name : String} {m : Meaning}
    (hm : m.Within c.namespaces.table.size c.definitions.size)
    (h : c.scopes.bind name m = .ok scopes) : Update c { c with scopes := scopes }
  | child {ns : NamespaceId} {n : Namespace} (name : String)
    (hn : c.namespaces.table.get? ns = some n) (hnew : n.children.get? name = none) :
    Update c { c with namespaces := c.namespaces.addChild ns name }
  | explicit (ns : NamespaceId) : Update c { c with namespaces := c.namespaces.setExplicit ns }
  | aliased {ns : NamespaceId} {n : Namespace} {name : String} {m : Meaning}
    (hn : c.namespaces.table.get? ns = some n) (hnew : n.aliases.get? name = none)
    (hm : m.Within c.namespaces.table.size c.definitions.size)
    (hlisted : ∀ id, m = .definition id → c.namespaces.Lists id) :
    Update c { c with namespaces := c.namespaces.insertAlias ns name m }
  | store (d : Definition) (hhome : c.namespaces.table.Holds d.home)
    (hscope : c.scopes.table.Holds d.scope) (hkind : d.body.kind = d.kind) :
    Update c { c with definitions := c.definitions.push d }
  | register {ns : NamespaceId} {n : Namespace} {identity : Identity} {id : DefId}
    (hn : c.namespaces.table.get? ns = some n) (hnew : n.definitions.get? identity = none)
    (hid : c.definitions.Holds id)
    (hstored : c.Fits → ∃ d, c.definitions.get? id = some d ∧ d.identity = identity ∧ d.home = ns) :
    Update c { c with namespaces := c.namespaces.insertDefinition ns identity id }

/-- One update after another. -/
inductive Updates (c : Compilation) : Compilation → Prop
  | refl : Updates c c
  | tail {c' c'' : Compilation} (h : Updates c c') (hlast : c'.Update c'') : Updates c c''

namespace Updates

variable {c c' c'' : Compilation}

theorem single (h : c.Update c') : c.Updates c' := .tail .refl h

theorem trans (h : c.Updates c') (h' : c'.Updates c'') : c.Updates c'' := by
  induction h' with
  | refl => exact h
  | tail _ hlast ih => exact ih.tail hlast

end Updates

end Compilation

/-! ## What is there stays -/

/-- Every entry of the first map is in the second. -/
def OrderedMap.Sub {α β : Type} [DecidableEq α] (m m' : OrderedMap α β) : Prop :=
  ∀ k v, m.get? k = some v → m'.get? k = some v

theorem OrderedMap.sub_insert {α β : Type} [DecidableEq α] {m : OrderedMap α β} {k : α} (v : β)
    (h : m.get? k = none) : m.Sub (m.insert k v) := by
  intro k' v' hv'
  rw [get?_insert]
  split
  · rename_i hk
    rw [← hk, h] at hv'
    cases hv'
  · exact hv'

/-- The namespace has the same place in the tree, and what was in it is still there. -/
structure Namespace.Grows (n n' : Namespace) : Prop where
  name : n'.name = n.name
  parent : n'.parent = n.parent
  explicit : n.explicit = true → n'.explicit = true
  children : n.children.Sub n'.children
  definitions : n.definitions.Sub n'.definitions
  aliases : n.aliases.Sub n'.aliases

namespace Namespace.Grows

variable {n n' n'' : Namespace}

theorem refl (n : Namespace) : n.Grows n :=
  ⟨rfl, rfl, id, fun _ _ => id, fun _ _ => id, fun _ _ => id⟩

theorem trans (h : n.Grows n') (h' : n'.Grows n'') : n.Grows n'' where
  name := h'.name.trans h.name
  parent := h'.parent.trans h.parent
  explicit := h'.explicit ∘ h.explicit
  children k v := h'.children k v ∘ h.children k v
  definitions k v := h'.definitions k v ∘ h.definitions k v
  aliases k v := h'.aliases k v ∘ h.aliases k v

end Namespace.Grows

namespace Compilation

/-- All that is stored in `c` is stored in `c'` under the same ids. -/
structure Grows (c c' : Compilation) : Prop where
  definitions : ∀ id d, c.definitions.get? id = some d → c'.definitions.get? id = some d
  namespaces : ∀ id n, c.namespaces.table.get? id = some n →
    ∃ n', c'.namespaces.table.get? id = some n' ∧ n.Grows n'
  scopes : ∀ id s, c.scopes.table.get? id = some s →
    ∃ s', c'.scopes.table.get? id = some s' ∧ s'.kind = s.kind ∧ s'.parent = s.parent ∧
      s'.home = s.home
  rules : c.rules <+: c'.rules

variable {c c' c'' : Compilation}

namespace Grows

theorem refl (c : Compilation) : c.Grows c where
  definitions _ _ h := h
  namespaces _ n h := ⟨n, h, .refl n⟩
  scopes _ s h := ⟨s, h, rfl, rfl, rfl⟩
  rules := List.prefix_rfl

theorem trans (h : c.Grows c') (h' : c'.Grows c'') : c.Grows c'' where
  definitions id d hd := h'.definitions id d (h.definitions id d hd)
  namespaces id n hn := by
    obtain ⟨n', hn', hgrows⟩ := h.namespaces id n hn
    obtain ⟨n'', hn'', hgrows'⟩ := h'.namespaces id n' hn'
    exact ⟨n'', hn'', hgrows.trans hgrows'⟩
  scopes id s hs := by
    obtain ⟨s', hs', hkind, hparent, hhome⟩ := h.scopes id s hs
    obtain ⟨s'', hs'', hkind', hparent', hhome'⟩ := h'.scopes id s' hs'
    exact ⟨s'', hs'', hkind'.trans hkind, hparent'.trans hparent, hhome'.trans hhome⟩
  rules := h.rules.trans h'.rules

theorem holds_namespace (h : c.Grows c') {id : NamespaceId} (hid : c.namespaces.table.Holds id) :
    c'.namespaces.table.Holds id := by
  obtain ⟨n, hn⟩ := hid.exists_get?
  obtain ⟨n', hn', -⟩ := h.namespaces id n hn
  exact Arena.holds_of_get? hn'

theorem holds_definition (h : c.Grows c') {id : DefId} (hid : c.definitions.Holds id) :
    c'.definitions.Holds id := by
  obtain ⟨d, hd⟩ := hid.exists_get?
  exact Arena.holds_of_get? (h.definitions id d hd)

theorem holds_scope (h : c.Grows c') {id : ScopeId} (hid : c.scopes.table.Holds id) :
    c'.scopes.table.Holds id := by
  obtain ⟨s, hs⟩ := hid.exists_get?
  obtain ⟨s', hs', -⟩ := h.scopes id s hs
  exact Arena.holds_of_get? hs'

theorem namespaces_le (h : c.Grows c') : c.namespaces.table.size ≤ c'.namespaces.table.size :=
  Arena.size_le_of_holds fun _ => h.holds_namespace

theorem definitions_le (h : c.Grows c') : c.definitions.size ≤ c'.definitions.size :=
  Arena.size_le_of_holds fun _ => h.holds_definition

theorem scopes_le (h : c.Grows c') : c.scopes.table.size ≤ c'.scopes.table.size :=
  Arena.size_le_of_holds fun _ => h.holds_scope

theorem lists (h : c.Grows c') {id : DefId} (hid : c.namespaces.Lists id) :
    c'.namespaces.Lists id := by
  obtain ⟨ns, n, identity, hn, hget⟩ := hid
  obtain ⟨n', hn', hgrows⟩ := h.namespaces ns n hn
  exact ⟨ns, n', identity, hn', hgrows.definitions identity id hget⟩

theorem fits (h : c.Grows c') (hfits : c'.Fits) : c.Fits where
  namespaces := Nat.le_trans h.namespaces_le hfits.namespaces
  definitions := Nat.le_trans h.definitions_le hfits.definitions

/-- Nothing but one namespace has changed, and that has grown. -/
theorem of_modify {id : NamespaceId} {f : Namespace → Namespace}
    (hf : ∀ n, c.namespaces.table.get? id = some n → n.Grows (f n)) :
    c.Grows { c with namespaces := c.namespaces.modify id f } where
  definitions _ _ h := h
  namespaces id' n hn := by
    change ∃ n', (c.namespaces.table.modify id f).get? id' = some n' ∧ n.Grows n'
    rw [Arena.get?_modify]
    split
    · rename_i hid
      subst hid
      exact ⟨f n, by rw [hn]; rfl, hf n hn⟩
    · exact ⟨n, hn, .refl n⟩
  scopes _ s h := ⟨s, h, rfl, rfl, rfl⟩
  rules := List.prefix_rfl

theorem of_pushNamespace (n : Namespace) :
    c.Grows { c with namespaces := ⟨c.namespaces.table.push n⟩ } where
  definitions _ _ h := h
  namespaces id n' hn' := by
    refine ⟨n', ?_, .refl n'⟩
    change (c.namespaces.table.push n).get? id = some n'
    rw [Arena.get?_push, if_neg (Nat.ne_of_lt (Arena.lt_size_of_get? hn'))]
    exact hn'
  scopes _ s h := ⟨s, h, rfl, rfl, rfl⟩
  rules := List.prefix_rfl

theorem of_pushDefinition (d : Definition) :
    c.Grows { c with definitions := c.definitions.push d } where
  definitions id d' hd' := by
    change (c.definitions.push d).get? id = some d'
    rw [Arena.get?_push, if_neg (Nat.ne_of_lt (Arena.lt_size_of_get? hd'))]
    exact hd'
  namespaces _ n h := ⟨n, h, .refl n⟩
  scopes _ s h := ⟨s, h, rfl, rfl, rfl⟩
  rules := List.prefix_rfl

end Grows
end Compilation

theorem Scopes.get?_openIn {s : Scopes} {id : ScopeId} {x : Scope} (kind : BlockKind)
    (home : NamespaceId) (h : s.table.get? id = some x) :
    ∃ x', (s.openIn kind home).table.get? id = some x' ∧ x'.kind = x.kind ∧
      x'.parent = x.parent ∧ x'.home = x.home := by
  have hne : id.index ≠ s.table.size := Nat.ne_of_lt (Arena.lt_size_of_get? h)
  simp only [openIn, Arena.get?_modify, Arena.get?_push, if_neg hne, h]
  split <;> exact ⟨_, rfl, rfl, rfl, rfl⟩

/-- A name is bound in the current scope alone. -/
theorem Scopes.bind_eq_ok {s s' : Scopes} {name : String} {m : Meaning}
    (h : s.bind name m = .ok s') :
    ∃ x, s.table.get? s.current = some x ∧ x.meanings.get? name = none ∧
      s' = { s with table := s.table.modify s.current fun x =>
        { x with meanings := x.meanings.insert name m } } := by
  unfold Scopes.bind Scopes.find Arena.find at h
  cases hx : s.table.get? s.current with
  | none => rw [hx] at h; cases h
  | some x =>
    rw [hx] at h
    change (if _ then _ else _) = _ at h
    split at h
    · cases h
    · rename_i hnew
      refine ⟨x, rfl, ?_, (Except.ok.inj h).symm⟩
      simpa [OrderedMap.contains] using hnew

namespace Compilation

variable {c c' : Compilation}

/-- An update takes nothing away. -/
theorem Update.grows (h : c.Update c') : c.Grows c' := by
  cases h with
  | session s => exact { Grows.refl c with }
  | config config => exact { Grows.refl c with }
  | fileScope opened h => exact { Grows.refl c with }
  | rule r h => exact { Grows.refl c with rules := List.prefix_append _ _ }
  | openScope kind home h =>
    exact { Grows.refl c with scopes := fun _ _ hs => Scopes.get?_openIn kind home hs }
  | goTo s h => exact { Grows.refl c with }
  | bind scopes hm h =>
    obtain ⟨x, hx, -, rfl⟩ := Scopes.bind_eq_ok h
    refine { Grows.refl c with scopes := fun id s hs => ?_ }
    simp only [Arena.get?_modify, hs]
    split <;> exact ⟨_, rfl, rfl, rfl, rfl⟩
  | @child ns n name hn hnew =>
    refine (Grows.of_pushNamespace _).trans (.of_modify fun m hm => ?_)
    change (c.namespaces.table.push _).get? ns = some m at hm
    rw [Arena.get?_push, if_neg (Nat.ne_of_lt (Arena.lt_size_of_get? hn)), hn] at hm
    obtain rfl := Option.some.inj hm
    exact { Namespace.Grows.refl n with children := OrderedMap.sub_insert _ hnew }
  | explicit ns =>
    exact .of_modify fun n _ => { Namespace.Grows.refl n with explicit := fun _ => rfl }
  | aliased hn hnew hm hlisted =>
    refine .of_modify fun n' hn' => ?_
    obtain rfl := Option.some.inj (hn.symm.trans hn')
    exact { Namespace.Grows.refl _ with aliases := OrderedMap.sub_insert _ hnew }
  | store d hhome hscope hkind => exact .of_pushDefinition d
  | register hn hnew hid hstored =>
    refine .of_modify fun n' hn' => ?_
    obtain rfl := Option.some.inj (hn.symm.trans hn')
    exact { Namespace.Grows.refl _ with definitions := OrderedMap.sub_insert _ hnew }

theorem Updates.grows (h : c.Updates c') : c.Grows c' := by
  induction h with
  | refl => exact .refl c
  | tail _ hlast ih => exact ih.trans hlast.grows

/-! ## What comes in points into the tables -/

/-- A closed compilation whose definitions have content of their kind, and whose aliases stand for
registered definitions. -/
structure Intact (c : Compilation) : Prop extends c.Closed where
  kinds : c.definitions.All fun _ d => d.body.kind = d.kind
  aliases : c.namespaces.table.All fun _ n =>
    ∀ name id, n.aliases.get? name = some (.definition id) → c.namespaces.Lists id

/-- All that the namespace `id` refers to is there, and its aliases stand for registered
definitions. -/
structure Refers (c : Compilation) (id : NamespaceId) (n : Namespace) : Prop where
  within : n.Within c.namespaces.table.size c.definitions.size id
  listed : ∀ name d, n.aliases.get? name = some (.definition d) → c.namespaces.Lists d

namespace Intact

theorem refers (hc : c.Intact) (h : c.Grows c') : c.namespaces.table.All c'.Refers :=
  fun id n hn =>
    ⟨(hc.namespaces id n hn).mono h.namespaces_le h.definitions_le,
      fun name d hd => h.lists (hc.aliases id n hn name d hd)⟩

/-- Namespaces and definitions have been added to an intact compilation. -/
theorem of_grows (hc : c.Intact) (h : c.Grows c') (hnamespaces : c'.namespaces.table.All c'.Refers)
    (hdefinitions : c'.definitions.All fun id d => c.definitions.get? id = some d ∨
      c.namespaces.table.Holds d.home ∧ c.scopes.table.Holds d.scope ∧ d.body.kind = d.kind)
    (hscopes : c'.scopes = c.scopes) (hrules : c'.rules = c.rules)
    (hfile : c'.fileScope = c.fileScope) : c'.Intact where
  namespaces := hnamespaces.mono fun _ _ hn => hn.within
  definitions id d hd := by
    rcases hdefinitions id d hd with hold | ⟨hhome, hscope, -⟩
    · obtain ⟨hhome, hscope⟩ := hc.definitions id d hold
      exact ⟨h.holds_namespace hhome, h.holds_scope hscope⟩
    · exact ⟨h.holds_namespace hhome, h.holds_scope hscope⟩
  scopes := by
    rw [hscopes]
    exact hc.scopes.mono fun _ _ hs => hs.mono (Nat.le_refl _) h.namespaces_le h.definitions_le
  rules r hr := (hc.rules r (hrules ▸ hr)).mono h.scopes_le h.namespaces_le
  current := by
    rw [hscopes]
    exact hc.current
  root := h.holds_namespace hc.root
  fileScope s hs := h.holds_scope (hc.fileScope s (hfile ▸ hs))
  kinds id d hd := by
    rcases hdefinitions id d hd with hold | ⟨-, -, hkind⟩
    · exact hc.kinds id d hold
    · exact hkind
  aliases := hnamespaces.mono fun _ _ hn => hn.listed

/-- Only the scopes have changed. -/
theorem of_scopes (hc : c.Intact) {scopes : Scopes}
    (hle : c.scopes.table.size ≤ scopes.table.size)
    (hall : scopes.table.All
      (Scope.Within scopes.table.size c.namespaces.table.size c.definitions.size))
    (hcurrent : scopes.table.Holds scopes.current) : Intact { c with scopes := scopes } :=
  { hc with
    definitions := hc.definitions.mono fun _ _ hd => ⟨hd.1, Nat.lt_of_lt_of_le hd.2 hle⟩
    scopes := hall
    rules := fun r hr => (hc.rules r hr).mono hle (Nat.le_refl _)
    current := hcurrent
    fileScope := fun s hs => Nat.lt_of_lt_of_le (hc.fileScope s hs) hle }

theorem openIn (hc : c.Intact) (kind : BlockKind) {home : NamespaceId}
    (hhome : c.namespaces.table.Holds home) :
    Intact { c with scopes := c.scopes.openIn kind home } := by
  have hsize : (c.scopes.openIn kind home).table.size = c.scopes.table.size + 1 := by
    simp [Scopes.openIn]
  have hnext : c.scopes.table.nextId.index < c.scopes.table.size + 1 :=
    Nat.lt_succ_of_le c.scopes.table.nextId_index_le
  refine hc.of_scopes (by omega) ?_ ?_
  · rw [hsize]
    refine Arena.All.modify (Arena.All.push ?_ fun id hid => ?_) fun x _ hx => ?_
    · exact hc.scopes.mono fun _ _ hs =>
        hs.mono (Nat.le_succ _) (Nat.le_refl _) (Nat.le_refl _)
    · refine ⟨fun p hp => ?_, hhome, by simp, nofun⟩
      obtain rfl := Option.some.inj hp
      rw [hid]
      exact hc.current
    · refine { hx with children := fun child hchild => ?_ }
      rcases List.mem_append.1 hchild with hchild | hchild
      · exact hx.children child hchild
      · exact List.mem_singleton.1 hchild ▸ hnext
  · rw [Arena.Holds, hsize]
    exact hnext

theorem bind (hc : c.Intact) {scopes : Scopes} {name : String} {m : Meaning}
    (hm : m.Within c.namespaces.table.size c.definitions.size)
    (h : c.scopes.bind name m = .ok scopes) : Intact { c with scopes := scopes } := by
  obtain ⟨x, hx, -, rfl⟩ := Scopes.bind_eq_ok h
  refine hc.of_scopes (by simp) ?_ (by simpa using hc.current)
  rw [Arena.size_modify]
  refine hc.scopes.modify fun x _ hx => { hx with meanings := fun name' m' hm' => ?_ }
  rw [OrderedMap.get?_insert] at hm'
  split at hm'
  · exact Option.some.inj hm' ▸ hm
  · exact hx.meanings name' m' hm'

end Intact

/-- What an update brings in points into the tables. -/
theorem Update.intact (h : c.Update c') (hc : c.Intact) : c'.Intact := by
  have hgrows := h.grows
  have hold := hc.refers hgrows
  cases h with
  | session s => exact { hc with }
  | config config => exact { hc with }
  | fileScope opened h => exact { hc with fileScope := h }
  | rule r h =>
    refine { hc with rules := fun r' hr' => ?_ }
    rcases List.mem_append.1 hr' with hr' | hr'
    · exact hc.rules r' hr'
    · exact List.mem_singleton.1 hr' ▸ h
  | openScope kind home h => exact hc.openIn kind h
  | goTo s h =>
    have hs : c.scopes.table.Holds s :=
      Arena.holds_of_mem_chain hc.current (c.scopes.outward_eq _ ▸ h)
    exact hc.of_scopes (Nat.le_refl _) hc.scopes hs
  | bind scopes hm h => exact hc.bind hm h
  | @child ns n name hn hnew =>
    refine hc.of_grows hgrows ?_ (fun _ _ hd => .inl hd) rfl rfl rfl
    refine (hold.push fun id hid => ?_).modify fun n _ hn => ?_
    · refine ⟨⟨fun p hp => ?_, nofun, nofun, nofun⟩, nofun⟩
      obtain rfl := Option.some.inj hp
      rw [hid]
      exact Arena.holds_of_get? hn
    · refine ⟨{ hn.within with children := fun name' child hchild => ?_ }, hn.listed⟩
      rw [OrderedMap.get?_insert] at hchild
      split at hchild
      · obtain rfl := Option.some.inj hchild
        rw [NamespaceTree.size_addChild]
        exact Nat.lt_succ_of_le c.namespaces.table.nextId_index_le
      · exact hn.within.children name' child hchild
  | explicit ns =>
    refine hc.of_grows hgrows ?_ (fun _ _ hd => .inl hd) rfl rfl rfl
    exact hold.modify fun n _ hn => ⟨{ hn.within with }, hn.listed⟩
  | @aliased ns n name m hn hnew hm hlisted =>
    refine hc.of_grows hgrows ?_ (fun _ _ hd => .inl hd) rfl rfl rfl
    refine hold.modify fun n' _ hn' =>
      ⟨{ hn'.within with aliases := fun name' m' hm' => ?_ }, fun name' d hd => ?_⟩
    · rw [OrderedMap.get?_insert] at hm'
      split at hm'
      · exact (Option.some.inj hm' ▸ hm).mono hgrows.namespaces_le hgrows.definitions_le
      · exact hn'.within.aliases name' m' hm'
    · rw [OrderedMap.get?_insert] at hd
      split at hd
      · exact hgrows.lists (hlisted d (Option.some.inj hd))
      · exact hn'.listed name' d hd
  | store d hhome hscope hkind =>
    refine hc.of_grows hgrows hold ?_ rfl rfl rfl
    exact Arena.All.push (fun _ _ hd => .inl hd) fun _ _ => .inr ⟨hhome, hscope, hkind⟩
  | @register ns n identity id hn hnew hid hstored =>
    refine hc.of_grows hgrows ?_ (fun _ _ hd => .inl hd) rfl rfl rfl
    refine hold.modify fun n' _ hn' =>
      ⟨{ hn'.within with definitions := fun identity' id' hid' => ?_ }, hn'.listed⟩
    rw [OrderedMap.get?_insert] at hid'
    split at hid'
    · exact Option.some.inj hid' ▸ hid
    · exact hn'.within.definitions identity' id' hid'

theorem Updates.intact (h : c.Updates c') (hc : c.Intact) : c'.Intact := by
  induction h with
  | refl => exact hc
  | tail _ hlast ih => exact hlast.intact ih

/-! ## Tables list what is stored -/

/-- A namespace has a definition under the identity and for the namespace with which it is
stored. -/
def Filed (c : Compilation) : Prop :=
  c.namespaces.table.All fun ns n => ∀ identity id, n.definitions.get? identity = some id →
    ∃ d, c.definitions.get? id = some d ∧ d.identity = identity ∧ d.home = ns

/-- An update keeps the tables right as long as the ids suffice. -/
theorem Update.filed (h : c.Update c') (hfits : c'.Fits) (hc : c.Filed) : c'.Filed := by
  have hgrows := h.grows
  have hold : c.namespaces.table.All fun ns n => ∀ identity id,
      n.definitions.get? identity = some id →
      ∃ d, c'.definitions.get? id = some d ∧ d.identity = identity ∧ d.home = ns := by
    intro ns n hn identity id hid
    obtain ⟨d, hd, heq⟩ := hc ns n hn identity id hid
    exact ⟨d, hgrows.definitions id d hd, heq⟩
  cases h with
  | session s => exact hold
  | config config => exact hold
  | fileScope opened h => exact hold
  | rule r h => exact hold
  | openScope kind home h => exact hold
  | goTo s h => exact hold
  | bind scopes hm h => exact hold
  | child name hn hnew =>
    refine (hold.push fun _ _ identity id hid => ?_).modify fun _ _ hn => hn
    cases hid
  | explicit ns => exact hold.modify fun _ _ hn => hn
  | aliased hn hnew hm hlisted => exact hold.modify fun _ _ hn => hn
  | store d hhome hscope hkind => exact hold
  | @register ns n identity id hn hnew hid hstored =>
    refine hold.modify fun n' _ hn' identity' id' hid' => ?_
    rw [OrderedMap.get?_insert] at hid'
    split at hid'
    · rename_i hidentity
      rw [← Option.some.inj hid', ← hidentity]
      exact hstored (hgrows.fits hfits)
    · exact hn' identity' id' hid'

theorem Updates.filed (h : c.Updates c') (hfits : c'.Fits) (hc : c.Filed) : c'.Filed := by
  induction h with
  | refl => exact hc
  | tail _ hlast ih => exact hlast.filed hfits (ih (hlast.grows.fits hfits))

end Compilation
end Stencil
