import Stencil.Proofs.Admission
import Stencil.Proofs.Commutation

/-! # Blocks of one namespace merge

Groups are registered in namespace blocks, one block after the other. What a compilation then has at
each path is said by the places of the blocks and by the groups at each place. So nothing that is asked
by paths tells in which order the blocks and groups were written, or how the groups of a namespace were
shared out among its blocks.
-/
namespace Stencil

open Compilation Library

/-- A group as it is registered. -/
structure Group where
  identity : Identity
  body : Content
  edges : List Inheritance
  noValue : NameSet
  span : Option Span

/-- A namespace block with the groups that are written in it. -/
structure Block where
  path : String
  groups : List Group

namespace Group

def register (g : Group) : Compiling Unit := do
  let _ ← Compiling.addGroup g.identity g.body g.edges g.noValue g.span
  return ()

/-- The definition that the group becomes. -/
def stored (g : Group) (home : NamespaceId) (scope : ScopeId) : Definition :=
  ⟨g.identity, home, scope, g.edges, g.body, g.noValue, g.span⟩

end Group

namespace Block

def segments (b : Block) : Except Misspelling (List String) :=
  Name.parseDotted (Text.trim b.path.toList)

/-- The names along the path of the block. -/
def place (b : Block) : List String := b.segments.toOption.getD []

/-- The groups of the block, each with its place. -/
def entries (b : Block) : List (List String × Group) := b.groups.map fun g => (b.place, g)

def register (b : Block) : Compiling Unit := do
  let _ ← Compiling.openNamespace b.path
  b.groups.forM Group.register
  Compiling.closeNamespace

theorem place_eq {b : Block} {segments : List String} (h : b.segments = .ok segments) :
    b.place = segments := by
  rw [place, h]
  rfl

end Block

namespace Compiling

def registerAll (blocks : List Block) : Compiling Unit := blocks.forM Block.register

end Compiling

/-- By what a group is found. -/
def groupKey (e : List String × Group) : List String × Identity := (e.1, e.2.identity)

/-- The blocks have these places, and have the entries in some order and grouping. -/
structure Arranges (blocks : List Block) (places : List (List String))
    (entries : List (List String × Group)) : Prop where
  parsed : ∀ b ∈ blocks, ∃ segments, b.segments = .ok segments
  places : ∀ q, q ∈ blocks.map Block.place ↔ q ∈ places
  entries : (blocks.flatMap Block.entries).Perm entries

/-! ## What a block is seen to do -/

namespace NamespaceTree

variable {t t' : NamespaceTree} {b x : NamespaceId} {path q : List String}

/-- What was there is at the path at which it was. -/
theorem Widens.leads_iff (h : t.Widens t') (ht : t.Linked) (ht' : t'.Linked)
    (hx : t.table.Holds x) : t'.Leads .root q x ↔ t.Leads .root q x := by
  refine ⟨fun hq => ?_, h.leads⟩
  obtain ⟨p, hp⟩ := ht.exists_leads hx
  exact ht'.leads_unique (h.leads hp) hq ▸ hp

theorem Widens.exists_leads_and_iff (h : t.Widens t') (ht : t.Linked) (ht' : t'.Linked)
    {P : NamespaceId → Prop} (hP : ∀ x, P x → t.table.Holds x) :
    (∃ x, t'.Leads .root q x ∧ P x) ↔ ∃ x, t.Leads .root q x ∧ P x :=
  exists_congr fun _ => and_congr_left fun hx => h.leads_iff ht ht' (hP _ hx)

theorem Widens.exists_definition_iff (h : t.Widens t') (ht : t.Linked) (ht' : t'.Linked)
    {identity : Identity} {id : DefId} :
    (∃ x, t'.Leads .root q x ∧ t'.definition? x identity = some id) ↔
      ∃ x, t.Leads .root q x ∧ t.definition? x identity = some id := by
  rw [h.definitions]
  exact h.exists_leads_and_iff ht ht' fun _ => holds_of_bind

theorem Widens.exists_alias_iff (h : t.Widens t') (ht : t.Linked) (ht' : t'.Linked)
    {name : String} {m : Meaning} :
    (∃ x, t'.Leads .root q x ∧ t'.alias? x name = some m) ↔
      ∃ x, t.Leads .root q x ∧ t.alias? x name = some m := by
  rw [h.aliases]
  exact h.exists_leads_and_iff ht ht' fun _ => holds_of_bind

namespace Opens

theorem exists_leads_iff (h : t.Opens .root path b t') (ht : t.Linked) (ht' : t'.Linked)
    (hfits : t'.table.size ≤ idLimit) :
    (∃ x, t'.Leads .root q x) ↔ (∃ x, t.Leads .root q x) ∨ q <+: path := by
  constructor
  · rintro ⟨x, hx⟩
    rcases h.only hfits x (ht'.holds hx) with hold | ⟨before, hbefore, hleads⟩
    · exact .inl ⟨x, (h.widens.leads_iff ht ht' hold).1 hx⟩
    · exact .inr (ht'.leads_unique hx hleads ▸ hbefore)
  · rintro (⟨x, hx⟩ | ⟨rest, rfl⟩)
    · exact ⟨x, h.widens.leads hx⟩
    · obtain ⟨x, hx, -⟩ := leads_append.1 h.leads
      exact ⟨x, hx⟩

theorem exists_leads_explicit_iff (h : t.Opens .root path b t') (ht : t.Linked) (ht' : t'.Linked)
    (hexplicit : ∀ x, t'.Explicit x ↔ t.Explicit x ∨ true = true ∧ x = b ∧ x ≠ .root) :
    (∃ x, t'.Leads .root q x ∧ t'.Explicit x) ↔
      (∃ x, t.Leads .root q x ∧ t.Explicit x) ∨ q = path ∧ q ≠ [] := by
  have hend : (∃ x, t'.Leads .root q x ∧ x = b ∧ x ≠ .root) ↔ q = path ∧ q ≠ [] := by
    constructor
    · rintro ⟨x, hx, rfl, hne⟩
      refine ⟨ht'.leads_unique hx h.leads, ?_⟩
      rintro rfl
      exact hne (leads_nil.1 hx).symm
    · rintro ⟨rfl, hne⟩
      refine ⟨b, h.leads, rfl, ?_⟩
      rintro rfl
      exact hne (ht'.leads_unique h.leads (leads_nil.2 rfl))
  have hold := h.widens.exists_leads_and_iff (q := q) ht ht' (P := t.Explicit)
    fun x ⟨_, hn, _⟩ => Arena.holds_of_get? hn
  simp only [hexplicit, true_and, and_or_left, exists_or, hold, hend]

end Opens

/-- A definition that is registered at the end of a path is found there, next to what was there. -/
theorem exists_definition_insertDefinition_iff (ht : t.Linked) (hb : t.Leads .root q b)
    {n : Namespace} (hn : t.table.get? b = some n) {identity : Identity}
    (hnew : n.definitions.get? identity = none) (id : DefId) (p : List String) (other : Identity)
    (old : DefId) :
    (∃ x, (t.insertDefinition b identity id).Leads .root p x ∧
        (t.insertDefinition b identity id).definition? x other = some old) ↔
      (∃ x, t.Leads .root p x ∧ t.definition? x other = some old) ∨
        p = q ∧ other = identity ∧ old = id := by
  have houtline : t.SameOutline (t.insertDefinition b identity id) := .modify t b fun _ => rfl
  have hnone := (definition?_of_get? hn identity).trans hnew
  simp only [houtline.leads_iff, definition?_insertDefinition hn]
  constructor
  · rintro ⟨x, hx, hold⟩
    split at hold
    · rename_i hsame
      obtain ⟨rfl, rfl⟩ := hsame
      exact .inr ⟨ht.leads_unique hx hb, rfl, (Option.some.inj hold).symm⟩
    · exact .inl ⟨x, hx, hold⟩
  · rintro (⟨x, hx, hold⟩ | ⟨rfl, rfl, rfl⟩)
    · refine ⟨x, hx, ?_⟩
      rw [if_neg]
      · exact hold
      · rintro ⟨rfl, rfl⟩
        cases hold.symm.trans hnone
    · exact ⟨b, hb, if_pos ⟨rfl, rfl⟩⟩

end NamespaceTree

namespace Scopes

variable {s s' : Scopes}

/-- The scope that has been opened, as long as the ids suffice. -/
theorem get?_current_openIn {kind : BlockKind} {home : NamespaceId}
    (hcurrent : s.table.Holds s.current) (hfits : (s.openIn kind home).table.size ≤ idLimit) :
    (s.openIn kind home).table.get? (s.openIn kind home).current =
      some ⟨kind, some s.current, home, [], .empty⟩ := by
  simp only [openIn, Arena.size_modify] at hfits
  have hne : s.current ≠ s.table.nextId := by
    rw [Arena.nextId_of_le hfits]
    exact fun heq => Nat.ne_of_lt hcurrent (congrArg Id.index heq)
  simp only [openIn, Arena.get?_modify, if_neg hne, Arena.get?_push_nextId hfits]

end Scopes

namespace Compiling

variable {c : Compilation}

theorem run_closeNamespace {s : Scope} {p : ScopeId}
    (hs : c.scopes.table.get? c.scopes.current = some s) (hkind : s.kind = .namespaceBlock)
    (hp : s.parent = some p) (hfile : c.fileScope ≠ some c.scopes.current) :
    closeNamespace.run c = (.ok (), { c with scopes := { c.scopes with current := p } }) := by
  have hfind : c.scopes.find c.scopes.current = .ok s := Arena.find_of_get? hs
  have hcond : s.kind = .namespaceBlock ∧ some c.scopes.current ≠ c.fileScope := ⟨hkind, hfile.symm⟩
  change ((liftM (c.scopes.find c.scopes.current) : Compiling Scope) >>= _).run c = _
  rw [run_liftFault_bind hfind]
  change (if s.kind = .namespaceBlock ∧ some c.scopes.current ≠ c.fileScope then _ else _ :
    Compiling Unit).run c = _
  rw [if_pos hcond]
  change ((liftM c.scopes.close : Compiling Scopes) >>= _).run c = _
  rw [run_liftFault_bind (Scopes.close_of_some hs hp)]
  rfl

variable {α β : Type} {x : Compiling α} {f : α → Compiling β}

theorem run_groupRegister {g : Group} {id : DefId} {c' : Compilation}
    (h : (addGroup g.identity g.body g.edges g.noValue g.span).run c = (.ok id, c')) :
    g.register.run c = (.ok (), c') := by
  rw [Group.register, run_bind_of_ok h]
  rfl

theorem groupRegister_runs (hc : c.Intact) (g : Group) : Runs g.register c fun _ _ => True :=
  (addGroup_runs hc g.identity g.body g.edges g.noValue g.span).bind fun _ _ _ _ => .pure trivial

theorem groupsRegister_runs (hc : c.Intact) (groups : List Group) :
    Runs (groups.forM Group.register) c fun _ _ => True :=
  .forM fun g _ _ h => groupRegister_runs (h.intact hc) g

/-- The rest of a block, once it is opened. -/
theorem restRegister_runs (hc : c.Intact) (groups : List Group) :
    Runs (groups.forM Group.register >>= fun _ => closeNamespace) c fun _ _ => True :=
  (groupsRegister_runs hc groups).bind fun _ _ h _ => closeNamespace_runs (h.intact hc)

theorem blockRegister_runs (hc : c.Intact) (b : Block) : Runs b.register c fun _ _ => True :=
  (openNamespace_runs hc b.path).bind fun _ _ h _ => restRegister_runs (h.intact hc) b.groups

theorem registerAll_runs (hc : c.Intact) (blocks : List Block) :
    Runs (registerAll blocks) c fun _ _ => True :=
  .forM fun b _ _ h => blockRegister_runs (h.intact hc) b

end Compiling

namespace Compilation

variable {c c' : Compilation} {config : Config} {places : List (List String)}
  {entries : List (List String × Group)} {q : List String}

/-- The tables have no more entries than there are ids. -/
structure Roomy (c : Compilation) : Prop extends Fits c where
  scopes : c.scopes.table.size ≤ idLimit

theorem Grows.roomy (h : c.Grows c') (hroom : c'.Roomy) : c.Roomy where
  toFits := h.fits hroom.toFits
  scopes := Nat.le_trans h.scopes_le hroom.scopes

theorem Grows.spaceAt (h : c.Grows c') {ns : NamespaceId} (hns : c.SpaceAt q ns) :
    c'.SpaceAt q ns := by
  refine hns.mono fun a name b hb => ?_
  obtain ⟨n, hn, hb⟩ := Option.bind_eq_some_iff.1 hb
  obtain ⟨n', hn', hgrows⟩ := h.namespaces a n hn
  exact Option.bind_eq_some_iff.2 ⟨n', hn', hgrows.children name b hb⟩

/-- What has been done before is within what the ids suffice for. -/
theorem roomy_of_bind {α β : Type} {x : Compiling α} {f : α → Compiling β}
    {P : α → Compilation → Prop} {R : β → Compilation → Prop} (hc : c.Intact)
    (hx : Compiling.Runs x c P) (hf : ∀ a c', c'.Intact → Compiling.Runs (f a) c' R)
    (hroom : ((x >>= f).after c).Roomy) : (x.after c).Roomy := by
  rw [Compiling.after, Compiling.run_bind] at hroom
  cases h : x.outcome c with
  | error e =>
    rw [h] at hroom
    exact hroom
  | ok a =>
    rw [h] at hroom
    exact (hf a _ (hx.1.intact hc)).1.grows.roomy hroom

/-- There are namespaces at these places and around them. They have these entries, and nothing else. -/
structure Laid (places : List (List String)) (entries : List (List String × Group))
    (c : Compilation) : Prop where
  spaces : ∀ q, (∃ ns, c.SpaceAt q ns) ↔ q = [] ∨ ∃ p ∈ places, q <+: p
  explicit : ∀ q, c.ExplicitAt q ↔ q ∈ places ∧ q ≠ []
  aliases : ∀ q name m, ¬ c.NamedAt q name m
  stored : ∀ e ∈ entries, ∃ id home scope, c.DefinedAt e.1 e.2.identity id ∧
    c.definitions.get? id = some (e.2.stored home scope)
  only : ∀ q identity id, c.DefinedAt q identity id → (q, identity) ∈ entries.map groupKey

/-- Only blocks have been written, with these places and entries. -/
structure Written (config : Config) (places : List (List String))
    (entries : List (List String × Group)) (c : Compilation) : Prop
    extends Laid places entries c where
  orderly : c.Orderly
  config : c.config = config
  session : c.session = .initial
  rules : c.rules = []
  fileScope : c.fileScope = none
  outermost : ∃ s, c.scopes.table.get? ScopeId.global = some s ∧ s.home = .root

/-- The current scope is a block, outside of all others, of the namespace at the path. -/
def InBlock (c : Compilation) (q : List String) : Prop :=
  ∃ s, c.scopes.table.get? c.scopes.current = some s ∧ s.kind = .namespaceBlock ∧
    s.parent = some .global ∧ c.SpaceAt q s.home

namespace Laid

theorem start (config : Config) : Laid [] [] (.initial config) where
  spaces q := by
    cases q with
    | nil => simpa using ⟨.root, NamespaceTree.leads_nil.2 rfl⟩
    | cons name q =>
      simp only [List.not_mem_nil, false_and, exists_false, reduceCtorEq, or_false, iff_false]
      rintro ⟨ns, hns⟩
      obtain ⟨m, hm, -⟩ := NamespaceTree.leads_cons.1 hns
      cases hm
  explicit q := by
    simp only [List.not_mem_nil, false_and, iff_false]
    rintro ⟨ns, -, n, hn, hexplicit⟩
    rw [(NamespaceTree.initial_all ns n hn).2] at hexplicit
    cases hexplicit
  aliases q name m := by
    rintro ⟨ns, -, hm⟩
    obtain ⟨n, hn, hm⟩ := Option.bind_eq_some_iff.1 hm
    rw [(NamespaceTree.initial_all ns n hn).2] at hm
    cases hm
  stored := nofun
  only q identity id := by
    rintro ⟨ns, -, hid⟩
    obtain ⟨n, hn, hid⟩ := Option.bind_eq_some_iff.1 hid
    rw [(NamespaceTree.initial_all ns n hn).2] at hid
    cases hid

theorem congr (h : Laid places entries c) {places' : List (List String)}
    {entries' : List (List String × Group)} (hplaces : ∀ q, q ∈ places ↔ q ∈ places')
    (hentries : entries.Perm entries') : Laid places' entries' c where
  spaces := by simpa only [hplaces] using h.spaces
  explicit := by simpa only [hplaces] using h.explicit
  aliases := h.aliases
  stored e he := h.stored e (hentries.mem_iff.2 he)
  only q identity id hid := (hentries.map groupKey).mem_iff.1 (h.only q identity id hid)

theorem exists_of_mem (h : Laid places entries c) {identity : Identity}
    (hmem : (q, identity) ∈ entries.map groupKey) : ∃ id, c.DefinedAt q identity id := by
  obtain ⟨e, he, hkey⟩ := List.mem_map.1 hmem
  obtain ⟨rfl, rfl⟩ := Prod.mk.inj hkey
  obtain ⟨id, -, -, hid, -⟩ := h.stored e he
  exact ⟨id, hid⟩

/-- A path is opened, and its end marked. -/
theorem opens (h : Laid places entries c) {t : NamespaceTree} {ns : NamespaceId}
    (hopen : c.namespaces.openAt .root q true = .ok (ns, t)) (ht : c.namespaces.Linked)
    (ht' : t.Linked) (hfits : t.table.size ≤ idLimit) (scopes : Scopes) :
    Laid (places ++ [q]) entries { c with namespaces := t, scopes := scopes } := by
  obtain ⟨hopens, hexplicit⟩ := NamespaceTree.opens_of_openAt hopen
  have hdefined (p identity id) :
      DefinedAt { c with namespaces := t, scopes := scopes } p identity id ↔
        c.DefinedAt p identity id :=
    hopens.widens.exists_definition_iff ht ht'
  refine ⟨fun p => ?_, fun p => ?_, fun p name m hm => ?_, fun e he => ?_,
    fun p identity id hid => h.only p identity id ((hdefined p identity id).1 hid)⟩
  · refine (hopens.exists_leads_iff ht ht' hfits).trans ((or_congr_left (h.spaces p)).trans ?_)
    simp [or_and_right, exists_or, or_assoc]
  · refine (hopens.exists_leads_explicit_iff ht ht' hexplicit).trans
      ((or_congr_left (h.explicit p)).trans ?_)
    simp [← or_and_right]
  · exact h.aliases p name m ((hopens.widens.exists_alias_iff ht ht').1 hm)
  · obtain ⟨id, home, scope, hid, hd⟩ := h.stored e he
    exact ⟨id, home, scope, (hdefined _ _ _).2 hid, hd⟩

/-- A group is registered whose identity is new in its namespace. -/
theorem register (h : Laid places entries c) (ht : c.namespaces.Linked) {home : NamespaceId}
    {n : Namespace} (hhome : c.SpaceAt q home) (hn : c.namespaces.table.get? home = some n)
    {g : Group} (hnew : n.definitions.get? g.identity = none) (scope : ScopeId)
    (hfits : (c.definitions.push (g.stored home scope)).size ≤ idLimit) (scopes : Scopes) :
    Laid places (entries ++ [(q, g)]) { c with
      definitions := c.definitions.push (g.stored home scope)
      namespaces := c.namespaces.insertDefinition home g.identity c.definitions.nextId
      scopes := scopes } := by
  have houtline : c.namespaces.SameOutline
      (c.namespaces.insertDefinition home g.identity c.definitions.nextId) :=
    .modify _ _ fun _ => rfl
  have hdefined :=
    NamespaceTree.exists_definition_insertDefinition_iff ht hhome hn hnew c.definitions.nextId
  refine ⟨fun p => ?_, fun p => ?_, fun p name m => ?_, fun e he => ?_, fun p identity id hid => ?_⟩
  · exact (exists_congr fun _ => houtline.leads_iff).trans (h.spaces p)
  · refine (exists_congr fun _ => and_congr houtline.leads_iff houtline.explicit_iff).trans ?_
    exact h.explicit p
  · rintro ⟨x, hx, hm⟩
    rw [NamespaceTree.alias?_insertDefinition] at hm
    exact h.aliases p name m ⟨x, houtline.leads_iff.1 hx, hm⟩
  · rcases List.mem_append.1 he with he | he
    · obtain ⟨id, place, around, hid, hd⟩ := h.stored e he
      exact ⟨id, place, around, (hdefined _ _ _).2 (.inl hid),
        Compiling.Copying.get?_push_of_some _ hd⟩
    · obtain rfl := List.mem_singleton.1 he
      exact ⟨_, home, scope, (hdefined _ _ _).2 (.inr ⟨rfl, rfl, rfl⟩),
        Arena.get?_push_nextId hfits⟩
  · rw [List.map_append]
    rcases (hdefined p identity id).1 hid with hid | ⟨rfl, rfl, -⟩
    · exact List.mem_append_left _ (h.only p identity id hid)
    · exact List.mem_append_right _ (List.mem_singleton.2 rfl)

end Laid

namespace Written

theorem start (config : Config) : Written config [] [] (.initial config) where
  toLaid := .start config
  orderly := .initial config
  config := rfl
  session := rfl
  rules := rfl
  fileScope := rfl
  outermost := ⟨_, rfl, rfl⟩

theorem congr (h : Written config places entries c) {places' : List (List String)}
    {entries' : List (List String × Group)} (hplaces : ∀ q, q ∈ places ↔ q ∈ places')
    (hentries : entries.Perm entries') : Written config places' entries' c :=
  { h with toLaid := h.toLaid.congr hplaces hentries }

theorem home_eq (h : Written config places entries c) (hglobal : c.scopes.current = .global) :
    c.home = .ok .root := by
  obtain ⟨s, hs, hhome⟩ := h.outermost
  rw [home, Scopes.homeOf, Scopes.find, hglobal, Arena.find_of_get? hs, ← hhome]
  rfl

theorem outermost_grows (h : Written config places entries c) (hgrows : c.Grows c') :
    ∃ s, c'.scopes.table.get? ScopeId.global = some s ∧ s.home = .root := by
  obtain ⟨s, hs, hroot⟩ := h.outermost
  obtain ⟨s', hs', -, -, hsame⟩ := hgrows.scopes ScopeId.global s hs
  exact ⟨s', hs', hsame.trans hroot⟩

/-- A block is opened. -/
theorem openNamespace (h : Written config places entries c)
    (hglobal : c.scopes.current = .global) {path : String}
    (hparse : Name.parseDotted (Text.trim path.toList) = .ok q)
    (hroom : ((Compiling.openNamespace path).after c).Roomy) :
    ∃ ns c', (Compiling.openNamespace path).run c = (.ok ns, c') ∧
      Written config (places ++ [q]) entries c' ∧ c'.InBlock q := by
  have hc := h.orderly.reachable.intact
  have hgrows := (Compiling.openNamespace_runs hc path).1.grows
  have horderly : ((Compiling.openNamespace path).after c).Orderly :=
    h.orderly.step (.openNamespace path) nofun
  obtain ⟨home, ns, t, scopes, hhome, hopen, hscopes, hrun⟩ := Compiling.run_openNamespace hc hparse
  obtain rfl := Except.ok.inj ((h.home_eq hglobal).symm.trans hhome)
  rw [Compiling.after, hrun] at hroom hgrows horderly
  have hcurrent : scopes.table.Holds scopes.current ∧ scopes.current = .global := by
    rcases hscopes with rfl | ⟨first, head, -, hbind⟩
    · exact ⟨hc.current, hglobal⟩
    · obtain ⟨x, -, -, rfl⟩ := Scopes.bind_eq_ok hbind
      exact ⟨Arena.holds_modify.2 hc.current, hglobal⟩
  refine ⟨ns, _, hrun, ⟨?_, horderly, h.config, h.session, h.rules, h.fileScope,
    h.outermost_grows hgrows⟩, ?_⟩
  · exact h.opens hopen (h.orderly.reachable.linked (hgrows.fits hroom.toFits))
      (horderly.reachable.linked hroom.toFits) hroom.namespaces _
  · exact ⟨_, Scopes.get?_current_openIn hcurrent.1 hroom.scopes, rfl,
      congrArg some hcurrent.2, (NamespaceTree.opens_of_openAt hopen).1.leads⟩

/-- A group is registered in the current block. -/
theorem register (h : Written config places entries c) (hblock : c.InBlock q) {g : Group}
    (hkind : g.body.kind = g.identity.kind) (hnew : (q, g.identity) ∉ entries.map groupKey)
    (hroom : (g.register.after c).Roomy) :
    ∃ c', g.register.run c = (.ok (), c') ∧ Written config places (entries ++ [(q, g)]) c' ∧
      c'.InBlock q := by
  have hc := h.orderly.reachable.intact
  have horderly :
      ((Compiling.addGroup g.identity g.body g.edges g.noValue g.span).after c).Orderly :=
    h.orderly.step (.addGroup g.identity g.body g.edges g.noValue g.span) nofun
  have hgrows := (Compiling.addGroup_runs hc g.identity g.body g.edges g.noValue g.span).1.grows
  obtain ⟨s, n, hhome, hs, hn, hcases⟩ := h.orderly.settled.addGroup_cases hc g.identity g.body
  obtain ⟨s', hs', hs'kind, hparent, hspace⟩ := hblock
  obtain rfl := Option.some.inj (hs.symm.trans hs')
  rcases hcases with hwrong | ⟨kept, -, hkept⟩ | ⟨scopes, -, hfree, hbind⟩
  · exact absurd hkind hwrong
  · exact absurd (h.only q g.identity kept ⟨s.home, hspace,
      (NamespaceTree.definition?_of_get? hn _).trans hkept⟩) hnew
  · have hrun := Compiling.run_addGroup_of_none g.edges g.noValue g.span hkind hhome hn hfree hbind
    have hregister := Compiling.run_groupRegister hrun
    rw [Compiling.after, hregister] at hroom
    rw [Compiling.after, hrun] at horderly hgrows
    refine ⟨_, hregister, ⟨?_, horderly, h.config, h.session, h.rules, h.fileScope,
      h.outermost_grows hgrows⟩, ?_⟩
    · exact h.toLaid.register (h.orderly.reachable.linked (hgrows.fits hroom.toFits)) hspace hn hfree
        c.scopes.current hroom.definitions _
    · obtain ⟨s₁, hs₁, hkind₁, hparent₁, hhome₁⟩ := hgrows.scopes _ s hs
      obtain ⟨x, -, -, hscopes⟩ := Scopes.bind_eq_ok hbind
      have hcurrent : scopes.current = c.scopes.current := by rw [hscopes]
      exact ⟨s₁, hcurrent.symm ▸ hs₁, hkind₁.trans hs'kind, hparent₁.trans hparent,
        hhome₁.symm ▸ hgrows.spaceAt hspace⟩

theorem registerGroups (h : Written config places entries c) (hblock : c.InBlock q)
    {groups : List Group} (hkind : ∀ g ∈ groups, g.body.kind = g.identity.kind)
    (hnodup : ((entries ++ groups.map fun g => (q, g)).map groupKey).Nodup)
    (hroom : ((groups.forM Group.register).after c).Roomy) :
    ∃ c', (groups.forM Group.register).run c = (.ok (), c') ∧
      Written config places (entries ++ groups.map fun g => (q, g)) c' ∧ c'.InBlock q := by
  induction groups generalizing entries c with
  | nil => exact ⟨c, rfl, by simpa using h, hblock⟩
  | cons g groups ih =>
    have hc := h.orderly.reachable.intact
    change ((g.register >>= fun _ => groups.forM Group.register).after c).Roomy at hroom
    have hnew : (q, g.identity) ∉ entries.map groupKey := by
      rw [List.map_append, List.nodup_append] at hnodup
      exact fun hmem => hnodup.2.2 _ hmem _ List.mem_cons_self rfl
    obtain ⟨c₁, hrun, hwritten, hblock⟩ := h.register hblock (hkind g List.mem_cons_self) hnew
      (roomy_of_bind hc (Compiling.groupRegister_runs hc g)
        (fun _ _ hc' => Compiling.groupsRegister_runs hc' groups) hroom)
    rw [Compiling.after, Compiling.run_bind_of_ok hrun] at hroom
    change ∃ c', (g.register >>= fun _ => groups.forM Group.register).run c = _ ∧ _
    rw [Compiling.run_bind_of_ok hrun]
    rw [List.map_cons, List.append_cons] at hnodup ⊢
    exact ih hwritten hblock (fun g hg => hkind g (List.mem_cons_of_mem _ hg)) hnodup hroom

/-- The current block is closed. -/
theorem closeNamespace (h : Written config places entries c) (hblock : c.InBlock q) :
    ∃ c', Compiling.closeNamespace.run c = (.ok (), c') ∧ Written config places entries c' ∧
      c'.scopes.current = .global := by
  obtain ⟨s, hs, hkind, hparent, -⟩ := hblock
  have hrun := Compiling.run_closeNamespace hs hkind hparent (by simp [h.fileScope])
  have horderly : (Compiling.closeNamespace.after c).Orderly := h.orderly.step .closeNamespace nofun
  rw [Compiling.after, hrun] at horderly
  exact ⟨_, hrun, ⟨⟨h.spaces, h.explicit, h.aliases, h.stored, h.only⟩, horderly, h.config,
    h.session, h.rules, h.fileScope, h.outermost⟩, rfl⟩

theorem registerBlock (h : Written config places entries c)
    (hglobal : c.scopes.current = .global) {b : Block} (hparse : b.segments = .ok b.place)
    (hkind : ∀ g ∈ b.groups, g.body.kind = g.identity.kind)
    (hnodup : ((entries ++ b.entries).map groupKey).Nodup) (hroom : (b.register.after c).Roomy) :
    ∃ c', b.register.run c = (.ok (), c') ∧
      Written config (places ++ [b.place]) (entries ++ b.entries) c' ∧
      c'.scopes.current = .global := by
  have hc := h.orderly.reachable.intact
  unfold Block.register at hroom ⊢
  obtain ⟨ns, c₁, hopen, hwritten, hblock⟩ := h.openNamespace hglobal hparse
    (roomy_of_bind hc (Compiling.openNamespace_runs hc b.path)
      (fun _ _ hc' => Compiling.restRegister_runs hc' b.groups) hroom)
  have hc₁ := hwritten.orderly.reachable.intact
  rw [Compiling.after, Compiling.run_bind_of_ok hopen] at hroom
  rw [Compiling.run_bind_of_ok hopen]
  obtain ⟨c₂, hgroups, hwritten, hblock⟩ := hwritten.registerGroups hblock hkind hnodup
    (roomy_of_bind hc₁ (Compiling.groupsRegister_runs hc₁ b.groups)
      (fun _ _ hc' => Compiling.closeNamespace_runs hc') hroom)
  obtain ⟨c₃, hclose, hwritten, hglobal⟩ := hwritten.closeNamespace hblock
  exact ⟨c₃, (Compiling.run_bind_of_ok hgroups).trans hclose, hwritten, hglobal⟩

theorem registerAll (h : Written config places entries c) (hglobal : c.scopes.current = .global)
    {blocks : List Block} (hparse : ∀ b ∈ blocks, b.segments = .ok b.place)
    (hkind : ∀ b ∈ blocks, ∀ g ∈ b.groups, g.body.kind = g.identity.kind)
    (hnodup : ((entries ++ blocks.flatMap Block.entries).map groupKey).Nodup)
    (hroom : ((Compiling.registerAll blocks).after c).Roomy) :
    ∃ c', (Compiling.registerAll blocks).run c = (.ok (), c') ∧
      Written config (places ++ blocks.map Block.place)
        (entries ++ blocks.flatMap Block.entries) c' := by
  unfold Compiling.registerAll at hroom ⊢
  -- After each block the current scope is the global one again, so that the next one can begin.
  induction blocks generalizing places entries c with
  | nil => exact ⟨c, rfl, by simpa using h⟩
  | cons b blocks ih =>
    have hc := h.orderly.reachable.intact
    change ((b.register >>= fun _ => blocks.forM Block.register).after c).Roomy at hroom
    rw [List.flatMap_cons, ← List.append_assoc] at hnodup ⊢
    have hfirst : ((entries ++ b.entries).map groupKey).Nodup := by
      rw [List.map_append] at hnodup
      exact hnodup.of_append_left
    obtain ⟨c₁, hrun, hwritten, hglobal⟩ := h.registerBlock hglobal (hparse b List.mem_cons_self)
      (hkind b List.mem_cons_self) hfirst
      (roomy_of_bind hc (Compiling.blockRegister_runs hc b)
        (fun _ _ hc' => Compiling.registerAll_runs hc' blocks) hroom)
    rw [Compiling.after, Compiling.run_bind_of_ok hrun] at hroom
    change ∃ c', (b.register >>= fun _ => blocks.forM Block.register).run c = _ ∧ _
    rw [Compiling.run_bind_of_ok hrun, List.map_cons, List.append_cons]
    exact ih hwritten hglobal (fun b hb => hparse b (List.mem_cons_of_mem _ hb))
      (fun b hb => hkind b (List.mem_cons_of_mem _ hb)) hnodup hroom

/-- What was written alike is found at the same paths. -/
theorem transplanted (h : Written config places entries c) (h' : Written config places entries c') :
    Transplanted c [] c' where
  config := h'.config.trans h.config.symm
  chosen := .inl rfl
  spaces q := (h.spaces q).trans (h'.spaces q).symm
  explicit _ q := (h'.explicit q).trans (h.explicit q).symm
  definitions q identity :=
    ⟨fun ⟨_, hid⟩ => h'.exists_of_mem (h.only q identity _ hid),
      fun ⟨_, hid⟩ => h.exists_of_mem (h'.only q identity _ hid)⟩
  stored q identity id id' hid hid' := by
    obtain ⟨e, he, hkey⟩ := List.mem_map.1 (h.only q identity id hid)
    obtain ⟨rfl, rfl⟩ := Prod.mk.inj hkey
    obtain ⟨id₁, home, scope, hid₁, hd⟩ := h.stored e he
    obtain ⟨id₂, home', scope', hid₂, hd'⟩ := h'.stored e he
    obtain rfl := hid₁.unique hid
    obtain rfl := hid₂.unique hid'
    exact ⟨_, home', scope', hd, hd'⟩
  aliases q name m hm := absurd hm (h.aliases q name m)
  aliases_only q name m hm := absurd hm (h'.aliases q name m)
  outer before hbefore hne := absurd (List.prefix_nil.1 hbefore) hne

end Written

/-! ## What is asked from outside -/

theorem namespaceAt_cases (path : String) :
    (∀ c : Compilation, c.namespaceAt path = .ok none) ∨
      ∃ q, ∀ c : Compilation, c.namespaceAt path = c.namespaces.follow .root q := by
  unfold namespaceAt
  split
  · exact .inr ⟨[], fun _ => rfl⟩
  · cases Name.parseDotted path.toList with
    | error e => exact .inl fun _ => rfl
    | ok segments => exact .inr ⟨segments, fun _ => rfl⟩

variable {strict : Prop} {S : NamespaceId → NamespaceId → Prop}

theorem pairs_namespaceAt (h : Mirrors strict S c.library c'.library) (hroot : S .root .root)
    (path : String) : Pairs (Option.Rel S) (c.namespaceAt path) (c'.namespaceAt path) := by
  rcases namespaceAt_cases path with hnone | ⟨q, hfollow⟩
  · rw [hnone, hnone]
    exact .pure .none
  · rw [hfollow, hfollow]
    exact h.pairs_follow q hroot

theorem pairs_findDefinition (h : Mirrors strict S c.library c'.library) (hroot : S .root .root)
    (path : String) (identity : Identity) :
    Pairs (Option.Rel (Twins S c.library c'.library)) (c.findDefinition path identity)
      (c'.findDefinition path identity) := by
  apply (pairs_namespaceAt h hroot path).bind
  intro _ _ hspaces
  cases hspaces with
  | none => exact .pure .none
  | @some ns ns' hns =>
    have hholds : c.namespaces.table.Holds ns := h.holds ns ns' hns
    have hholds' : c'.namespaces.table.Holds ns' := h.holds' ns ns' hns
    change Pairs _ (c.namespaces.definitionIn ns identity) (c'.namespaces.definitionIn ns' identity)
    rw [NamespaceTree.definitionIn_eq hholds, NamespaceTree.definitionIn_eq hholds']
    exact .pure (h.definition_rel hns identity)

theorem carries_resolveText (h : Mirrors strict S c.library c'.library) {ns ns' : NamespaceId}
    (hns : S ns ns') (token : String) (expected : Category) :
    Carries strict (Twins S c.library c'.library) (c.library.resolveText ns token expected)
      (c'.library.resolveText ns' token expected) := by
  unfold Library.resolveText
  split
  · exact h.carries_resolve _ expected hns
  · exact fun _ => rfl

/-- Without rules, what a token means may be used. -/
theorem outcome_definitionFor (hc : c.Closed) (hrules : c.rules = []) {ns : NamespaceId}
    (hns : c.namespaces.table.Holds ns) (token : String) (expected : Category) :
    (Compiling.definitionFor token expected ⟨.global, ns⟩).outcome c =
      c.library.resolveText ns token expected := by
  have hsite : UseSite.Within c.environment ⟨.global, ns⟩ := ⟨hc.global, hns⟩
  have hallows (target : Use) : c.environment.Allows ⟨.global, ns⟩ target := by
    refine (violation_eq hsite target).trans ?_
    simp [hrules]
  rw [Compiling.definitionFor, Compiling.outcome_recording]
  unfold Compiling.parseName Library.resolveText
  cases Name.parse token with
  | error e => rfl
  | ok n =>
    change (liftM (c.environment.resolveUse ⟨.global, ns⟩ n expected) : Compiling DefId).outcome c =
      c.library.resolve ns n expected
    have huse : c.environment.resolveUse ⟨.global, ns⟩ n expected =
        c.library.resolve ns n expected := by
      unfold Environment.resolveUse
      have hclosed : c.environment.library.Closed := hc.library
      rcases Environment.answers_resolve hclosed hns n expected with
        ⟨id, hid, hholds⟩ | ⟨e, he⟩
      · obtain ⟨d, hd⟩ := hholds.exists_get?
        have hcheck := Environment.checkUseOf_eq_ok.2 ⟨d, hd, hallows (.definition d.identity)⟩
        rw [hid, show c.library.resolve ns n expected = _ from hid]
        change (c.environment.checkUseOf ⟨.global, ns⟩ id >>= fun _ => _) = _
        rw [hcheck]
        rfl
      · rw [he, show c.library.resolve ns n expected = _ from he]
        rfl
    rw [huse]
    cases c.library.resolve ns n expected <;> rfl

theorem pathTo_of_holds {ns : NamespaceId} (h : c.namespaces.table.Holds ns) :
    c.pathTo ns = .ok (".".intercalate (c.namespaces.path ns)) := by
  obtain ⟨n, hn⟩ := h.exists_get?
  rw [pathTo, NamespaceTree.pathOf, NamespaceTree.find, Arena.find_of_get? hn]
  rfl

theorem Ordered.pathTo_eq (hc : c.Ordered) {ns : NamespaceId} (hns : c.SpaceAt q ns) :
    c.pathTo ns = .ok (".".intercalate q) := by
  rw [pathTo_of_holds (hc.linked.holds hns), hc.linked.path_eq hns]

/-- Either nothing is found in both, or definitions that are stored alike and have the same content. -/
def SameFound (c c' : Compilation) (r r' : Except Fault (Option DefId)) : Prop :=
  r = .ok none ∧ r' = .ok none ∨
    ∃ id id' d d', r = .ok (some id) ∧ r' = .ok (some id') ∧ c.definitions.get? id = some d ∧
      c'.definitions.get? id' = some d' ∧ d'.edges = d.edges ∧ d'.body = d.body ∧
      d'.noValue = d.noValue ∧
      (Compiling.contentOf id).outcome c = (Compiling.contentOf id').outcome c'

/-- Either both are the same error, or definitions of one identity in namespaces of one path. -/
def SameMeaning (c c' : Compilation) (r r' : Except Failure DefId) : Prop :=
  (∃ e, r = .error e ∧ r' = .error e) ∨
    ∃ id id' d d' place, r = .ok id ∧ r' = .ok id' ∧ c.definitions.get? id = some d ∧
      c'.definitions.get? id' = some d' ∧ d'.identity = d.identity ∧
      c.pathTo d.home = .ok place ∧ c'.pathTo d'.home = .ok place

/-- The two compilations give the same for the same paths, identities and tokens. -/
structure Indistinct (c c' : Compilation) : Prop where
  found : ∀ path identity,
    SameFound c c' (c.findDefinition path identity) (c'.findDefinition path identity)
  spaces : ∀ path, (∃ ns, c.namespaceAt path = .ok (some ns)) ↔
    ∃ ns, c'.namespaceAt path = .ok (some ns)
  meanings : ∀ path ns ns', c.namespaceAt path = .ok (some ns) →
    c'.namespaceAt path = .ok (some ns') → ∀ token expected,
      SameMeaning c c' ((Compiling.definitionFor token expected ⟨.global, ns⟩).outcome c)
        ((Compiling.definitionFor token expected ⟨.global, ns'⟩).outcome c')

namespace Written

theorem sameFound (h : Written config places entries c) (h' : Written config places entries c')
    (hc : c.Ordered) (hc' : c'.Ordered) (path : String) (identity : Identity) :
    SameFound c c' (c.findDefinition path identity) (c'.findDefinition path identity) := by
  have hmirrors := (h.transplanted h').mirrors hc hc'
  have hroot : SamePlace c [] c' .root .root :=
    ⟨[], NamespaceTree.leads_nil.2 rfl, NamespaceTree.leads_nil.2 rfl⟩
  obtain ⟨_, _, hfound, hfound', htwins⟩ := pairs_findDefinition hmirrors hroot path identity
  cases htwins with
  | none => exact .inl ⟨hfound, hfound'⟩
  | @some id id' hid =>
    obtain ⟨d, home, scope, -, hd, hd'⟩ := hmirrors.exists_stored hid
    have hcontent := contentOf_carries hmirrors hid (hmirrors.deletesAlike rfl id)
      (by rw [h.session]; rfl) (by rw [h'.session]; rfl)
    exact .inr ⟨id, id', d, _, hfound, hfound', hd, hd', rfl, rfl, rfl, hcontent.eq rfl⟩

theorem sameMeaning (h : Written config places entries c) (h' : Written config places entries c')
    (hc : c.Ordered) (hc' : c'.Ordered) {ns ns' : NamespaceId} (hns : SamePlace c [] c' ns ns')
    (token : String) (expected : Category) :
    SameMeaning c c' ((Compiling.definitionFor token expected ⟨.global, ns⟩).outcome c)
      ((Compiling.definitionFor token expected ⟨.global, ns'⟩).outcome c') := by
  have hmirrors := (h.transplanted h').mirrors hc hc'
  rw [outcome_definitionFor hc.closed h.rules (hmirrors.holds ns ns' hns),
    outcome_definitionFor hc'.closed h'.rules (hmirrors.holds' ns ns' hns)]
  have hcarries := carries_resolveText hmirrors hns token expected
  cases hr : c.library.resolveText ns token expected with
  | error e =>
    rw [hr] at hcarries
    exact .inl ⟨e, rfl, hcarries rfl⟩
  | ok id =>
    obtain ⟨id', hid', htwins⟩ := hcarries.ok hr
    obtain ⟨d, home, scope, ⟨q, hq, hq'⟩, hd, hd'⟩ := hmirrors.exists_stored htwins
    exact .inr ⟨id, id', d, _, _, rfl, hid', hd, hd', rfl, hc.pathTo_eq hq, hc'.pathTo_eq hq'⟩

theorem indistinct (h : Written config places entries c) (h' : Written config places entries c')
    (hroom : c.Roomy) (hroom' : c'.Roomy) : Indistinct c c' := by
  have hc := h.orderly.reachable.ordered hroom.toFits
  have hc' := h'.orderly.reachable.ordered hroom'.toFits
  have hroot : SamePlace c [] c' .root .root :=
    ⟨[], NamespaceTree.leads_nil.2 rfl, NamespaceTree.leads_nil.2 rfl⟩
  have hspaces := pairs_namespaceAt ((h.transplanted h').mirrors hc hc') hroot
  refine ⟨h.sameFound h' hc hc', fun path => ?_, fun path ns ns' hns hns' => ?_⟩
  · obtain ⟨_, _, hfound, hfound', hrel⟩ := hspaces path
    rw [hfound, hfound']
    cases hrel <;> simp
  · obtain ⟨_, _, hfound, hfound', hrel⟩ := hspaces path
    obtain rfl := Except.ok.inj (hfound.symm.trans hns)
    obtain rfl := Except.ok.inj (hfound'.symm.trans hns')
    cases hrel with
    | some hplace => exact h.sameMeaning h' hc hc' hplace

end Written

/-- What registering the blocks leaves. -/
def ofBlocks (config : Config) (blocks : List Block) : Compilation :=
  (Compiling.registerAll blocks).after (.initial config)

theorem written_ofBlocks {blocks : List Block} (h : Arranges blocks places entries)
    (hkind : ∀ e ∈ entries, e.2.body.kind = e.2.identity.kind)
    (hdistinct : (entries.map groupKey).Nodup) (hroom : (ofBlocks config blocks).Roomy) :
    (Compiling.registerAll blocks).outcome (.initial config) = .ok () ∧
      Written config places entries (ofBlocks config blocks) := by
  have hkind (b) (hb : b ∈ blocks) (g) (hg : g ∈ b.groups) : g.body.kind = g.identity.kind :=
    hkind (b.place, g) (h.entries.mem_iff.1 (List.mem_flatMap.2 ⟨b, hb, List.mem_map_of_mem hg⟩))
  have hparse (b) (hb : b ∈ blocks) : b.segments = .ok b.place := by
    obtain ⟨segments, hsegments⟩ := h.parsed b hb
    rw [Block.place_eq hsegments, hsegments]
  obtain ⟨c, hrun, hwritten⟩ := (Written.start config).registerAll rfl hparse hkind
    ((h.entries.map groupKey).nodup_iff.2 hdistinct) hroom
  rw [ofBlocks, Compiling.outcome, Compiling.after, hrun]
  exact ⟨rfl, hwritten.congr h.places h.entries⟩

/-- Two texts have blocks with the same places and the same groups in them, in whatever order and
grouping. No two groups at a place have the same identity, and each has a body of its kind. Then all
blocks are registered without a diagnostic, and nothing that is asked by paths, identities and tokens
tells the two texts apart. -/
theorem blocks_merge {blocks blocks' : List Block} (h : Arranges blocks places entries)
    (h' : Arranges blocks' places entries)
    (hkind : ∀ e ∈ entries, e.2.body.kind = e.2.identity.kind)
    (hdistinct : (entries.map groupKey).Nodup) (hroom : (ofBlocks config blocks).Roomy)
    (hroom' : (ofBlocks config blocks').Roomy) :
    (Compiling.registerAll blocks).outcome (.initial config) = .ok () ∧
    (Compiling.registerAll blocks').outcome (.initial config) = .ok () ∧
    (ofBlocks config blocks).diagnostics = [] ∧ (ofBlocks config blocks').diagnostics = [] ∧
    Indistinct (ofBlocks config blocks) (ofBlocks config blocks') := by
  obtain ⟨hok, hwritten⟩ := written_ofBlocks h hkind hdistinct hroom
  obtain ⟨hok', hwritten'⟩ := written_ofBlocks h' hkind hdistinct hroom'
  have hquiet {c : Compilation} (h : Written config places entries c) : c.diagnostics = [] :=
    congrArg Session.diagnostics h.session
  exact ⟨hok, hok', hquiet hwritten, hquiet hwritten', hwritten.indistinct hwritten' hroom hroom'⟩

end Compilation

/-- A custom style group of one property. -/
def ware (name property : String) (edges : List Inheritance) : Group :=
  ⟨⟨.custom, .style, name⟩, .style (.ofList [(property, .concrete "1px")]), edges, .empty, none⟩

def jar : Group := ware "Jar" "width" []

/-- A lid that inherits from the jar. -/
def lid : Group := ware "Lid" "height" [⟨.ofKind .style "Jar", .explicit, [], none⟩]

def tin : Group := ware "Tin" "margin" []

/-- One block for each namespace. -/
def pantry : List Block := [⟨"pantry", [jar]⟩, ⟨"pantry.shelf", [lid, tin]⟩]

/-- The same in four blocks, the other way round. -/
def pantryAgain : List Block :=
  [⟨"pantry.shelf", [tin]⟩, ⟨"pantry", []⟩, ⟨"pantry.shelf", [lid]⟩, ⟨" pantry ", [jar]⟩]

def wares : List (List String × Group) :=
  [(["pantry"], jar), (["pantry", "shelf"], lid), (["pantry", "shelf"], tin)]

theorem pantry_arranges : Arranges pantry [["pantry"], ["pantry", "shelf"]] wares := by
  have hplaces : pantry.map Block.place = [["pantry"], ["pantry", "shelf"]] := by decide +kernel
  have hparsed : ∀ b ∈ pantry, b.segments = .ok b.place := by decide +kernel
  refine ⟨fun b hb => ⟨b.place, hparsed b hb⟩, fun q => by rw [hplaces], ?_⟩
  simp only [pantry, List.map_cons, List.map_nil, List.cons.injEq] at hplaces
  simp [pantry, wares, Block.entries, hplaces]

theorem pantryAgain_arranges :
    Arranges pantryAgain [["pantry"], ["pantry", "shelf"]] wares := by
  have hplaces : pantryAgain.map Block.place =
      [["pantry", "shelf"], ["pantry"], ["pantry", "shelf"], ["pantry"]] := by
    decide +kernel
  have hparsed : ∀ b ∈ pantryAgain, b.segments = .ok b.place := by decide +kernel
  refine ⟨fun b hb => ⟨b.place, hparsed b hb⟩, fun q => ?_, ?_⟩
  · rw [hplaces]
    simp only [List.mem_cons, List.not_mem_nil, or_false]
    tauto
  · simp only [pantryAgain, List.map_cons, List.map_nil, List.cons.injEq] at hplaces
    have hreverse : pantryAgain.flatMap Block.entries = wares.reverse := by
      simp [pantryAgain, wares, Block.entries, hplaces]
    exact hreverse ▸ wares.reverse_perm

/-- The lid finds its jar, whichever of both comes first. -/
theorem blocks_merge_pantry :
    (ofBlocks .initial pantry).Roomy ∧ (ofBlocks .initial pantryAgain).Roomy ∧
    Indistinct (ofBlocks .initial pantry) (ofBlocks .initial pantryAgain) ∧
    (ofBlocks .initial pantry).findDefinition "pantry.shelf" lid.identity = .ok (some ⟨1⟩) ∧
    ((Compiling.contentOf ⟨1⟩).outcome (ofBlocks .initial pantry)).map Content.size = .ok 2 := by
  have hroom : (ofBlocks .initial pantry).Roomy :=
    ⟨⟨by decide +kernel, by decide +kernel⟩, by decide +kernel⟩
  have hroom' : (ofBlocks .initial pantryAgain).Roomy :=
    ⟨⟨by decide +kernel, by decide +kernel⟩, by decide +kernel⟩
  obtain ⟨-, -, -, -, hindistinct⟩ := blocks_merge pantry_arranges pantryAgain_arranges
    (by decide +kernel) (by decide +kernel) hroom hroom'
  exact ⟨hroom, hroom', hindistinct, by decide +kernel, by decide +kernel⟩

end Stencil
