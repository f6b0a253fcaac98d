import Stencil.Proofs.RequestOrder
import Stencil.Proofs.Transport
import Stencil.Proofs.Union

/-! # A compilation inside another

A compilation that was imported below a path at which there was nothing is found there again: each of
its namespaces and definitions has a counterpart at the place below that path. So names that mean
something mean the counterparts, and content is the same. What is around the place of the import may
give a meaning to names that had none before.
-/
namespace Stencil.Compilation

open Library

variable {c c' : Compilation} {path q : List String} {a a' : NamespaceId}

/-- The second namespace is at the place below `path` at which the first is in `c`. -/
def SamePlace (c : Compilation) (path : List String) (c' : Compilation) (a a' : NamespaceId) :
    Prop :=
  ∃ q, c.SpaceAt q a ∧ c'.SpaceAt (path ++ q) a'

/-- Below `path`, `c'` holds what `c` holds, and nothing else. -/
structure Transplanted (c : Compilation) (path : List String) (c' : Compilation) : Prop where
  config : c'.config = c.config
  chosen : path = [] ∨ c.config.strategy = .preferCurrent
  spaces : ∀ q, (∃ ns, c.SpaceAt q ns) ↔ ∃ ns, c'.SpaceAt (path ++ q) ns
  explicit : path = [] → ∀ q, c'.ExplicitAt q ↔ c.ExplicitAt q
  definitions : ∀ q identity,
    (∃ id, c.DefinedAt q identity id) ↔ ∃ id, c'.DefinedAt (path ++ q) identity id
  stored : ∀ q identity id id', c.DefinedAt q identity id →
    c'.DefinedAt (path ++ q) identity id' → ∃ d home scope, c.definitions.get? id = some d ∧
      c'.definitions.get? id' = some { d with home := home, scope := scope }
  aliases : ∀ q name m, c.NamedAt q name m →
    ∃ m', c'.NamedAt (path ++ q) name m' ∧ Corresponds c path c' m m'
  aliases_only : ∀ q name m', c'.NamedAt (path ++ q) name m' → ∃ m, c.NamedAt q name m
  outer : ∀ before, before <+: path → before ≠ path →
    ∀ name id, ¬ c'.NamedAt before name (.definition id)

theorem definedAt_iff (ha : c.SpaceAt q a) {identity : Identity} {id : DefId} :
    c.DefinedAt q identity id ↔ c.namespaces.definition? a identity = some id := by
  constructor
  · rintro ⟨ns, hns, hid⟩
    exact ha.unique hns ▸ hid
  · exact fun hid => ⟨a, ha, hid⟩

theorem DefinedAt.lists {identity : Identity} {id : DefId} (h : c.DefinedAt q identity id) :
    c.namespaces.Lists id := by
  obtain ⟨ns, -, hid⟩ := h
  obtain ⟨n, hn, hid⟩ := Option.bind_eq_some_iff.1 hid
  exact ⟨ns, n, identity, hn, hid⟩

theorem namedAt_iff (ha : c.SpaceAt q a) {name : String} {m : Meaning} :
    c.NamedAt q name m ↔ c.namespaces.alias? a name = some m := by
  constructor
  · rintro ⟨ns, hns, hm⟩
    exact ha.unique hns ▸ hm
  · exact fun hm => ⟨a, ha, hm⟩

theorem explicitAt_iff (ha : c.SpaceAt q a) : c.ExplicitAt q ↔ c.namespaces.Explicit a := by
  constructor
  · rintro ⟨ns, hns, hexplicit⟩
    exact ha.unique hns ▸ hexplicit
  · exact fun hexplicit => ⟨a, ha, hexplicit⟩

/-- What makes the tables of a compilation those of a tree of namespaces. -/
structure Ordered (c : Compilation) : Prop where
  closed : c.Closed
  linked : c.namespaces.Linked
  filed : c.Filed

theorem Reachable.ordered (hc : c.Reachable) (hfits : c.Fits) : c.Ordered :=
  ⟨hc.intact.toClosed, hc.linked hfits, hc.filed hfits⟩

theorem Ordered.exists_stored (hc : c.Ordered) {identity : Identity} {id : DefId}
    (hid : c.DefinedAt q identity id) :
    ∃ d, c.definitions.get? id = some d ∧ d.identity = identity ∧ c.SpaceAt q d.home := by
  obtain ⟨ns, hns, hid⟩ := hid
  obtain ⟨n, hn, hid⟩ := Option.bind_eq_some_iff.1 hid
  obtain ⟨d, hd, hidentity, rfl⟩ := hc.filed ns n hn identity id hid
  exact ⟨d, hd, hidentity, hns⟩

theorem Ordered.definedAt_home (hc : c.Ordered) {identity : Identity} {id : DefId}
    {d : Definition} (hid : c.DefinedAt q identity id) (hd : c.definitions.get? id = some d) :
    d.identity = identity ∧ c.SpaceAt q d.home := by
  obtain ⟨d', hd', hstored⟩ := hc.exists_stored hid
  exact Option.some.inj (hd'.symm.trans hd) ▸ hstored

namespace SamePlace

theorem unique (hc : c.Ordered) (hc' : c'.Ordered) :
    Relator.BiUnique (SamePlace c path c') := by
  constructor
  · rintro a a' b ⟨q, ha, ha'⟩ ⟨r, hb, hb'⟩
    obtain rfl := List.append_cancel_left (hc'.linked.leads_unique ha' hb')
    exact ha.unique hb
  · rintro a a' b ⟨q, ha, ha'⟩ ⟨r, hb, hb'⟩
    obtain rfl := hc.linked.leads_unique ha hb
    exact ha'.unique hb'

/-- The way outwards from the end of a path leads on along the shorter paths. -/
theorem exists_rest (hc' : c'.Ordered) (ha' : c'.SpaceAt path a') :
    ∃ rest, c'.namespaces.outward a' = a' :: rest ∧ (path = [] → rest = []) ∧
      ∀ x ∈ rest, ∃ before, before <+: path ∧ before ≠ path ∧ c'.SpaceAt before x := by
  rcases List.eq_nil_or_concat' path with rfl | ⟨path, name, rfl⟩
  · obtain rfl := NamespaceTree.leads_nil.1 ha'
    exact ⟨[], hc'.linked.outward_root, fun _ => rfl, nofun⟩
  · obtain ⟨m, hm, hchild⟩ := NamespaceTree.leads_concat.1 ha'
    refine ⟨_, hc'.linked.outward_child hchild, by simp, fun x hx => ?_⟩
    obtain ⟨before, hbefore, hx⟩ := (hc'.linked.mem_outward_iff hm).1 hx
    refine ⟨before, hbefore.trans (List.prefix_append _ _), ?_, hx⟩
    rintro rfl
    have hlength := hbefore.length_le
    rw [List.length_append, List.length_singleton] at hlength
    omega

theorem outward (hc : c.Ordered) (hc' : c'.Ordered) (ha : SamePlace c path c' a a') :
    ∃ front rest, c'.namespaces.outward a' = front ++ rest ∧
      List.Forall₂ (SamePlace c path c') (c.namespaces.outward a) front ∧
      (path = [] → rest = []) ∧
      ∀ x ∈ rest, ∃ before, before <+: path ∧ before ≠ path ∧ c'.SpaceAt before x := by
  obtain ⟨q, ha, ha'⟩ := ha
  induction q using List.reverseRecOn generalizing a a' with
  | nil =>
    rw [List.append_nil] at ha'
    obtain rfl := NamespaceTree.leads_nil.1 ha
    obtain ⟨rest, hrest, hstrict, houter⟩ := exists_rest hc' ha'
    refine ⟨[a'], rest, hrest, ?_, hstrict, houter⟩
    rw [hc.linked.outward_root]
    exact .cons ⟨[], ha, by rwa [List.append_nil]⟩ .nil
  | append_singleton q name ih =>
    obtain ⟨m, hm, hchild⟩ := NamespaceTree.leads_concat.1 ha
    have happend := ha'
    rw [SpaceAt, ← List.append_assoc] at happend
    obtain ⟨m', hm', hchild'⟩ := NamespaceTree.leads_concat.1 happend
    obtain ⟨front, rest, hfront, hrel, hstrict, houter⟩ := ih hm hm'
    refine ⟨a' :: front, rest, ?_, ?_, hstrict, houter⟩
    · rw [hc'.linked.outward_child hchild', hfront, List.cons_append]
    · rw [hc.linked.outward_child hchild]
      exact .cons ⟨_, ha, ha'⟩ hrel

end SamePlace

/-- Definitions at the same place are counterparts. -/
theorem twins_of_definedAt {identity : Identity} {id id' : DefId}
    (hid : c.DefinedAt q identity id) (hid' : c'.DefinedAt (path ++ q) identity id') :
    Twins (SamePlace c path c') c.library c'.library id id' := by
  obtain ⟨a, ha, hid⟩ := hid
  obtain ⟨a', ha', hid'⟩ := hid'
  exact ⟨a, a', identity, ⟨q, ha, ha'⟩, hid, hid'⟩

theorem exists_definedAt {id id' : DefId}
    (h : Twins (SamePlace c path c') c.library c'.library id id') :
    ∃ q identity, c.DefinedAt q identity id ∧ c'.DefinedAt (path ++ q) identity id' := by
  obtain ⟨a, a', identity, ⟨q, ha, ha'⟩, hid, hid'⟩ := h
  exact ⟨q, identity, ⟨a, ha, hid⟩, ⟨a', ha', hid'⟩⟩

theorem Corresponds.matches {m m' : Meaning} (h : Corresponds c path c' m m') :
    Meaning.Matches (SamePlace c path c') (Twins (SamePlace c path c') c.library c'.library) m m' := by
  cases h with
  | definition hold hid => exact .definition (twins_of_definedAt hold hid)
  | space hns hns' => exact .space ⟨_, hns, hns'⟩

namespace Transplanted

theorem children (h : Transplanted c path c') (ha : SamePlace c path c' a a') (name : String) :
    Option.Rel (SamePlace c path c') (c.namespaces.child? a name)
      (c'.namespaces.child? a' name) := by
  obtain ⟨q, ha, ha'⟩ := ha
  have hspaces := h.spaces (q ++ [name])
  rw [← List.append_assoc] at hspaces
  have hsome (b : NamespaceId) (hb : c.namespaces.child? a name = some b) :
      ∃ b', c'.namespaces.child? a' name = some b' ∧ SamePlace c path c' b b' := by
    have hspace : c.SpaceAt (q ++ [name]) b := NamespaceTree.leads_concat.2 ⟨a, ha, hb⟩
    obtain ⟨b', hb'⟩ := hspaces.1 ⟨b, hspace⟩
    obtain ⟨m, hm, hchild⟩ := NamespaceTree.leads_concat.1 hb'
    rw [List.append_assoc] at hb'
    exact ⟨b', hm.unique ha' ▸ hchild, ⟨_, hspace, hb'⟩⟩
  cases hb : c.namespaces.child? a name with
  | some b =>
    obtain ⟨b', hb', hplace⟩ := hsome b hb
    rw [hb']
    exact .some hplace
  | none =>
    cases hb' : c'.namespaces.child? a' name with
    | none => exact .none
    | some b' =>
      obtain ⟨b, hspace⟩ := hspaces.2 ⟨b', NamespaceTree.leads_concat.2 ⟨a', ha', hb'⟩⟩
      obtain ⟨m, hm, hchild⟩ := NamespaceTree.leads_concat.1 hspace
      rw [hm.unique ha, hb] at hchild
      cases hchild

theorem alias_rel (h : Transplanted c path c') (ha : SamePlace c path c' a a') (name : String) :
    Option.Rel (Meaning.Matches (SamePlace c path c')
        (Twins (SamePlace c path c') c.library c'.library))
      (c.namespaces.alias? a name) (c'.namespaces.alias? a' name) := by
  obtain ⟨q, ha, ha'⟩ := ha
  cases hm : c.namespaces.alias? a name with
  | some m =>
    obtain ⟨m', hm', hcorresponds⟩ := h.aliases q name m ((namedAt_iff ha).2 hm)
    rw [(namedAt_iff ha').1 hm']
    exact .some hcorresponds.matches
  | none =>
    cases hm' : c'.namespaces.alias? a' name with
    | none => exact .none
    | some m' =>
      obtain ⟨m, hnamed⟩ := h.aliases_only q name m' ((namedAt_iff ha').2 hm')
      rw [(namedAt_iff ha).1 hnamed] at hm
      cases hm

theorem explicit_eq (h : Transplanted c path c') (hc : c.Ordered) (hc' : c'.Ordered)
    (hpath : path = []) (ha : SamePlace c path c' a a') :
    (c'.namespaces.table.get? a').map Namespace.explicit =
      (c.namespaces.table.get? a).map Namespace.explicit := by
  subst hpath
  obtain ⟨q, ha, ha'⟩ := ha
  rw [List.nil_append] at ha'
  obtain ⟨n, hn⟩ := (hc.linked.holds ha).exists_get?
  obtain ⟨n', hn'⟩ := (hc'.linked.holds ha').exists_get?
  have hiff : n'.explicit = true ↔ n.explicit = true := by
    have hexplicit := h.explicit rfl q
    rw [explicitAt_iff ha, explicitAt_iff ha'] at hexplicit
    simpa [NamespaceTree.Explicit, hn, hn'] using hexplicit
  rw [hn, hn', Option.map_some, Option.map_some, Bool.eq_iff_iff.2 hiff]

/-- What is found again below a path has counterparts there. -/
theorem mirrors (h : Transplanted c path c') (hc : c.Ordered) (hc' : c'.Ordered) :
    Mirrors (path = []) (SamePlace c path c') c.library c'.library where
  closed := hc.closed.library
  closed' := hc'.closed.library
  strategy := congrArg Config.strategy h.config
  firstIndex := congrArg Config.firstIndex h.config
  chosen := h.chosen
  unique := SamePlace.unique hc hc'
  holds _ _ := fun ⟨_, ha, _⟩ => hc.linked.holds ha
  holds' _ _ := fun ⟨_, _, ha'⟩ => hc'.linked.holds ha'
  outward a a' ha := by
    obtain ⟨front, rest, hfront, hrel, hstrict, houter⟩ := ha.outward hc hc'
    refine ⟨front, rest, hfront, hrel, hstrict, fun x hx name id hid => ?_⟩
    obtain ⟨before, hbefore, hne, hx⟩ := houter x hx
    exact h.outer before hbefore hne name id ⟨x, hx, hid⟩
  children _ _ := h.children
  aliases _ _ := h.alias_rel
  definitions := by
    rintro a a' ⟨q, ha, ha'⟩ identity
    have hdefined := h.definitions q identity
    simp only [definedAt_iff ha, definedAt_iff ha', ← Option.isSome_iff_exists] at hdefined
    exact Bool.eq_iff_iff.2 hdefined.symm
  stored := by
    rintro a a' identity id id' ⟨q, ha, ha'⟩ hid hid'
    have hdefined : c.DefinedAt q identity id := ⟨a, ha, hid⟩
    have hdefined' : c'.DefinedAt (path ++ q) identity id' := ⟨a', ha', hid'⟩
    obtain ⟨d, home, scope, hd, hd'⟩ := h.stored q identity id id' hdefined hdefined'
    obtain ⟨hidentity, hhome⟩ := hc.definedAt_home hdefined hd
    obtain ⟨-, hhome'⟩ := hc'.definedAt_home hdefined' hd'
    obtain rfl := ha.unique hhome
    obtain rfl : a' = home := ha'.unique hhome'
    exact ⟨d, scope, hd, hidentity, rfl, hd'⟩
  paths := by
    rintro rfl a a' ⟨q, ha, ha'⟩
    exact (hc'.linked.path_eq ha').trans (hc.linked.path_eq ha).symm
  explicit hpath _ _ := h.explicit_eq hc hc' hpath

end Transplanted

/-! ## An import to a new place -/

variable {other : Compilation} {mapping : List NamespaceId}

theorem not_spaceAt_append (hfresh : ∀ ns, ¬ c.SpaceAt path ns) (q : List String)
    (ns : NamespaceId) : ¬ c.SpaceAt (path ++ q) ns := by
  intro hns
  obtain ⟨m, hm, -⟩ := NamespaceTree.leads_append.1 hns
  exact hfresh m hm

theorem eq_nil_of_append_le (h : path ++ q <+: path) : q = [] := by
  have hlength := h.length_le
  rw [List.length_append] at hlength
  exact List.length_eq_zero_iff.1 (by omega)

namespace Union

/-- At a new place each definition is a copy of the one that was imported. -/
theorem exists_copy (h : Union c other path mapping c') (hfresh : ∀ ns, ¬ c.SpaceAt path ns)
    {identity : Identity} {id : DefId} (hid : other.DefinedAt q identity id) :
    ∃ d ns id', other.definitions.get? id = some d ∧ c'.SpaceAt (path ++ q) ns ∧
      c'.DefinedAt (path ++ q) identity id' ∧ c'.definitions.get? id' = some (d.movedTo ns) := by
  obtain ⟨d, ns, id', hd, hns, hid', -, hd'⟩ := h.definitions_copied q identity id hid
    fun _ ⟨ns, hns, _⟩ => not_spaceAt_append hfresh q ns hns
  exact ⟨d, ns, id', hd, hns, hid', hd'⟩

/-- Below a path at which there was nothing, an import leaves what it brings and nothing else. -/
theorem transplanted (h : Union c other path mapping c') (hfresh : ∀ ns, ¬ c.SpaceAt path ns)
    (hconfig : other.config = c.config) (hstrategy : c.config.strategy = .preferCurrent)
    (houter : ∀ before, before <+: path → before ≠ path →
      ∀ name id, ¬ c.NamedAt before name (.definition id)) :
    Transplanted other path c' where
  config := h.config.trans hconfig.symm
  chosen := .inr (hconfig ▸ hstrategy)
  spaces q := by
    constructor
    · rintro ⟨ns, hns⟩
      obtain ⟨ns', -, hns'⟩ := h.spaces_placed q ns hns
      exact ⟨ns', hns'⟩
    · rintro ⟨ns, hns⟩
      rcases h.spaces_only _ ns hns with hold | hprefix | ⟨r, o, hr, ho⟩
      · exact absurd hold (not_spaceAt_append hfresh q ns)
      · rw [eq_nil_of_append_le hprefix]
        exact ⟨.root, NamespaceTree.leads_nil.2 rfl⟩
      · exact ⟨o, List.append_cancel_left hr ▸ ho⟩
  explicit := by
    rintro rfl
    exact absurd (NamespaceTree.leads_nil.2 rfl) (hfresh .root)
  definitions q identity := by
    constructor
    · rintro ⟨id, hid⟩
      obtain ⟨-, -, id', -, -, hid', -⟩ := h.exists_copy hfresh hid
      exact ⟨id', hid'⟩
    · rintro ⟨id, hid⟩
      rcases h.definitions_only _ identity id hid with ⟨ns, hns, -⟩ | ⟨r, old, hr, hold⟩
      · exact absurd hns (not_spaceAt_append hfresh q ns)
      · exact ⟨old, List.append_cancel_left hr ▸ hold⟩
  stored q identity id id' hid hid' := by
    obtain ⟨d, ns, id'', hd, hns, hid'', hd'⟩ := h.exists_copy hfresh hid
    obtain rfl := Option.some.inj (((definedAt_iff hns).1 hid').symm.trans
      ((definedAt_iff hns).1 hid''))
    exact ⟨d, ns, .global, hd, hd'⟩
  aliases q name m hm := h.aliases_moved q name m hm
    fun _ ⟨ns, hns, _⟩ => not_spaceAt_append hfresh q ns hns
  aliases_only q name m' hm' := by
    rcases h.aliases_only _ name m' hm' with ⟨ns, hns, -⟩ | ⟨r, m, hr, hm⟩
    · exact absurd hns (not_spaceAt_append hfresh q ns)
    · exact ⟨m, List.append_cancel_left hr ▸ hm⟩
  outer before hbefore hne name id hid := by
    rcases h.aliases_only before name _ hid with hold | ⟨r, m, rfl, -⟩
    · exact houter before hbefore hne name id hold
    · exact hne (by rw [eq_nil_of_append_le hbefore, List.append_nil])

end Union

/-- The compilation with nothing remembered. -/
def forgetting (c : Compilation) : Compilation := { c with session.cache := .empty }

/-- `id'` stands in `c'` for the definition `id` of `other`: it is at the place below `path` that
corresponds, and stored as it was. -/
def MovedCopy (other : Compilation) (path : List String) (c' : Compilation) (id id' : DefId) :
    Prop :=
  ∃ q identity d ns, other.DefinedAt q identity id ∧ other.definitions.get? id = some d ∧
    c'.SpaceAt (path ++ q) ns ∧ c'.DefinedAt (path ++ q) identity id' ∧
    c'.definitions.get? id' = some (d.movedTo ns)

theorem MovedCopy.twins {id id' : DefId} (h : MovedCopy other path c' id id') :
    Twins (SamePlace other path c') other.library c'.library id id' := by
  obtain ⟨q, identity, d, ns, hid, -, -, hid', -⟩ := h
  exact twins_of_definedAt hid hid'

theorem Union.movedCopy (h : Union c other path mapping c') (hfresh : ∀ ns, ¬ c.SpaceAt path ns)
    {id id' : DefId} (hid : Twins (SamePlace other path c') other.library c'.library id id') :
    MovedCopy other path c' id id' := by
  obtain ⟨q, identity, hid, hid'⟩ := exists_definedAt hid
  obtain ⟨d, ns, id'', hd, hns, hid'', hd'⟩ := h.exists_copy hfresh hid
  obtain rfl := Option.some.inj (((definedAt_iff hns).1 hid').symm.trans
    ((definedAt_iff hns).1 hid''))
  exact ⟨q, identity, d, ns, hid, hd, hns, hid', hd'⟩

theorem rememberAlike_of_empty {S : NamespaceId → NamespaceId → Prop} {l l' : Library}
    {s t : Session} (hs : s.cache = .empty) (ht : t.cache = .empty) : RememberAlike S l l' s t := by
  intro id id' _
  rw [hs, ht]
  rfl

/-- Content that is given is given for the counterpart, if nothing is remembered of either. -/
theorem contentOf_carries {strict : Prop} {S : NamespaceId → NamespaceId → Prop}
    (h : Mirrors strict S c.library c'.library) {id id' : DefId}
    (hid : Twins S c.library c'.library id id')
    (hdeletes : DeletesAlike S c.library c'.library id) (hcache : c.session.cache = .empty)
    (hcache' : c'.session.cache = .empty) :
    Carries strict (fun b b' => b = b') ((Compiling.contentOf id).outcome c)
      ((Compiling.contentOf id').outcome c') := by
  obtain ⟨d, home, scope, -, hd, hd'⟩ := h.exists_stored hid
  rw [Compiling.outcome_contentOf_of_some hd, Compiling.outcome_contentOf_of_some hd']
  exact h.content_carries hdeletes hid (rememberAlike_of_empty hcache hcache')

/-- Let `other` be imported below a path at which `c` has nothing, under the same settings, by which
the innermost namespace decides, and with no alias of a definition around that path. Then a name that
means a definition of `other` means its moved copy from the counterpart of the namespace. A definition
and its copy have the same content, if there is content and every name by which an inheritance is to be
taken out of it on the way takes out something in `other` or takes out nothing in the result. -/
theorem Reachable.mount_meaning (hc : c.Reachable) (hother : other.Reachable)
    (hofits : other.Fits) (path : List String)
    (hfits : ((Compiling.mount other path).after c).Fits) (hfresh : ∀ ns, ¬ c.SpaceAt path ns)
    (hconfig : other.config = c.config) (hstrategy : c.config.strategy = .preferCurrent)
    (houter : ∀ before, before <+: path → before ≠ path →
      ∀ name id, ¬ c.NamedAt before name (.definition id)) :
    (∀ ns, other.namespaces.table.Holds ns → ∃ ns',
      SamePlace other path ((Compiling.mount other path).after c) ns ns' ∧
      ∀ n expected id, other.library.resolve ns n expected = .ok id →
        ∃ id', ((Compiling.mount other path).after c).library.resolve ns' n expected = .ok id' ∧
          MovedCopy other path ((Compiling.mount other path).after c) id id') ∧
    ∀ id, other.namespaces.Lists id → ∃ id',
      MovedCopy other path ((Compiling.mount other path).after c) id id' ∧
      (DeletesAlike (SamePlace other path ((Compiling.mount other path).after c)) other.library
          ((Compiling.mount other path).after c).library id →
        ∀ b, (Compiling.contentOf id).outcome other.forgetting = .ok b →
          (Compiling.contentOf id').outcome ((Compiling.mount other path).after c) = .ok b) := by
  obtain ⟨-, mapping, h⟩ := hc.mount_union hother hofits path hfits
  have hordered := hother.ordered hofits
  have hmirrors := (h.transplanted hfresh hconfig hstrategy houter).mirrors hordered
    ((hc.mount path hother).ordered hfits)
  constructor
  · intro ns hns
    obtain ⟨q, hq⟩ := hordered.linked.exists_leads hns
    obtain ⟨ns', -, hns'⟩ := h.spaces_placed q ns hq
    refine ⟨ns', ⟨q, hq, hns'⟩, fun n expected id hid => ?_⟩
    obtain ⟨id', hid', htwins⟩ := (hmirrors.carries_resolve n expected ⟨q, hq, hns'⟩).ok hid
    exact ⟨id', hid', h.movedCopy hfresh htwins⟩
  · rintro id ⟨ns, n, identity, hn, hid⟩
    obtain ⟨q, hq⟩ := hordered.linked.exists_leads (Arena.holds_of_get? hn)
    have hdefined : other.DefinedAt q identity id :=
      ⟨ns, hq, (NamespaceTree.definition?_of_get? hn identity).trans hid⟩
    obtain ⟨d, ns', id', hd, hns', hid', hd'⟩ := h.exists_copy hfresh hdefined
    have hcopy : MovedCopy other path ((Compiling.mount other path).after c) id id' :=
      ⟨q, identity, d, ns', hdefined, hd, hns', hid', hd'⟩
    refine ⟨id', hcopy, fun hdeletes b hb => ?_⟩
    have hcarries := contentOf_carries (c := other.forgetting) hmirrors hcopy.twins
      hdeletes rfl h.cache
    obtain ⟨b', hb', rfl⟩ := hcarries.ok hb
    exact hb'

end Stencil.Compilation

namespace Stencil

open Compilation Library

/-- A style group of one property. -/
def paintwork (name property value : String) (edges : List Inheritance) : Operation :=
  .addGroup ⟨.custom, .style, name⟩ (.style (.ofList [(property, .concrete value)])) edges .empty
    none

/-- A house inherits from a wall and a wall from paint; the house takes the paint out, and looks for it
in the namespace `place`. -/
def cottage (place : List String) : Compilation :=
  Operation.afterAll
    [paintwork "Paint" "color" "red" [],
      paintwork "Wall" "width" "1px" [⟨.ofKind .style "Paint", .explicit, [], none⟩],
      paintwork "House" "margin" "0" [⟨.ofKind .style "Wall", .explicit,
        [.deleteInheritance ⟨none, some .style, place, "Paint"⟩], none⟩]]
    (.initial .initial)

/-- A garden with paint of its own. -/
def garden : Compilation :=
  Operation.afterAll [paintwork "Paint" "color" "blue" []] (.initial .initial)

theorem cottage_reachable (place : List String) : (cottage place).Reachable :=
  (Reachable.initial .initial).afterAll _

/-- The paint of the cottage is taken out of the wall. -/
theorem cottage_takesOut : (cottage []).library.TakesOut ⟨1⟩ (.ofKind .style "Paint") ⟨0⟩ := by
  have hwall : ((cottage []).definitions.get? ⟨1⟩).map (fun d =>
      ((cottage []).library.resolve d.home (.ofKind .style "Paint") (.ofKind d.kind),
        d.edges.any fun e => decide ((cottage []).library.parentOf d e = .ok ⟨0⟩))) =
      some (.ok ⟨0⟩, true) := by
    decide +kernel
  obtain ⟨d, hd, heq⟩ := Option.map_eq_some_iff.1 hwall
  obtain ⟨hresolve, hany⟩ := Prod.mk.inj heq
  obtain ⟨e, he, hparent⟩ := List.any_eq_true.1 hany
  exact ⟨d, hd, hresolve, by decide, .single ⟨d, hd, e, he, of_decide_eq_true hparent⟩⟩

/-- Nothing else is taken out in the cottage. -/
theorem cottage_deletes {root p : DefId} {target : Name}
    (h : (cottage []).library.Deletes root p target) : p = ⟨1⟩ ∧ target = .ofKind .style "Paint" := by
  have hall : ∀ d ∈ (cottage []).definitions.entries.toList, ∀ e ∈ d.edges,
      ∀ target ∈ e.edits.filterMap Edit.deletedAncestor?,
        (cottage []).library.parentOf d e = .ok ⟨1⟩ ∧ target = .ofKind .style "Paint" := by
    decide +kernel
  obtain ⟨q, d, e, -, hd, he, hp, htarget⟩ := h
  have hmem : d ∈ (cottage []).definitions.entries.toList :=
    Array.mem_toList_iff.2 (Array.mem_of_getElem? hd)
  obtain ⟨hp', rfl⟩ := hall d hmem e he target htarget
  exact ⟨Except.ok.inj (hp.symm.trans hp'), rfl⟩

theorem garden_not_spaceAt (ns : NamespaceId) : ¬ garden.SpaceAt ["lib"] ns := by
  intro hns
  obtain ⟨m, hm, -⟩ := NamespaceTree.leads_cons.1 hns
  have hnone : garden.namespaces.child? .root "lib" = none := by decide +kernel
  rw [hnone] at hm
  cases hm

theorem garden_not_namedAt (path : List String) (name : String) (m : Meaning) :
    ¬ garden.NamedAt path name m := by
  rintro ⟨ns, -, hm⟩
  obtain ⟨n, hn, hm⟩ := Option.bind_eq_some_iff.1 hm
  have hall : ∀ n ∈ garden.namespaces.table.entries.toList, n.aliases.entries = [] := by
    decide +kernel
  have hempty := hall n (Array.mem_toList_iff.2 (Array.mem_of_getElem? hn))
  rw [OrderedMap.get?_eq_some_iff, hempty] at hm
  cases hm

/-- Without the place, the house takes the paint of the cottage out wherever the cottage is. -/
theorem mount_meaning_cottage :
    garden.Reachable ∧ (cottage []).Reachable ∧ (cottage []).Fits ∧
    ((Compiling.mount (cottage []) ["lib"]).after garden).Fits ∧
    (∀ ns, ¬ garden.SpaceAt ["lib"] ns) ∧
    ∃ b id', b.size = 2 ∧ (Compiling.contentOf ⟨2⟩).outcome (cottage []).forgetting = .ok b ∧
      MovedCopy (cottage []) ["lib"] ((Compiling.mount (cottage []) ["lib"]).after garden) ⟨2⟩ id' ∧
      (Compiling.contentOf id').outcome ((Compiling.mount (cottage []) ["lib"]).after garden) =
        .ok b := by
  have hgarden : garden.Reachable := (Reachable.initial .initial).afterAll _
  have hofits : (cottage []).Fits := ⟨by decide +kernel, by decide +kernel⟩
  have hfits : ((Compiling.mount (cottage []) ["lib"]).after garden).Fits :=
    ⟨by decide +kernel, by decide +kernel⟩
  have hsize : ((Compiling.contentOf ⟨2⟩).outcome (cottage []).forgetting).map Content.size =
      .ok 2 := by
    decide +kernel
  have hhouse : (cottage []).DefinedAt [] ⟨.custom, .style, "House"⟩ ⟨2⟩ :=
    ⟨.root, NamespaceTree.leads_nil.2 rfl, by decide +kernel⟩
  obtain ⟨id', hcopy, hcontent⟩ := (hgarden.mount_meaning (cottage_reachable []) hofits ["lib"]
    hfits garden_not_spaceAt (by decide +kernel) rfl
    fun _ _ _ _ _ => garden_not_namedAt _ _ _).2 ⟨2⟩ hhouse.lists
  cases hb : (Compiling.contentOf ⟨2⟩).outcome (cottage []).forgetting with
  | error e =>
    rw [hb] at hsize
    cases hsize
  | ok b =>
    rw [hb] at hsize
    refine ⟨hgarden, cottage_reachable [], hofits, hfits, garden_not_spaceAt, b, id',
      Except.ok.inj hsize, rfl, hcopy, hcontent ?_ b hb⟩
    intro p p' target hdeletes _ _
    obtain ⟨rfl, rfl⟩ := cottage_deletes hdeletes
    exact ⟨_, cottage_takesOut⟩

/-- The house looks for the paint in the namespace `lib`. Once the cottage is there, it finds it, and
takes it out: content was given before, and is other content now. -/
theorem mount_changes_content :
    garden.Reachable ∧ (cottage ["lib"]).Reachable ∧ (cottage ["lib"]).Fits ∧
    ((Compiling.mount (cottage ["lib"]) ["lib"]).after garden).Fits ∧
    (∀ ns, ¬ garden.SpaceAt ["lib"] ns) ∧ (cottage ["lib"]).config = garden.config ∧
    garden.config.strategy = .preferCurrent ∧ (∀ before name m, ¬ garden.NamedAt before name m) ∧
    (cottage ["lib"]).namespaces.Lists ⟨2⟩ ∧
    ∃ b id', (Compiling.contentOf ⟨2⟩).outcome (cottage ["lib"]).forgetting = .ok b ∧
      MovedCopy (cottage ["lib"]) ["lib"]
        ((Compiling.mount (cottage ["lib"]) ["lib"]).after garden) ⟨2⟩ id' ∧
      (Compiling.contentOf id').outcome
        ((Compiling.mount (cottage ["lib"]) ["lib"]).after garden) ≠ .ok b := by
  have hgarden : garden.Reachable := (Reachable.initial .initial).afterAll _
  have hofits : (cottage ["lib"]).Fits := ⟨by decide +kernel, by decide +kernel⟩
  have hfits : ((Compiling.mount (cottage ["lib"]) ["lib"]).after garden).Fits :=
    ⟨by decide +kernel, by decide +kernel⟩
  have hsize : ((Compiling.contentOf ⟨2⟩).outcome (cottage ["lib"]).forgetting).map Content.size =
      .ok 3 := by
    decide +kernel
  have hsize' : ((Compiling.contentOf ⟨3⟩).outcome
      ((Compiling.mount (cottage ["lib"]) ["lib"]).after garden)).map Content.size = .ok 2 := by
    decide +kernel
  have hhouse : (cottage ["lib"]).DefinedAt [] ⟨.custom, .style, "House"⟩ ⟨2⟩ :=
    ⟨.root, NamespaceTree.leads_nil.2 rfl, by decide +kernel⟩
  have hplace : ((Compiling.mount (cottage ["lib"]) ["lib"]).after garden).SpaceAt ["lib"] ⟨1⟩ :=
    NamespaceTree.leads_cons.2 ⟨⟨1⟩, by decide +kernel, NamespaceTree.leads_nil.2 rfl⟩
  have hcopied : ((Compiling.mount (cottage ["lib"]) ["lib"]).after garden).namespaces.definition?
      ⟨1⟩ ⟨.custom, .style, "House"⟩ = some ⟨3⟩ := by
    decide +kernel
  obtain ⟨-, mapping, hunion⟩ :=
    hgarden.mount_union (cottage_reachable ["lib"]) hofits ["lib"] hfits
  have hcopy := hunion.movedCopy garden_not_spaceAt
    (twins_of_definedAt hhouse ⟨⟨1⟩, hplace, hcopied⟩)
  cases hb : (Compiling.contentOf ⟨2⟩).outcome (cottage ["lib"]).forgetting with
  | error e =>
    rw [hb] at hsize
    cases hsize
  | ok b =>
    refine ⟨hgarden, cottage_reachable ["lib"], hofits, hfits, garden_not_spaceAt,
      by decide +kernel, rfl, garden_not_namedAt, hhouse.lists, b, ⟨3⟩, rfl, hcopy, fun hb' => ?_⟩
    rw [hb', ← hb, hsize] at hsize'
    cases hsize'

end Stencil
