import Stencil.Proofs.Mounting

/-! # An import is a union in which what was there comes first

All passes of an import share the counterparts of the namespaces. Put together, they give each path of
the imported compilation its place below the path of the import, and nothing that was there changes.
-/
namespace Stencil

open Compiling (Moved Copying Naming relocate openPlaces importInto)

namespace Compilation

variable {c c' other base filled named : Compilation} {path q : List String}
  {mapping : List NamespaceId} {moved : Moved} {o ns : NamespaceId} {identity : Identity}
  {old id : DefId} {name : String} {m m' : Meaning}

/-! ## One pass after another -/

theorem mem_arriving_registered (hother : other.Filed) :
    (ns, old) ∈ other.arriving mapping Namespace.registered ↔ ∃ o d, mapping[o.index]? = some ns ∧
      other.definitions.get? old = some d ∧
      other.namespaces.definition? o d.identity = some old := by
  rw [mem_arriving]
  constructor
  · rintro ⟨o, n, hn, hns, hold⟩
    obtain ⟨identity, hold⟩ := Namespace.mem_registered.1 hold
    obtain ⟨d, hd, rfl, -⟩ := hother o n hn identity old hold
    exact ⟨o, d, hns, hd, (NamespaceTree.definition?_of_get? hn _).trans hold⟩
  · rintro ⟨o, d, hns, -, hold⟩
    obtain ⟨n, hn, hold⟩ := Option.bind_eq_some_iff.1 hold
    exact ⟨o, n, hn, hns, Namespace.mem_registered.2 ⟨_, hold⟩⟩

theorem mem_arriving_aliases :
    (ns, name, m) ∈ other.arriving mapping (fun n => n.aliases.entries) ↔
      ∃ o, mapping[o.index]? = some ns ∧ other.namespaces.alias? o name = some m := by
  rw [mem_arriving]
  constructor
  · rintro ⟨o, n, hn, hns, hm⟩
    exact ⟨o, hns, (NamespaceTree.alias?_of_get? hn _).trans (OrderedMap.get?_eq_some_iff.2 hm)⟩
  · rintro ⟨o, hns, hm⟩
    obtain ⟨n, hn, hm⟩ := Option.bind_eq_some_iff.1 hm
    exact ⟨o, n, hn, hns, OrderedMap.get?_eq_some_iff.1 hm⟩

/-- What a table lists is imported, under the identity with which it is stored. -/
theorem Filed.arrives (hother : other.Filed) (hns : mapping[o.index]? = some ns)
    (hold : other.namespaces.definition? o identity = some old) :
    ∃ d, (ns, old) ∈ other.arriving mapping Namespace.registered ∧
      other.definitions.get? old = some d ∧ d.identity = identity := by
  obtain ⟨n, hn, hget⟩ := Option.bind_eq_some_iff.1 hold
  obtain ⟨d, hd, rfl, -⟩ := hother o n hn identity old hget
  exact ⟨d, (mem_arriving_registered hother).2 ⟨o, d, hns, hd, hold⟩, hd, rfl⟩

/-- It is known of each alias what it stands for after the import, so that none stays behind. -/
theorem exists_relocate (hother : other.Intact) (hfiled : other.Filed)
    (hlength : mapping.length = other.namespaces.table.size)
    (hcopying : Copying base other (other.arriving mapping Namespace.registered) moved filled)
    (hm : other.namespaces.alias? o name = some m) :
    ∃ m', relocate moved mapping m = .ok (some m') := by
  obtain ⟨n, hn, hm⟩ := Option.bind_eq_some_iff.1 hm
  cases m with
  | definition old =>
    obtain ⟨o', n', identity, hn', hold⟩ := hother.aliases o n hn name old hm
    have hlt : o'.index < mapping.length := hlength ▸ Arena.lt_size_of_get? hn'
    obtain ⟨d, hmem, hd, -⟩ := hfiled.arrives (List.getElem?_eq_getElem hlt)
      ((NamespaceTree.definition?_of_get? hn' identity).trans hold)
    obtain ⟨id, hid, -⟩ := hcopying.stands hmem hd
    exact ⟨.definition id, by simp [relocate, hid]⟩
  | space ns =>
    have hlt : ns.index < mapping.length := hlength ▸ (hother.namespaces o n hn).aliases name _ hm
    exact ⟨.space mapping[ns.index], by simp [relocate, List.getElem?_eq_getElem hlt]⟩

/-- What is in no namespace: it is appended, or as it was. -/
structure Appended (c other : Compilation) (mapping : List NamespaceId) (c' : Compilation) :
    Prop where
  config : c'.config = c.config
  scopes : c'.scopes = c.scopes
  fileScope : c'.fileScope = c.fileScope
  definitions : c'.definitions.entries.toList = c.definitions.entries.toList ++
    (other.arriving mapping Namespace.registered).filterMap other.copyOf
  rules : c'.rules = c.rules ++ other.rules.filterMap (Rule.relocated mapping)
  cache : c'.session.cache = .empty
  diagnostics : c'.diagnostics = c.diagnostics ++
    (other.arriving mapping Namespace.registered).filterMap (c.duplicateOf other c'.namespaces) ++
    (other.arriving mapping fun n => n.aliases.entries).filterMap
      (c.duplicateAlias c'.namespaces) ++
    other.diagnostics

/-- The import of `other` below `path`, seen by ids. `mapping` has the counterparts of the namespaces
and `moved` has what stands for the definitions. -/
structure Mounted (c other : Compilation) (path : List String) (mapping : List NamespaceId)
    (moved : Moved) (c' : Compilation) : Prop extends Appended c other mapping c' where
  grafted : ∃ t, c.namespaces.Grafted other.namespaces path mapping t ∧ t.SameOutline c'.namespaces
  definitions_kept : ∀ ns identity id, c.namespaces.definition? ns identity = some id →
    c'.namespaces.definition? ns identity = some id
  definitions_only : ∀ ns identity id, c'.namespaces.definition? ns identity = some id →
    c.namespaces.definition? ns identity = some id ∨
    ∃ o old, mapping[o.index]? = some ns ∧ other.namespaces.definition? o identity = some old
  stands : ∀ o ns identity old, mapping[o.index]? = some ns →
    other.namespaces.definition? o identity = some old →
    ∃ id, moved.get? old = some id ∧ c'.namespaces.definition? ns identity = some id
  copied : ∀ o ns identity old, mapping[o.index]? = some ns →
    other.namespaces.definition? o identity = some old →
    c.namespaces.definition? ns identity = none →
    ∃ d id, other.definitions.get? old = some d ∧ moved.get? old = some id ∧
      ¬ c.definitions.Holds id ∧ c'.definitions.get? id = some (d.movedTo ns)
  aliases_kept : ∀ ns name m, c.namespaces.alias? ns name = some m →
    c'.namespaces.alias? ns name = some m
  aliases_only : ∀ ns name m, c'.namespaces.alias? ns name = some m →
    c.namespaces.alias? ns name = some m ∨
    ∃ o m₀, mapping[o.index]? = some ns ∧ other.namespaces.alias? o name = some m₀
  aliases_moved : ∀ o ns name m, mapping[o.index]? = some ns →
    other.namespaces.alias? o name = some m → c.namespaces.alias? ns name = none →
    ∃ m', relocate moved mapping m = .ok (some m') ∧ c'.namespaces.alias? ns name = some m'

theorem duplicateOf_congr (hdefinition : base.namespaces.definition? = c.namespaces.definition?)
    {t t' : NamespaceTree} (houtline : t.SameOutline t') :
    base.duplicateOf other t = c.duplicateOf other t' := by
  funext e
  simp only [duplicateOf, hdefinition, houtline.title_eq]

theorem duplicateAlias_congr (halias : base.namespaces.alias? = c.namespaces.alias?)
    {t t' : NamespaceTree} (houtline : t.SameOutline t') :
    base.duplicateAlias t = c.duplicateAlias t' := by
  funext e
  simp only [duplicateAlias, halias, houtline.title_eq]

/-- The last part of an import: rules and diagnostics are appended. -/
def closing (other : Compilation) (mapping : List NamespaceId) (c : Compilation) : Compilation :=
  { c with
    rules := c.rules ++ other.rules.filterMap (Rule.relocated mapping)
    session := ⟨.empty, c.session.diagnostics ++ other.session.diagnostics⟩ }

theorem Appended.of_passes {t : NamespaceTree} (hwidens : c.namespaces.Widens t)
    (hcopying : Copying { c with namespaces := t } other
      (other.arriving mapping Namespace.registered) moved filled)
    (hnaming : Naming filled moved mapping
      (other.arriving mapping fun n => n.aliases.entries) named) :
    Appended c other mapping (other.closing mapping named) where
  config := hnaming.frame.config.trans hcopying.frame.config
  scopes := hnaming.frame.scopes.trans hcopying.frame.scopes
  fileScope := hnaming.frame.fileScope.trans hcopying.frame.fileScope
  definitions := by
    rw [closing, hnaming.stored]
    exact hcopying.entries
  rules := by
    rw [closing, hnaming.frame.rules, hcopying.frame.rules]
  cache := rfl
  diagnostics := by
    change named.diagnostics ++ other.diagnostics = _
    have houtline := hcopying.outline.trans hnaming.outline
    rw [hnaming.diagnostics, hcopying.diagnostics,
      duplicateOf_congr hwidens.definitions houtline,
      duplicateAlias_congr (hcopying.aliases.trans hwidens.aliases) hnaming.outline]
    rfl

theorem Mounted.of_passes {t : NamespaceTree} (hfiled : other.Filed)
    (hgrafted : c.namespaces.Grafted other.namespaces path mapping t)
    (hcopying : Copying { c with namespaces := t } other
      (other.arriving mapping Namespace.registered) moved filled)
    (hnaming : Naming filled moved mapping
      (other.arriving mapping fun n => n.aliases.entries) named)
    (hrelocate : ∀ o name m, other.namespaces.alias? o name = some m →
      ∃ m', relocate moved mapping m = .ok (some m'))
    (hfits : named.definitions.size ≤ idLimit) :
    Mounted c other path mapping moved (other.closing mapping named) := by
  have hdefinition : t.definition? = c.namespaces.definition? := hgrafted.widens.definitions
  have halias : filled.namespaces.alias? = c.namespaces.alias? :=
    hcopying.aliases.trans hgrafted.widens.aliases
  refine ⟨.of_passes hgrafted.widens hcopying hnaming,
    ⟨t, hgrafted, hcopying.outline.trans hnaming.outline⟩, ?_, ?_, ?_, ?_, ?_, ?_, ?_⟩
  · intro ns identity id hid
    change named.namespaces.definition? ns identity = some id
    rw [hnaming.definitions, hcopying.table]
    exact .inl (hdefinition ▸ hid)
  · intro ns identity id hid
    change named.namespaces.definition? ns identity = some id at hid
    rw [hnaming.definitions, hcopying.table] at hid
    rcases hid with hid | ⟨-, old, d, hmem, hd, rfl, -⟩
    · exact .inl (hdefinition ▸ hid)
    · obtain ⟨o, d', hns, hd', hold⟩ := (mem_arriving_registered hfiled).1 hmem
      obtain rfl := Option.some.inj (hd.symm.trans hd')
      exact .inr ⟨o, old, hns, hold⟩
  · intro o ns identity old hns hold
    obtain ⟨d, hmem, hd, rfl⟩ := hfiled.arrives hns hold
    change ∃ id, moved.get? old = some id ∧ named.namespaces.definition? ns d.identity = some id
    rw [hnaming.definitions]
    exact hcopying.stands hmem hd
  · intro o ns identity old hns hold hnone
    obtain ⟨d, hmem, hd, rfl⟩ := hfiled.arrives hns hold
    obtain ⟨id, hid, hcopy⟩ := hcopying.copied ns old d hmem hd (hdefinition.symm ▸ hnone)
    rw [← hnaming.stored] at hcopy
    exact ⟨d, id, hd, hid, hcopy hfits⟩
  · intro ns name m hm
    exact (hnaming.table ns name m).2 (.inl (halias.symm ▸ hm))
  · intro ns name m hm
    rcases (hnaming.table ns name m).1 hm with hm | ⟨-, m₀, hmem, -⟩
    · exact .inl (halias ▸ hm)
    · obtain ⟨o, hns, hm₀⟩ := mem_arriving_aliases.1 hmem
      exact .inr ⟨o, m₀, hns, hm₀⟩
  · intro o ns name m hns hm hnone
    obtain ⟨m', hm'⟩ := hrelocate o name m hm
    refine ⟨m', hm', (hnaming.table ns name m').2 (.inr ⟨halias.symm ▸ hnone, m, ?_, hm'⟩)⟩
    exact mem_arriving_aliases.2 ⟨o, hns, hm⟩

end Compilation

/-! ## The run -/

namespace Compiling

open Compilation

variable {c other : Compilation} {path : List String} {mapping : List NamespaceId}

theorem run_openPlaces {top : NamespaceId} {t t' : NamespaceTree}
    (hopen : c.namespaces.openAt .root path false = .ok (top, t))
    (hcopy : t.copyTree other.namespaces top = .ok (mapping, t')) :
    (openPlaces other path).run c = (.ok mapping, { c with namespaces := t' }) := by
  unfold openPlaces
  change ((liftM (c.namespaces.openAt .root path false) : Compiling _) >>= _).run _ = _
  rw [hopen]
  change ((liftM (t.copyTree other.namespaces top) : Compiling _) >>= _).run _ = _
  rw [hcopy]
  rfl

theorem run_mount {top : NamespaceId} {t t' : NamespaceTree}
    (hopen : c.namespaces.openAt .root path false = .ok (top, t))
    (hcopy : t.copyTree other.namespaces top = .ok (mapping, t')) :
    (mount other path).run c = (importInto other mapping).run { c with namespaces := t' } := by
  rw [mount_eq, run_bind_of_ok (run_openPlaces hopen hcopy)]

/-- With a place for every namespace, all passes of an import come to their end. -/
theorem run_importInto (base : Compilation) (hother : other.Intact) (hfiled : other.Filed)
    (hlength : mapping.length = other.namespaces.table.size)
    (hmapping : ∀ ns ∈ mapping, base.namespaces.table.Holds ns)
    (hinj : ∀ (i j : Nat) ns, mapping[i]? = some ns → mapping[j]? = some ns → i = j) :
    ∃ moved filled named,
      Copying base other (other.arriving mapping Namespace.registered) moved filled ∧
      Naming filled moved mapping (other.arriving mapping fun n => n.aliases.entries) named ∧
      (importInto other mapping).run base = (.ok (), other.closing mapping named) := by
  have hplaces {α : Type} {entries : Namespace → List α} {e : NamespaceId × α}
      (he : e ∈ other.arriving mapping entries) : base.namespaces.table.Holds e.1 := by
    obtain ⟨o, n, -, hns, -⟩ := mem_arriving.1 he
    exact hmapping _ (List.mem_of_getElem? hns)
  have hregistered : ∀ e ∈ other.arriving mapping Namespace.registered,
      base.namespaces.table.Holds e.1 ∧ other.definitions.Holds e.2 := by
    rintro ⟨ns, old⟩ he
    obtain ⟨o, d, -, hd, -⟩ := (mem_arriving_registered hfiled).1 he
    exact ⟨hplaces he, Arena.holds_of_get? hd⟩
  obtain ⟨moved, filled, hdefinitions, hcopying⟩ := (Copying.start base other).run hregistered
    (distinct_registered hfiled hinj)
  have hnamed : ∀ e ∈ other.arriving mapping (fun n => n.aliases.entries),
      filled.namespaces.table.Holds e.1 ∧
        ∃ m, relocate moved mapping e.2.2 = .ok (some m) := by
    rintro ⟨ns, name, m⟩ he
    obtain ⟨o, -, hm⟩ := mem_arriving_aliases.1 he
    exact ⟨hcopying.outline.holds (hplaces he), exists_relocate hother hfiled hlength hcopying hm⟩
  obtain ⟨named, haliases, hnaming⟩ := (Naming.start filled moved mapping).run hnamed
    (distinct_aliases hinj)
  have hwithin : ∀ r ∈ other.rules, r.site.Within other.scopes.table.size mapping.length :=
    fun r hr => hlength ▸ hother.rules r hr
  have hrules := run_importRules hwithin named
  refine ⟨moved, filled, named, hcopying, hnaming, ?_⟩
  unfold importInto
  rw [run_bind_of_ok hdefinitions, run_bind_of_ok haliases, run_bind_of_ok hrules]
  rfl

end Compiling

namespace Compilation

variable {c other : Compilation}

/-- Every namespace of one reachable compilation gets a place in another. -/
theorem Intact.exists_places (hc : c.Intact) (hother : other.Intact) (path : List String) :
    ∃ top t mapping t', c.namespaces.openAt .root path false = .ok (top, t) ∧
      t.copyTree other.namespaces top = .ok (mapping, t') ∧
      c.Updates { c with namespaces := t' } ∧ mapping.length = other.namespaces.table.size ∧
      ∀ ns ∈ mapping, t'.table.Holds ns := by
  obtain ⟨⟨top, t⟩, hopen, hopened, htop⟩ := hc.finds_openAt path false hc.root
  obtain ⟨⟨mapping, t'⟩, hcopy, hgrown, hlength, hmapping⟩ :=
    (hopened.intact hc).finds_copyTree hother htop
  exact ⟨top, t, mapping, t', hopen, hcopy, hopened.trans hgrown, hlength, hmapping⟩

/-- What an import of one reachable compilation into another does. -/
theorem Reachable.mounted (hc : c.Reachable) (hother : other.Reachable) (hofits : other.Fits)
    (path : List String) (hfits : ((Compiling.mount other path).after c).Fits) :
    (Compiling.mount other path).outcome c = .ok () ∧
      ∃ mapping moved, Mounted c other path mapping moved ((Compiling.mount other path).after c) := by
  have hfiled := hother.filed hofits
  have hlinked := hother.linked hofits
  obtain ⟨top, t, mapping, t', hopen, hcopy, hupdates, hlength, hmapping⟩ :=
    hc.intact.exists_places hother.intact path
  have hgrafted := NamespaceTree.Grafted.of_ok hlinked hopen hcopy
  have hafter : (Compiling.mount other path).run c =
      (importInto other mapping).run { c with namespaces := t' } :=
    Compiling.run_mount hopen hcopy
  -- The ids suffice for the opened tree, because nothing is taken away afterwards.
  have hlast : Compilation.Updates { c with namespaces := t' } ((Compiling.mount other path).after c) := by
    rw [Compiling.after, hafter]
    exact (Compiling.importInto_runs (hupdates.intact hc.intact) hother.intact hlength hmapping).1
  have hbase := hlast.grows.fits hfits
  have htree : t'.Linked := hupdates.linked hbase (hc.linked (hupdates.grows.fits hbase))
  obtain ⟨moved, filled, named, hcopying, hnaming, hrun⟩ := Compiling.run_importInto
    { c with namespaces := t' } hother.intact hfiled hlength hmapping
    fun i j ns hi hj => hgrafted.injective hlinked htree hi hj
  rw [Compiling.after, hafter, hrun] at hfits
  rw [Compiling.outcome, Compiling.after, hafter, hrun]
  refine ⟨rfl, mapping, moved, .of_passes hfiled hgrafted hcopying hnaming ?_ hfits.definitions⟩
  exact fun o name m hm => exists_relocate hother.intact hfiled hlength hcopying hm

/-! ## By paths -/

/-- The path leads from the root to the namespace. -/
def SpaceAt (c : Compilation) (path : List String) (ns : NamespaceId) : Prop :=
  c.namespaces.Leads .root path ns

/-- The namespace at the path has the definition under that identity. -/
def DefinedAt (c : Compilation) (path : List String) (identity : Identity) (id : DefId) : Prop :=
  ∃ ns, c.SpaceAt path ns ∧ c.namespaces.definition? ns identity = some id

/-- The namespace at the path has an alias of that name and meaning. -/
def NamedAt (c : Compilation) (path : List String) (name : String) (m : Meaning) : Prop :=
  ∃ ns, c.SpaceAt path ns ∧ c.namespaces.alias? ns name = some m

/-- The namespace at the path was opened by a block of its own. -/
def ExplicitAt (c : Compilation) (path : List String) : Prop :=
  ∃ ns, c.SpaceAt path ns ∧ c.namespaces.Explicit ns

/-- What the second meaning stands for in `c'` is at the place below `path` that corresponds to the
place, in `other`, of what the first one stands for. -/
inductive Corresponds (other : Compilation) (path : List String) (c' : Compilation) :
    Meaning → Meaning → Prop
  | definition {q : List String} {identity : Identity} {old id : DefId}
    (hold : other.DefinedAt q identity old) (hid : c'.DefinedAt (path ++ q) identity id) :
    Corresponds other path c' (.definition old) (.definition id)
  | space {q : List String} {ns ns' : NamespaceId} (hns : other.SpaceAt q ns)
    (hns' : c'.SpaceAt (path ++ q) ns') : Corresponds other path c' (.space ns) (.space ns')

/-- `c'` is the union of `c` and of `other` below `path`, where `c` comes first. `mapping` has the
counterparts of the namespaces of `other`. -/
structure Union (c other : Compilation) (path : List String) (mapping : List NamespaceId)
    (c' : Compilation) : Prop extends Appended c other mapping c' where
  spaces_kept : ∀ q ns, c.SpaceAt q ns → c'.SpaceAt q ns
  spaces_placed : ∀ q ns, other.SpaceAt q ns →
    ∃ ns', mapping[ns.index]? = some ns' ∧ c'.SpaceAt (path ++ q) ns'
  spaces_only : ∀ q ns, c'.SpaceAt q ns →
    c.SpaceAt q ns ∨ q <+: path ∨ ∃ r o, q = path ++ r ∧ other.SpaceAt r o
  explicit : ∀ q, c'.ExplicitAt q ↔
    c.ExplicitAt q ∨ ∃ r, r ≠ [] ∧ q = path ++ r ∧ other.ExplicitAt r
  definitions_kept : ∀ q identity id, c.DefinedAt q identity id → c'.DefinedAt q identity id
  definitions_stored : ∀ id d, c.definitions.get? id = some d → c'.definitions.get? id = some d
  definitions_copied : ∀ q identity old, other.DefinedAt q identity old →
    (∀ id, ¬ c.DefinedAt (path ++ q) identity id) →
    ∃ d ns id, other.definitions.get? old = some d ∧ c'.SpaceAt (path ++ q) ns ∧
      c'.DefinedAt (path ++ q) identity id ∧ ¬ c.definitions.Holds id ∧
      c'.definitions.get? id = some (d.movedTo ns)
  definitions_only : ∀ q identity id, c'.DefinedAt q identity id →
    c.DefinedAt q identity id ∨ ∃ r old, q = path ++ r ∧ other.DefinedAt r identity old
  aliases_kept : ∀ q name m, c.NamedAt q name m → c'.NamedAt q name m
  aliases_moved : ∀ q name m, other.NamedAt q name m → (∀ m', ¬ c.NamedAt (path ++ q) name m') →
    ∃ m', c'.NamedAt (path ++ q) name m' ∧ Corresponds other path c' m m'
  aliases_only : ∀ q name m, c'.NamedAt q name m →
    c.NamedAt q name m ∨ ∃ r m₀, q = path ++ r ∧ other.NamedAt r name m₀
  rules_placed : ∀ r ∈ other.rules, ∀ o, r.site = .within o →
    ∃ q ns, other.SpaceAt q o ∧ c'.SpaceAt (path ++ q) ns ∧
      r.relocated mapping = some { r with site := .within ns }

namespace Mounted

variable {c c' other : Compilation} {path q : List String} {mapping : List NamespaceId}
  {moved : Moved} {o ns : NamespaceId} {identity : Identity} {old id : DefId} {name : String}
  {m : Meaning}

theorem spaceAt (h : Mounted c other path mapping moved c') (hns : c.SpaceAt q ns) :
    c'.SpaceAt q ns := by
  obtain ⟨t, hgrafted, houtline⟩ := h.grafted
  exact houtline.leads_iff.2 (hgrafted.widens.leads hns)

theorem exists_counterpart (h : Mounted c other path mapping moved c') (ho : other.SpaceAt q o) :
    ∃ ns, mapping[o.index]? = some ns ∧ c'.SpaceAt (path ++ q) ns := by
  obtain ⟨t, hgrafted, houtline⟩ := h.grafted
  obtain ⟨ns, hns, hleads⟩ := hgrafted.placed q o ho
  exact ⟨ns, hns, houtline.leads_iff.2 hleads⟩

/-- Every namespace of `other` has a place. -/
theorem exists_place (h : Mounted c other path mapping moved c')
    (hother : other.namespaces.Linked) (ho : other.namespaces.table.Holds o) :
    ∃ r ns, other.SpaceAt r o ∧ mapping[o.index]? = some ns ∧ c'.SpaceAt (path ++ r) ns := by
  obtain ⟨r, hr⟩ := hother.exists_leads ho
  obtain ⟨ns, hns, hspace⟩ := h.exists_counterpart hr
  exact ⟨r, ns, hr, hns, hspace⟩

/-- A counterpart is at the path of the import, followed by that of its namespace. -/
theorem counterpart_spaceAt (h : Mounted c other path mapping moved c')
    (hother : other.namespaces.Linked) (hns : mapping[o.index]? = some ns) :
    ∃ r, other.SpaceAt r o ∧ c'.SpaceAt (path ++ r) ns := by
  obtain ⟨t, hgrafted, -⟩ := h.grafted
  have hholds : other.namespaces.table.Holds o := by
    rw [Arena.Holds, ← hgrafted.length]
    exact (List.getElem?_eq_some_iff.1 hns).1
  obtain ⟨r, ns', hr, hns', hspace⟩ := h.exists_place hother hholds
  exact ⟨r, hr, Option.some.inj (hns.symm.trans hns') ▸ hspace⟩

/-- A namespace that was there is where it was. -/
theorem spaceAt_of_holds (h : Mounted c other path mapping moved c') (hc : c.namespaces.Linked)
    (hc' : c'.namespaces.Linked) (hns : c'.SpaceAt q ns) (hold : c.namespaces.table.Holds ns) :
    c.SpaceAt q ns := by
  obtain ⟨r, hr⟩ := hc.exists_leads hold
  exact hc'.leads_unique (h.spaceAt hr) hns ▸ hr

theorem spaceAt_cases (h : Mounted c other path mapping moved c') (hc : c.namespaces.Linked)
    (hother : other.namespaces.Linked) (hc' : c'.namespaces.Linked) (hfits : c'.Fits)
    (hns : c'.SpaceAt q ns) :
    c.SpaceAt q ns ∨ q <+: path ∨ ∃ r o, q = path ++ r ∧ other.SpaceAt r o := by
  obtain ⟨t, hgrafted, houtline⟩ := h.grafted
  have hholds : t.table.Holds ns := houtline.symm.holds (hc'.holds hns)
  rcases hgrafted.only (Nat.le_trans houtline.size_le hfits.namespaces) ns hholds with
    hold | ⟨before, hbefore, hleads⟩ | hmem
  · exact .inl (h.spaceAt_of_holds hc hc' hns hold)
  · obtain rfl := hc'.leads_unique (houtline.leads_iff.2 hleads) hns
    exact .inr (.inl hbefore)
  · obtain ⟨k, hk⟩ := List.mem_iff_getElem?.1 hmem
    obtain ⟨r, hr, hspace⟩ := h.counterpart_spaceAt (o := ⟨k⟩) hother hk
    exact .inr (.inr ⟨r, ⟨k⟩, hc'.leads_unique hns hspace, hr⟩)

theorem explicitAt_iff (h : Mounted c other path mapping moved c') (hc : c.namespaces.Linked)
    (hother : other.namespaces.Linked) (hc' : c'.namespaces.Linked) :
    c'.ExplicitAt q ↔ c.ExplicitAt q ∨ ∃ r, r ≠ [] ∧ q = path ++ r ∧ other.ExplicitAt r := by
  obtain ⟨t, hgrafted, houtline⟩ := h.grafted
  have hmarked (ns : NamespaceId) := houtline.explicit_iff.trans (hgrafted.explicit ns)
  constructor
  · rintro ⟨ns, hns, hexplicit⟩
    rcases (hmarked ns).1 hexplicit with hold | ⟨-, k, hk, hmem, hexplicit⟩
    · have hholds : c.namespaces.table.Holds ns := Arena.holds_of_get? hold.choose_spec.1
      exact .inl ⟨ns, h.spaceAt_of_holds hc hc' hns hholds, hold⟩
    · obtain ⟨r, hr, hspace⟩ := h.counterpart_spaceAt (o := ⟨k⟩) hother hmem
      refine .inr ⟨r, ?_, hc'.leads_unique hns hspace, ⟨k⟩, hr, hexplicit⟩
      rintro rfl
      obtain rfl : 0 = k := congrArg Id.index (NamespaceTree.leads_nil.1 hr)
      exact Nat.lt_irrefl 0 hk
  · rintro (⟨ns, hns, hexplicit⟩ | ⟨r, hne, rfl, o, ho, hexplicit⟩)
    · exact ⟨ns, h.spaceAt hns, (hmarked ns).2 (.inl hexplicit)⟩
    · obtain ⟨ns, hns, hspace⟩ := h.exists_counterpart ho
      refine ⟨ns, hspace, (hmarked ns).2 (.inr ⟨?_, o.index, ?_, hns, hexplicit⟩)⟩
      · rintro rfl
        have hnil := hc'.leads_unique hspace (NamespaceTree.leads_nil.2 rfl)
        exact hne (List.append_eq_nil_iff.1 hnil).2
      · refine Nat.pos_of_ne_zero fun hzero => hne ?_
        have hroot : o = .root := congrArg Id.mk hzero
        exact hother.leads_unique ho (NamespaceTree.leads_nil.2 hroot.symm)

/-! Definitions and aliases -/

theorem definition?_eq_none (h : Mounted c other path mapping moved c') (hc : c.namespaces.Linked)
    (hc' : c'.namespaces.Linked) (hns : c'.SpaceAt q ns)
    (hnone : ∀ id, ¬ c.DefinedAt q identity id) :
    c.namespaces.definition? ns identity = none := by
  refine Option.eq_none_iff_forall_ne_some.2 fun id hid => hnone id ⟨ns, ?_, hid⟩
  exact h.spaceAt_of_holds hc hc' hns (NamespaceTree.holds_of_bind hid)

theorem alias?_eq_none (h : Mounted c other path mapping moved c') (hc : c.namespaces.Linked)
    (hc' : c'.namespaces.Linked) (hns : c'.SpaceAt q ns) (hnone : ∀ m, ¬ c.NamedAt q name m) :
    c.namespaces.alias? ns name = none := by
  refine Option.eq_none_iff_forall_ne_some.2 fun m hm => hnone m ⟨ns, ?_, hm⟩
  exact h.spaceAt_of_holds hc hc' hns (NamespaceTree.holds_of_bind hm)

theorem exists_copy (h : Mounted c other path mapping moved c')
    (hc : c.namespaces.Linked) (hc' : c'.namespaces.Linked) (hold : other.DefinedAt q identity old)
    (hnone : ∀ id, ¬ c.DefinedAt (path ++ q) identity id) :
    ∃ d ns id, other.definitions.get? old = some d ∧ c'.SpaceAt (path ++ q) ns ∧
      c'.DefinedAt (path ++ q) identity id ∧ ¬ c.definitions.Holds id ∧
      c'.definitions.get? id = some (d.movedTo ns) := by
  obtain ⟨o, ho, hold⟩ := hold
  obtain ⟨ns, hns, hspace⟩ := h.exists_counterpart ho
  obtain ⟨d, id, hd, hmoved, hfresh, hcopy⟩ := h.copied o ns identity old hns hold
    (h.definition?_eq_none hc hc' hspace hnone)
  obtain ⟨id', hmoved', hid⟩ := h.stands o ns identity old hns hold
  obtain rfl := Option.some.inj (hmoved.symm.trans hmoved')
  exact ⟨d, ns, id, hd, hspace, ⟨ns, hspace, hid⟩, hfresh, hcopy⟩

theorem definedAt_cases (h : Mounted c other path mapping moved c') (hc : c.namespaces.Linked)
    (hother : other.namespaces.Linked) (hc' : c'.namespaces.Linked)
    (hid : c'.DefinedAt q identity id) :
    c.DefinedAt q identity id ∨ ∃ r old, q = path ++ r ∧ other.DefinedAt r identity old := by
  obtain ⟨ns, hns, hid⟩ := hid
  rcases h.definitions_only ns identity id hid with hold | ⟨o, old, hplace, hold⟩
  · exact .inl ⟨ns, h.spaceAt_of_holds hc hc' hns (NamespaceTree.holds_of_bind hold), hold⟩
  · obtain ⟨r, hr, hspace⟩ := h.counterpart_spaceAt hother hplace
    exact .inr ⟨r, old, hc'.leads_unique hns hspace, o, hr, hold⟩

theorem namedAt_cases (h : Mounted c other path mapping moved c') (hc : c.namespaces.Linked)
    (hother : other.namespaces.Linked) (hc' : c'.namespaces.Linked) (hm : c'.NamedAt q name m) :
    c.NamedAt q name m ∨ ∃ r m₀, q = path ++ r ∧ other.NamedAt r name m₀ := by
  obtain ⟨ns, hns, hm⟩ := hm
  rcases h.aliases_only ns name m hm with hold | ⟨o, m₀, hplace, hm₀⟩
  · exact .inl ⟨ns, h.spaceAt_of_holds hc hc' hns (NamespaceTree.holds_of_bind hold), hold⟩
  · obtain ⟨r, hr, hspace⟩ := h.counterpart_spaceAt hother hplace
    exact .inr ⟨r, m₀, hc'.leads_unique hns hspace, o, hr, hm₀⟩

/-- What an alias stands for after the import is where what it stood for has gone. -/
theorem corresponds (h : Mounted c other path mapping moved c') (hintact : other.Intact)
    (hother : other.namespaces.Linked) {m' : Meaning}
    (hm : other.namespaces.alias? o name = some m)
    (hm' : relocate moved mapping m = .ok (some m')) : Corresponds other path c' m m' := by
  obtain ⟨n, hn, hm⟩ := Option.bind_eq_some_iff.1 hm
  cases m with
  | definition old =>
    obtain ⟨x, n', identity, hn', hold⟩ := hintact.aliases o n hn name old hm
    obtain ⟨r, ns, hr, hns, hspace⟩ := h.exists_place hother (Arena.holds_of_get? hn')
    have hold : other.namespaces.definition? x identity = some old :=
      (NamespaceTree.definition?_of_get? hn' identity).trans hold
    obtain ⟨id, hmoved, hid⟩ := h.stands x ns identity old hns hold
    rw [relocate, hmoved] at hm'
    cases hm'
    exact .definition ⟨x, hr, hold⟩ ⟨ns, hspace, hid⟩
  | space x =>
    have hx : other.namespaces.table.Holds x := (hintact.namespaces o n hn).aliases name _ hm
    obtain ⟨r, ns, hr, hns, hspace⟩ := h.exists_place hother hx
    simp only [relocate, hns] at hm'
    cases hm'
    exact .space hr hspace

theorem exists_moved (h : Mounted c other path mapping moved c') (hintact : other.Intact)
    (hc : c.namespaces.Linked) (hother : other.namespaces.Linked) (hc' : c'.namespaces.Linked)
    (hm : other.NamedAt q name m) (hnone : ∀ m', ¬ c.NamedAt (path ++ q) name m') :
    ∃ m', c'.NamedAt (path ++ q) name m' ∧ Corresponds other path c' m m' := by
  obtain ⟨o, ho, hm⟩ := hm
  obtain ⟨ns, hns, hspace⟩ := h.exists_counterpart ho
  obtain ⟨m', hrelocate, hm'⟩ := h.aliases_moved o ns name m hns hm
    (h.alias?_eq_none hc hc' hspace hnone)
  exact ⟨m', ⟨ns, hspace, hm'⟩, h.corresponds hintact hother hm hrelocate⟩

/-- A rule for a namespace holds at its counterpart afterwards. -/
theorem exists_relocated (h : Mounted c other path mapping moved c') (hintact : other.Intact)
    (hother : other.namespaces.Linked) {r : Rule} (hr : r ∈ other.rules)
    (hsite : r.site = .within o) :
    ∃ q ns, other.SpaceAt q o ∧ c'.SpaceAt (path ++ q) ns ∧
      r.relocated mapping = some { r with site := .within ns } := by
  have hwithin := hintact.rules r hr
  rw [hsite] at hwithin
  obtain ⟨q, ns, hq, hns, hspace⟩ := h.exists_place hother hwithin
  exact ⟨q, ns, hq, hspace, by simp [Rule.relocated, hsite, hns]⟩

end Mounted

/-- An import is a union in which what was there comes first, as long as the ids suffice. -/
theorem Reachable.mount_union (hc : c.Reachable) (hother : other.Reachable) (hofits : other.Fits)
    (path : List String) (hfits : ((Compiling.mount other path).after c).Fits) :
    (Compiling.mount other path).outcome c = .ok () ∧
      ∃ mapping, Union c other path mapping ((Compiling.mount other path).after c) := by
  obtain ⟨hok, mapping, moved, h⟩ := hc.mounted hother hofits path hfits
  have hgrows := (Compiling.mount_runs hc.intact hother.intact path).1.grows
  have hlinked := hc.linked (hgrows.fits hfits)
  have hlinked' := (hc.mount path hother).linked hfits
  have holinked := hother.linked hofits
  exact ⟨hok, mapping, { h.toAppended with
    spaces_kept := fun _ _ => h.spaceAt
    spaces_placed := fun _ _ => h.exists_counterpart
    spaces_only := fun _ _ => h.spaceAt_cases hlinked holinked hlinked' hfits
    explicit := fun _ => h.explicitAt_iff hlinked holinked hlinked'
    definitions_kept := fun _ identity id ⟨ns, hns, hid⟩ =>
      ⟨ns, h.spaceAt hns, h.definitions_kept ns identity id hid⟩
    definitions_stored := hgrows.definitions
    definitions_copied := fun _ _ _ => h.exists_copy hlinked hlinked'
    definitions_only := fun _ _ _ => h.definedAt_cases hlinked holinked hlinked'
    aliases_kept := fun _ name m ⟨ns, hns, hm⟩ =>
      ⟨ns, h.spaceAt hns, h.aliases_kept ns name m hm⟩
    aliases_moved := fun _ _ _ => h.exists_moved hother.intact hlinked holinked hlinked'
    aliases_only := fun _ _ _ => h.namedAt_cases hlinked holinked hlinked'
    rules_placed := fun _ hr _ => h.exists_relocated hother.intact holinked hr }⟩

end Compilation

/-- A library with a box and an alias for it. -/
def shelf : Compilation :=
  Operation.afterAll
    [.openNamespacePath ["lib"],
      .addGroup ⟨.custom, .style, "Box"⟩ (.empty .style) [] .empty none,
      .nameDefinition "Chest" "@Style Box" none, .closeNamespace]
    (.initial .initial)

/-- A box and a lid of their own, two aliases for the lid, one rule for all and one for a block. -/
def stock : Compilation :=
  Operation.afterAll
    [.addGroup ⟨.custom, .style, "Box"⟩ (.empty .style) [] .empty none,
      .addGroup ⟨.custom, .style, "Lid"⟩ (.empty .style) [] .empty none,
      .nameDefinition "Chest" "@Style Lid" none, .nameDefinition "Top" "@Style Lid" none,
      .addRule (.name "Sack") .global none, .addRule (.name "Bag") .scope none]
    (.initial .initial)

/-- The library with the stock inside. -/
def stocked : Compilation := (Compiling.mount stock ["lib"]).after shelf

/-- The box and its alias stay, the lid comes in, and both conflicts are told. -/
theorem mount_union_shelf :
    shelf.Reachable ∧ stock.Reachable ∧ stock.Fits ∧ stocked.Fits ∧
    (∃ mapping, Compilation.Union shelf stock ["lib"] mapping stocked) ∧
    stocked.DefinedAt ["lib"] ⟨.custom, .style, "Box"⟩ ⟨0⟩ ∧
    (∃ id, stocked.DefinedAt ["lib"] ⟨.custom, .style, "Lid"⟩ id ∧ ¬ shelf.definitions.Holds id) ∧
    stocked.NamedAt ["lib"] "Chest" (.definition ⟨0⟩) ∧
    stocked.rules.length = 1 ∧ stocked.diagnostics.length = 2 := by
  have hshelf : shelf.Reachable := (Compilation.Reachable.initial .initial).afterAll _
  have hstock : stock.Reachable := (Compilation.Reachable.initial .initial).afterAll _
  have hofits : stock.Fits := ⟨by decide +kernel, by decide +kernel⟩
  have hfits : stocked.Fits := ⟨by decide +kernel, by decide +kernel⟩
  have hlib : shelf.SpaceAt ["lib"] ⟨1⟩ :=
    NamespaceTree.leads_cons.2 ⟨⟨1⟩, by decide +kernel, NamespaceTree.leads_nil.2 rfl⟩
  have hnone (id : DefId) : ¬ shelf.DefinedAt (["lib"] ++ []) ⟨.custom, .style, "Lid"⟩ id := by
    rintro ⟨ns, hns, hid⟩
    have hempty : shelf.namespaces.definition? ⟨1⟩ ⟨.custom, .style, "Lid"⟩ = none := by
      decide +kernel
    rw [← NamespaceTree.Leads.unique hlib hns, hempty] at hid
    cases hid
  obtain ⟨-, mapping, h⟩ := hshelf.mount_union hstock hofits ["lib"] hfits
  obtain ⟨d, ns, id, -, -, hid, hnew, -⟩ := h.definitions_copied [] _ ⟨1⟩
    ⟨.root, NamespaceTree.leads_nil.2 rfl, by decide +kernel⟩ hnone
  refine ⟨hshelf, hstock, hofits, hfits, ⟨mapping, h⟩, ?_, ⟨id, hid, hnew⟩, ?_, ?_, ?_⟩
  · exact h.definitions_kept _ _ _ ⟨⟨1⟩, hlib, by decide +kernel⟩
  · exact h.aliases_kept _ _ _ ⟨⟨1⟩, hlib, by decide +kernel⟩
  · decide +kernel
  · decide +kernel

end Stencil
