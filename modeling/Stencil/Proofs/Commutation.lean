import Mathlib.Data.Set.Insert
import Stencil.Proofs.Denials
import Stencil.Proofs.Transplant

/-! # The order of imports

Several units are imported below one path, and no two of them have something under the same name at the
same place. What the compilation then has at each path is said by the set of the units, so that the
order in which they came is not seen by any path.
-/
namespace Stencil.Compilation

open Library

variable {base c c' other unit : Compilation} {path q : List String} {units : Set Compilation}
  {mapping : List NamespaceId} {ns ns' : NamespaceId} {identity : Identity} {id id' : DefId}
  {name : String} {m m' m₀ : Meaning}

/-- Nothing is defined or named alike in `c`, below `path`, and in `other`. -/
structure Apart (c : Compilation) (path : List String) (other : Compilation) : Prop where
  definitions : ∀ q identity id id', c.DefinedAt (path ++ q) identity id →
    ¬ other.DefinedAt q identity id'
  aliases : ∀ q name m m', c.NamedAt (path ++ q) name m → ¬ other.NamedAt q name m'

theorem Apart.symm (h : c.Apart [] other) : other.Apart [] c where
  definitions q identity id id' hid hid' := h.definitions q identity id' id hid' hid
  aliases q name m m' hm hm' := h.aliases q name m' m hm' hm

/-- At the path, uses are denied by a rule for the namespace there. -/
def RuledAt (c : Compilation) (q : List String) (denial : Denial) : Prop :=
  ∃ r ∈ c.rules, r.denial = denial ∧ ∃ ns, r.site = .within ns ∧ c.SpaceAt q ns

/-- `c` is what `base` has become by the import of `units` below `path`, seen by paths. -/
structure Gathers (base : Compilation) (path : List String) (units : Set Compilation)
    (c : Compilation) : Prop where
  config : c.config = base.config
  scopes : c.scopes = base.scopes
  spaces_kept : ∀ q ns, base.SpaceAt q ns → c.SpaceAt q ns
  spaces : ∀ q, (∃ ns, c.SpaceAt q ns) ↔ (∃ ns, base.SpaceAt q ns) ∨
    ∃ unit ∈ units, q <+: path ∨ ∃ r o, q = path ++ r ∧ unit.SpaceAt r o
  explicit : ∀ q, c.ExplicitAt q ↔ base.ExplicitAt q ∨
    ∃ unit ∈ units, ∃ r, r ≠ [] ∧ q = path ++ r ∧ unit.ExplicitAt r
  definitions_kept : ∀ q identity id, base.DefinedAt q identity id → c.DefinedAt q identity id
  definitions_stored : ∀ id d, base.definitions.get? id = some d → c.definitions.get? id = some d
  definitions_copied : ∀ unit ∈ units, ∀ q identity old, unit.DefinedAt q identity old →
    ∃ d ns id, unit.definitions.get? old = some d ∧ c.DefinedAt (path ++ q) identity id ∧
      c.definitions.get? id = some (d.movedTo ns)
  definitions_only : ∀ q identity id, c.DefinedAt q identity id → base.DefinedAt q identity id ∨
    ∃ unit ∈ units, ∃ r old, q = path ++ r ∧ unit.DefinedAt r identity old
  aliases_kept : ∀ q name m, base.NamedAt q name m → c.NamedAt q name m
  aliases_moved : ∀ unit ∈ units, ∀ q name m, unit.NamedAt q name m →
    ∃ m', c.NamedAt (path ++ q) name m' ∧ Corresponds unit path c m m'
  aliases_only : ∀ q name m, c.NamedAt q name m → base.NamedAt q name m ∨
    ∃ unit ∈ units, ∃ r m₀, q = path ++ r ∧ unit.NamedAt r name m₀
  rules : ∀ q denial, c.RuledAt q denial ↔ base.RuledAt q denial ∨
    ∃ unit ∈ units, ∃ r, q = path ++ r ∧ unit.RuledAt r denial
  scope_rules : ∀ r s, r.site = .scope s → (r ∈ c.rules ↔ r ∈ base.rules)

/-! ## One import more -/

theorem or_exists_insert_iff {α : Type} {s : Set α} {a : α} {P : Prop} {Q : α → Prop} :
    (P ∨ ∃ x ∈ s, Q x) ∨ Q a ↔ P ∨ ∃ x ∈ insert a s, Q x := by
  rw [Set.exists_mem_insert, or_assoc, or_comm (b := Q a)]

theorem Corresponds.mono (h : Corresponds other path c m m')
    (hspaces : ∀ q ns, c.SpaceAt q ns → c'.SpaceAt q ns)
    (hdefinitions : ∀ q identity id, c.DefinedAt q identity id → c'.DefinedAt q identity id) :
    Corresponds other path c' m m' := by
  cases h with
  | definition hold hid => exact .definition hold (hdefinitions _ _ _ hid)
  | space hns hns' => exact .space hns (hspaces _ _ hns')

namespace Union

theorem exists_spaceAt_iff (h : Union c other path mapping c') :
    (∃ ns, c'.SpaceAt q ns) ↔ (∃ ns, c.SpaceAt q ns) ∨
      (q <+: path ∨ ∃ r o, q = path ++ r ∧ other.SpaceAt r o) := by
  constructor
  · rintro ⟨ns, hns⟩
    exact (h.spaces_only q ns hns).imp_left fun hold => ⟨ns, hold⟩
  · rintro (⟨ns, hns⟩ | ⟨rest, rfl⟩ | ⟨r, o, rfl, ho⟩)
    · exact ⟨ns, h.spaces_kept q ns hns⟩
    · obtain ⟨top, -, htop⟩ := h.spaces_placed [] .root (NamespaceTree.leads_nil.2 rfl)
      rw [List.append_nil, SpaceAt, NamespaceTree.leads_append] at htop
      obtain ⟨ns, hns, -⟩ := htop
      exact ⟨ns, hns⟩
    · obtain ⟨ns, -, hns⟩ := h.spaces_placed r o ho
      exact ⟨ns, hns⟩

/-- Rules for namespaces are found at the places of the namespaces. -/
theorem ruledAt_iff (h : Union c other path mapping c') (hc : c.Ordered) (hother : other.Ordered)
    (hc' : c'.Ordered) {denial : Denial} :
    c'.RuledAt q denial ↔ c.RuledAt q denial ∨ ∃ r, q = path ++ r ∧ other.RuledAt r denial := by
  constructor
  · rintro ⟨r, hr, rfl, ns, hsite, hns⟩
    rw [h.rules, List.mem_append, List.mem_filterMap] at hr
    rcases hr with hr | ⟨r₀, hr₀, hmoved⟩
    · have hwithin := hc.closed.rules r hr
      rw [hsite] at hwithin
      obtain ⟨p, hp⟩ := hc.linked.exists_leads hwithin
      obtain rfl := hc'.linked.leads_unique hns (h.spaces_kept p ns hp)
      exact .inl ⟨r, hr, rfl, ns, hsite, hp⟩
    · cases hsite₀ : r₀.site with
      | scope s => simp [Rule.relocated, hsite₀] at hmoved
      | within o =>
        obtain ⟨p, place, hp, hplace, hrelocated⟩ := h.rules_placed r₀ hr₀ o hsite₀
        obtain rfl := Option.some.inj (hrelocated.symm.trans hmoved)
        obtain rfl : place = ns := RuleSite.within.inj hsite
        exact .inr ⟨p, hc'.linked.leads_unique hns hplace, r₀, hr₀, rfl, o, hsite₀, hp⟩
  · rintro (⟨r, hr, rfl, ns, hsite, hns⟩ | ⟨p, rfl, r₀, hr₀, rfl, o, hsite, ho⟩)
    · refine ⟨r, ?_, rfl, ns, hsite, h.spaces_kept q ns hns⟩
      rw [h.rules]
      exact List.mem_append_left _ hr
    · obtain ⟨p', ns, hp', hns, hrelocated⟩ := h.rules_placed r₀ hr₀ o hsite
      obtain rfl := hother.linked.leads_unique ho hp'
      refine ⟨{ r₀ with site := .within ns }, ?_, rfl, ns, rfl, hns⟩
      rw [h.rules]
      exact List.mem_append_right _ (List.mem_filterMap.2 ⟨r₀, hr₀, hrelocated⟩)

theorem scope_rule_iff (h : Union c other path mapping c') {r : Rule} {s : ScopeId}
    (hsite : r.site = .scope s) : r ∈ c'.rules ↔ r ∈ c.rules := by
  rw [h.rules, List.mem_append, or_iff_left]
  intro hr
  obtain ⟨r₀, -, hmoved⟩ := List.mem_filterMap.1 hr
  cases hsite₀ : r₀.site with
  | scope s => simp [Rule.relocated, hsite₀] at hmoved
  | within o =>
    simp only [Rule.relocated, hsite₀, Option.map_eq_some_iff] at hmoved
    obtain ⟨place, -, rfl⟩ := hmoved
    cases hsite

end Union

namespace Gathers

theorem start (base : Compilation) (path : List String) : Gathers base path ∅ base where
  config := rfl
  scopes := rfl
  spaces_kept _ _ hns := hns
  spaces q := by simp
  explicit q := by simp
  definitions_kept _ _ _ hid := hid
  definitions_stored _ _ hd := hd
  definitions_copied := by simp
  definitions_only _ _ _ hid := .inl hid
  aliases_kept _ _ _ hm := hm
  aliases_moved := by simp
  aliases_only _ _ _ hm := .inl hm
  rules q denial := by simp
  scope_rules _ _ _ := Iff.rfl

theorem not_definedAt (h : Gathers base path units c) (hbase : base.Apart path other)
    (hunits : ∀ unit ∈ units, unit.Apart [] other) (hid' : other.DefinedAt q identity id')
    (id : DefId) : ¬ c.DefinedAt (path ++ q) identity id := by
  intro hid
  rcases h.definitions_only _ identity id hid with hold | ⟨unit, hunit, r, old, hr, hold⟩
  · exact hbase.definitions q identity id id' hold hid'
  · obtain rfl := List.append_cancel_left hr
    exact (hunits unit hunit).definitions q identity old id' hold hid'

theorem not_namedAt (h : Gathers base path units c) (hbase : base.Apart path other)
    (hunits : ∀ unit ∈ units, unit.Apart [] other) (hm' : other.NamedAt q name m')
    (m : Meaning) : ¬ c.NamedAt (path ++ q) name m := by
  intro hm
  rcases h.aliases_only _ name m hm with hold | ⟨unit, hunit, r, m₀, hr, hold⟩
  · exact hbase.aliases q name m m' hold hm'
  · obtain rfl := List.append_cancel_left hr
    exact (hunits unit hunit).aliases q name m₀ m' hold hm'

/-- A unit that is apart from all that is there joins it. -/
theorem mount (h : Gathers base path units c) (hunion : Union c other path mapping c')
    (hbase : base.Apart path other) (hunits : ∀ unit ∈ units, unit.Apart [] other)
    (hc : c.Ordered) (hother : other.Ordered) (hc' : c'.Ordered) :
    Gathers base path (insert other units) c' where
  config := hunion.config.trans h.config
  scopes := hunion.scopes.trans h.scopes
  spaces_kept q ns hns := hunion.spaces_kept q ns (h.spaces_kept q ns hns)
  spaces q := by
    rw [hunion.exists_spaceAt_iff, h.spaces]
    exact or_exists_insert_iff
  explicit q := by
    rw [hunion.explicit, h.explicit]
    exact or_exists_insert_iff
  definitions_kept q identity id hid :=
    hunion.definitions_kept q identity id (h.definitions_kept q identity id hid)
  definitions_stored id d hd := hunion.definitions_stored id d (h.definitions_stored id d hd)
  definitions_copied := by
    rintro unit (rfl | hunit) q identity old hold
    · -- The unit meets nothing of its own, so that each of its definitions is copied.
      obtain ⟨d, ns, id, hd, -, hid, -, hd'⟩ := hunion.definitions_copied q identity old hold
        (h.not_definedAt hbase hunits hold)
      exact ⟨d, ns, id, hd, hid, hd'⟩
    · obtain ⟨d, ns, id, hd, hid, hd'⟩ := h.definitions_copied unit hunit q identity old hold
      exact ⟨d, ns, id, hd, hunion.definitions_kept _ identity id hid,
        hunion.definitions_stored id _ hd'⟩
  definitions_only q identity id hid := by
    rcases hunion.definitions_only q identity id hid with hid | ⟨r, old, rfl, hold⟩
    · refine (h.definitions_only q identity id hid).imp_right ?_
      rintro ⟨unit, hunit, hold⟩
      exact ⟨unit, .inr hunit, hold⟩
    · exact .inr ⟨other, .inl rfl, r, old, rfl, hold⟩
  aliases_kept q name m hm := hunion.aliases_kept q name m (h.aliases_kept q name m hm)
  aliases_moved := by
    rintro unit (rfl | hunit) q name m hm
    · exact hunion.aliases_moved q name m hm (h.not_namedAt hbase hunits hm)
    · obtain ⟨m', hm', hcorresponds⟩ := h.aliases_moved unit hunit q name m hm
      exact ⟨m', hunion.aliases_kept _ name m' hm',
        hcorresponds.mono hunion.spaces_kept hunion.definitions_kept⟩
  aliases_only q name m hm := by
    rcases hunion.aliases_only q name m hm with hm | ⟨r, m₀, rfl, hm₀⟩
    · refine (h.aliases_only q name m hm).imp_right ?_
      rintro ⟨unit, hunit, hm₀⟩
      exact ⟨unit, .inr hunit, hm₀⟩
    · exact .inr ⟨other, .inl rfl, r, m₀, rfl, hm₀⟩
  rules q denial := by
    rw [hunion.ruledAt_iff hc hother hc', h.rules]
    exact or_exists_insert_iff
  scope_rules r s hsite := (hunion.scope_rule_iff hsite).trans (h.scope_rules r s hsite)

end Gathers

/-! ## The same units -/

/-- Two compilations have the same at each path, whatever the ids are. -/
structure Agrees (c c' : Compilation) : Prop where
  spaces : ∀ q, (∃ ns, c.SpaceAt q ns) ↔ ∃ ns, c'.SpaceAt q ns
  explicit : ∀ q, c.ExplicitAt q ↔ c'.ExplicitAt q
  definitions : ∀ q identity,
    (∃ id, c.DefinedAt q identity id) ↔ ∃ id, c'.DefinedAt q identity id
  stored : ∀ q identity id id', c.DefinedAt q identity id → c'.DefinedAt q identity id' →
    ∃ d home, c.definitions.get? id = some d ∧ c.SpaceAt q d.home ∧ c'.SpaceAt q home ∧
      c'.definitions.get? id' = some { d with home := home }
  aliases : ∀ q name, (∃ m, c.NamedAt q name m) ↔ ∃ m, c'.NamedAt q name m
  meanings : ∀ q name m m', c.NamedAt q name m → c'.NamedAt q name m' → Corresponds c [] c' m m'
  denials : ∀ q ns ns' target, c.SpaceAt q ns → c'.SpaceAt q ns' →
    (c.Denies ⟨.global, ns⟩ target ↔ c'.Denies ⟨.global, ns'⟩ target)
  contents : ∀ q identity id id', c.DefinedAt q identity id → c'.DefinedAt q identity id' →
    (Compiling.contentOf id).outcome c = (Compiling.contentOf id').outcome c'

theorem DefinedAt.unique (h : c.DefinedAt q identity id) (h' : c.DefinedAt q identity id') :
    id = id' := by
  obtain ⟨ns, hns, hid⟩ := h
  exact Option.some.inj (hid.symm.trans ((definedAt_iff hns).1 h'))

theorem NamedAt.unique (h : c.NamedAt q name m) (h' : c.NamedAt q name m') : m = m' := by
  obtain ⟨ns, hns, hm⟩ := h
  exact Option.some.inj (hm.symm.trans ((namedAt_iff hns).1 h'))

/-- What corresponds to one thing corresponds to each other. -/
theorem Corresponds.between (hunit : unit.Ordered) (h : Corresponds unit path c m₀ m)
    (h' : Corresponds unit path c' m₀ m') : Corresponds c [] c' m m' := by
  cases h with
  | definition hold hid =>
    cases h' with
    | definition hold' hid' =>
      obtain ⟨d, hd, rfl, hhome⟩ := hunit.exists_stored hold
      obtain ⟨rfl, hhome'⟩ := hunit.definedAt_home hold' hd
      obtain rfl := hunit.linked.leads_unique hhome hhome'
      exact .definition hid hid'
  | space hns hplace =>
    cases h' with
    | space hns' hplace' =>
      obtain rfl := hunit.linked.leads_unique hns hns'
      exact .space hplace hplace'

/-- What an alias stands for is at some path. -/
theorem Reachable.corresponds_self (hc : c.Reachable) (hfits : c.Fits) (hm : c.NamedAt q name m) :
    Corresponds c [] c m m := by
  have hlinked := hc.linked hfits
  obtain ⟨ns, -, hm⟩ := hm
  obtain ⟨n, hn, hm⟩ := Option.bind_eq_some_iff.1 hm
  cases m with
  | definition id =>
    obtain ⟨place, n', identity, hn', hid⟩ := hc.intact.aliases ns n hn name id hm
    obtain ⟨r, hr⟩ := hlinked.exists_leads (Arena.holds_of_get? hn')
    have hdefined : c.DefinedAt r identity id :=
      ⟨place, hr, (NamespaceTree.definition?_of_get? hn' identity).trans hid⟩
    exact .definition hdefined hdefined
  | space place =>
    obtain ⟨r, hr⟩ := hlinked.exists_leads ((hc.intact.namespaces ns n hn).aliases name _ hm)
    exact .space hr hr

/-- At the end of a path, uses are denied by the rules for the namespaces along it, and by those for
the scopes around the place. -/
theorem denies_iff_ruledAt (hc : c.Ordered) (hns : c.SpaceAt q ns) {s : ScopeId} {target : Use}
    (hs : c.scopes.table.Holds s) :
    c.Denies ⟨s, ns⟩ target ↔
      (∃ before denial, before <+: q ∧ c.RuledAt before denial ∧ denial.denies target = true) ∨
      ∃ r scope, r ∈ c.rules ∧ r.site = .scope scope ∧ scope ∈ c.scopes.outward s ∧
        r.denial.denies target = true := by
  have hsite : UseSite.Within c.environment ⟨s, ns⟩ := ⟨hs, hc.linked.holds hns⟩
  rw [denies_iff hsite]
  constructor
  · rintro ⟨r, hr, hdenies, hcovers⟩
    unfold Covers at hcovers
    cases hsite : r.site with
    | scope scope =>
      rw [hsite] at hcovers
      exact .inr ⟨r, scope, hr, hsite, hcovers, hdenies⟩
    | within around =>
      rw [hsite] at hcovers
      obtain ⟨before, hbefore, haround⟩ := (hc.linked.mem_outward_iff hns).1 hcovers
      exact .inl ⟨before, r.denial, hbefore, ⟨r, hr, rfl, around, hsite, haround⟩, hdenies⟩
  · rintro (⟨before, _, hbefore, ⟨r, hr, rfl, around, hsite, haround⟩, hdenies⟩ |
      ⟨r, scope, hr, hsite, hscope, hdenies⟩)
    · refine ⟨r, hr, hdenies, ?_⟩
      rw [Covers, hsite]
      exact (hc.linked.mem_outward_iff hns).2 ⟨before, hbefore, haround⟩
    · refine ⟨r, hr, hdenies, ?_⟩
      rw [Covers, hsite]
      exact hscope

namespace Gathers

theorem definedAt_of (h : Gathers base path units c) (h' : Gathers base path units c')
    (hid : c.DefinedAt q identity id) : ∃ id', c'.DefinedAt q identity id' := by
  rcases h.definitions_only q identity id hid with hold | ⟨unit, hunit, r, old, rfl, hold⟩
  · exact ⟨id, h'.definitions_kept q identity id hold⟩
  · obtain ⟨-, -, id', -, hid', -⟩ := h'.definitions_copied unit hunit r identity old hold
    exact ⟨id', hid'⟩

theorem namedAt_of (h : Gathers base path units c) (h' : Gathers base path units c')
    (hm : c.NamedAt q name m) : ∃ m', c'.NamedAt q name m' := by
  rcases h.aliases_only q name m hm with hold | ⟨unit, hunit, r, m₀, rfl, hold⟩
  · exact ⟨m, h'.aliases_kept q name m hold⟩
  · obtain ⟨m', hm', -⟩ := h'.aliases_moved unit hunit r name m₀ hold
    exact ⟨m', hm'⟩

/-- Definitions of `base` are stored as they were, and copies are copies of the same definition. -/
theorem stored_alike (h : Gathers base path units c) (h' : Gathers base path units c')
    (hbase : base.Ordered) (hid : c.DefinedAt q identity id) (hid' : c'.DefinedAt q identity id') :
    ∃ d home, c.definitions.get? id = some d ∧
      c'.definitions.get? id' = some { d with home := home } := by
  rcases h.definitions_only q identity id hid with hold | ⟨unit, hunit, r, old, rfl, hold⟩
  · obtain rfl := (h'.definitions_kept q identity id hold).unique hid'
    obtain ⟨d, hd, -⟩ := hbase.exists_stored hold
    exact ⟨d, d.home, h.definitions_stored id d hd, h'.definitions_stored id d hd⟩
  · obtain ⟨d, ns, copy, hd, hcopy, hcopied⟩ := h.definitions_copied unit hunit r identity old hold
    obtain ⟨d', ns', copy', hd', hcopy', hcopied'⟩ :=
      h'.definitions_copied unit hunit r identity old hold
    obtain rfl := Option.some.inj (hd.symm.trans hd')
    obtain rfl := hcopy.unique hid
    obtain rfl := hcopy'.unique hid'
    exact ⟨_, ns', hcopied, hcopied'⟩

theorem corresponds (h : Gathers base path units c) (h' : Gathers base path units c')
    (hbase : base.Reachable) (hfits : base.Fits) (hunits : ∀ unit ∈ units, unit.Ordered)
    (hm : c.NamedAt q name m) (hm' : c'.NamedAt q name m') : Corresponds c [] c' m m' := by
  rcases h.aliases_only q name m hm with hold | ⟨unit, hunit, r, m₀, rfl, hold⟩
  · obtain rfl := (h'.aliases_kept q name m hold).unique hm'
    have hstays := hbase.corresponds_self hfits hold
    exact (hstays.mono h.spaces_kept h.definitions_kept).between (hbase.ordered hfits)
      (hstays.mono h'.spaces_kept h'.definitions_kept)
  · obtain ⟨m₁, hm₁, hcorresponds⟩ := h.aliases_moved unit hunit r name m₀ hold
    obtain ⟨m₂, hm₂, hcorresponds'⟩ := h'.aliases_moved unit hunit r name m₀ hold
    obtain rfl := hm₁.unique hm
    obtain rfl := hm₂.unique hm'
    exact hcorresponds.between (hunits unit hunit) hcorresponds'

theorem denies_iff (h : Gathers base path units c) (h' : Gathers base path units c')
    (hc : c.Ordered) (hc' : c'.Ordered) (hglobal : base.scopes.table.Holds ScopeId.global)
    {target : Use} (hns : c.SpaceAt q ns) (hns' : c'.SpaceAt q ns') :
    c.Denies ⟨.global, ns⟩ target ↔ c'.Denies ⟨.global, ns'⟩ target := by
  have hrules (r : Rule) (s : ScopeId) : r ∈ c.rules ∧ r.site = .scope s ↔
      r ∈ c'.rules ∧ r.site = .scope s :=
    and_congr_left fun hsite => (h.scope_rules r s hsite).trans (h'.scope_rules r s hsite).symm
  rw [denies_iff_ruledAt hc hns (h.scopes ▸ hglobal),
    denies_iff_ruledAt hc' hns' (h'.scopes ▸ hglobal), h.scopes, h'.scopes]
  simp only [h.rules, h'.rules, ← and_assoc, hrules]

/-- What is gathered from the same units is found at the same paths. -/
theorem transplanted (h : Gathers base path units c) (h' : Gathers base path units c')
    (hbase : base.Reachable) (hfits : base.Fits) (hunits : ∀ unit ∈ units, unit.Ordered) :
    Transplanted c [] c' where
  config := h'.config.trans h.config.symm
  chosen := .inl rfl
  spaces q := (h.spaces q).trans (h'.spaces q).symm
  explicit _ q := (h'.explicit q).trans (h.explicit q).symm
  definitions q identity :=
    ⟨fun ⟨_, hid⟩ => h.definedAt_of h' hid, fun ⟨_, hid⟩ => h'.definedAt_of h hid⟩
  stored q identity id id' hid hid' := by
    obtain ⟨d, home, hd, hd'⟩ := h.stored_alike h' (hbase.ordered hfits) hid hid'
    exact ⟨d, home, d.scope, hd, hd'⟩
  aliases q name m hm := by
    obtain ⟨m', hm'⟩ := h.namedAt_of h' hm
    exact ⟨m', hm', h.corresponds h' hbase hfits hunits hm hm'⟩
  aliases_only q name m' hm' := h'.namedAt_of h hm'
  outer before hbefore hne := absurd (List.prefix_nil.1 hbefore) hne

theorem agrees (h : Gathers base path units c) (h' : Gathers base path units c')
    (hbase : base.Reachable) (hfits : base.Fits) (hunits : ∀ unit ∈ units, unit.Ordered)
    (hc : c.Ordered) (hc' : c'.Ordered) (hcache : c.session.cache = .empty)
    (hcache' : c'.session.cache = .empty) : Agrees c c' where
  spaces q := (h.spaces q).trans (h'.spaces q).symm
  explicit q := (h.explicit q).trans (h'.explicit q).symm
  definitions := (h.transplanted h' hbase hfits hunits).definitions
  stored q identity id id' hid hid' := by
    obtain ⟨d, home, hd, hd'⟩ := h.stored_alike h' (hbase.ordered hfits) hid hid'
    exact ⟨d, home, hd, (hc.definedAt_home hid hd).2, (hc'.definedAt_home hid' hd').2, hd'⟩
  aliases q name := ⟨fun ⟨_, hm⟩ => h.namedAt_of h' hm, fun ⟨_, hm⟩ => h'.namedAt_of h hm⟩
  meanings _ _ _ _ := h.corresponds h' hbase hfits hunits
  denials _ _ _ _ := h.denies_iff h' hc hc' hbase.intact.global
  contents q identity id id' hid hid' := by
    have hmirrors := (h.transplanted h' hbase hfits hunits).mirrors hc hc'
    have hcarries := contentOf_carries hmirrors (twins_of_definedAt hid hid')
      (hmirrors.deletesAlike rfl id) hcache hcache'
    exact hcarries.eq rfl

end Gathers

/-- Two units that are imported one after the other come to stand side by side. -/
theorem Reachable.gathers_pair {a b : Compilation} (hc : c.Reachable) (ha : a.Reachable)
    (hb : b.Reachable) (hafits : a.Fits) (hbfits : b.Fits)
    (hfits : ((Compiling.mount b path).after ((Compiling.mount a path).after c)).Fits)
    (hca : c.Apart path a) (hcb : c.Apart path b) (hab : a.Apart [] b) :
    (Compiling.mount a path).outcome c = .ok () ∧
    (Compiling.mount b path).outcome ((Compiling.mount a path).after c) = .ok () ∧
    ((Compiling.mount b path).after ((Compiling.mount a path).after c)).session.cache = .empty ∧
    Gathers c path {b, a} ((Compiling.mount b path).after ((Compiling.mount a path).after c)) := by
  have hfirst := hc.mount path ha
  have hsecond := hfirst.mount path hb
  have hgrows := (Compiling.mount_runs hfirst.intact hb.intact path).1.grows
  have hgrows' := (Compiling.mount_runs hc.intact ha.intact path).1.grows
  have hmid := hgrows.fits hfits
  have hordered := hc.ordered (hgrows'.fits hmid)
  obtain ⟨hok, _, hunion⟩ := hc.mount_union ha hafits path hmid
  obtain ⟨hok', _, hunion'⟩ := hfirst.mount_union hb hbfits path hfits
  have hone : Gathers c path {a} ((Compiling.mount a path).after c) := by
    have hstep := (Gathers.start c path).mount hunion hca (by simp) hordered (ha.ordered hafits)
      (hfirst.ordered hmid)
    rwa [insert_empty_eq] at hstep
  refine ⟨hok, hok', hunion'.cache, hone.mount hunion' hcb ?_ (hfirst.ordered hmid)
    (hb.ordered hbfits) (hsecond.ordered hfits)⟩
  rintro unit rfl
  exact hab

/-- Two units are imported below the same path, and no two of the units and of what was there have
something under the same name at the same place. Then the order of the imports is not seen: namespaces,
definitions, aliases, denials and content are the same at each path. -/
theorem Reachable.mount_comm {a b : Compilation} (hc : c.Reachable) (ha : a.Reachable)
    (hb : b.Reachable) (hafits : a.Fits) (hbfits : b.Fits) (path : List String)
    (hfits : ((Compiling.mount b path).after ((Compiling.mount a path).after c)).Fits)
    (hfits' : ((Compiling.mount a path).after ((Compiling.mount b path).after c)).Fits)
    (hca : c.Apart path a) (hcb : c.Apart path b) (hab : a.Apart [] b) :
    (Compiling.mount a path).outcome c = .ok () ∧
    (Compiling.mount b path).outcome ((Compiling.mount a path).after c) = .ok () ∧
    (Compiling.mount b path).outcome c = .ok () ∧
    (Compiling.mount a path).outcome ((Compiling.mount b path).after c) = .ok () ∧
    Agrees ((Compiling.mount b path).after ((Compiling.mount a path).after c))
      ((Compiling.mount a path).after ((Compiling.mount b path).after c)) := by
  have hfirst := hc.mount path ha
  have hgrows := (Compiling.mount_runs hfirst.intact hb.intact path).1.grows
  have hgrows' := (Compiling.mount_runs hc.intact ha.intact path).1.grows
  have hcfits := hgrows'.fits (hgrows.fits hfits)
  obtain ⟨hok, hok', hcache, h⟩ := hc.gathers_pair ha hb hafits hbfits hfits hca hcb hab
  obtain ⟨hok₁, hok₂, hcache', h'⟩ := hc.gathers_pair hb ha hbfits hafits hfits' hcb hca hab.symm
  -- The order of the two imports is only in the order of the set.
  rw [Set.pair_comm] at h'
  refine ⟨hok, hok', hok₁, hok₂, h.agrees h' hc hcfits ?_
    ((hfirst.mount path hb).ordered hfits) (((hc.mount path hb).mount path ha).ordered hfits')
    hcache hcache'⟩
  rintro unit (rfl | rfl)
  · exact hb.ordered hbfits
  · exact ha.ordered hafits

/-- Whatever the paths are, compilations are apart if no identity and no name of an alias is in both. -/
theorem apart_of_forall_ne
    (hdefinitions : ∀ n ∈ c.namespaces.table.entries.toList,
      ∀ n' ∈ other.namespaces.table.entries.toList,
        ∀ e ∈ n.definitions.entries, ∀ e' ∈ n'.definitions.entries, e.1 ≠ e'.1)
    (haliases : ∀ n ∈ c.namespaces.table.entries.toList,
      ∀ n' ∈ other.namespaces.table.entries.toList,
        ∀ e ∈ n.aliases.entries, ∀ e' ∈ n'.aliases.entries, e.1 ≠ e'.1) :
    c.Apart path other where
  definitions := by
    rintro q identity id id' ⟨ns, -, hid⟩ ⟨ns', -, hid'⟩
    obtain ⟨n, hn, hid⟩ := Option.bind_eq_some_iff.1 hid
    obtain ⟨n', hn', hid'⟩ := Option.bind_eq_some_iff.1 hid'
    exact hdefinitions n (Array.mem_toList_iff.2 (Array.mem_of_getElem? hn)) n'
      (Array.mem_toList_iff.2 (Array.mem_of_getElem? hn')) _ (OrderedMap.get?_eq_some_iff.1 hid) _
      (OrderedMap.get?_eq_some_iff.1 hid') rfl
  aliases := by
    rintro q name m m' ⟨ns, -, hm⟩ ⟨ns', -, hm'⟩
    obtain ⟨n, hn, hm⟩ := Option.bind_eq_some_iff.1 hm
    obtain ⟨n', hn', hm'⟩ := Option.bind_eq_some_iff.1 hm'
    exact haliases n (Array.mem_toList_iff.2 (Array.mem_of_getElem? hn)) n'
      (Array.mem_toList_iff.2 (Array.mem_of_getElem? hn')) _ (OrderedMap.get?_eq_some_iff.1 hm) _
      (OrderedMap.get?_eq_some_iff.1 hm') rfl

end Stencil.Compilation

namespace Stencil

open Compilation

/-- A lobby with a door in it. -/
def lobby : Compilation :=
  Operation.afterAll
    [.openNamespacePath ["lobby"], paintwork "Door" "height" "2m" [], .closeNamespace]
    (.initial .initial)

/-- Paint with a second name. Sacks are denied where there is paint. -/
def paints : Compilation :=
  Operation.afterAll
    [paintwork "Paint" "color" "red" [], .nameDefinition "Coat" "@Style Paint" none,
      .addRule (.name "Sack") .global none]
    (.initial .initial)

/-- A wall that inherits from something which is not there yet. -/
def walls : Compilation :=
  Operation.afterAll
    [paintwork "Wall" "width" "1px" [⟨.ofKind .style "Coat", .explicit, [], none⟩],
      .nameDefinition "Side" "@Style Wall" none]
    (.initial .initial)

/-- The wall finds its coat of paint, whichever of both comes first. -/
theorem mount_comm_lobby :
    lobby.Reachable ∧ paints.Reachable ∧ walls.Reachable ∧ lobby.Apart ["lobby"] paints ∧
    lobby.Apart ["lobby"] walls ∧ paints.Apart [] walls ∧
    Agrees ((Compiling.mount walls ["lobby"]).after ((Compiling.mount paints ["lobby"]).after lobby))
      ((Compiling.mount paints ["lobby"]).after ((Compiling.mount walls ["lobby"]).after lobby)) ∧
    ((Compiling.contentOf ⟨2⟩).outcome ((Compiling.mount walls ["lobby"]).after
      ((Compiling.mount paints ["lobby"]).after lobby))).map Content.size = .ok 2 ∧
    (Compiling.contentOf ⟨2⟩).outcome
        ((Compiling.mount walls ["lobby"]).after ((Compiling.mount paints ["lobby"]).after lobby)) =
      (Compiling.contentOf ⟨1⟩).outcome
        ((Compiling.mount paints ["lobby"]).after ((Compiling.mount walls ["lobby"]).after lobby)) := by
  have hlobby : lobby.Reachable := (Reachable.initial .initial).afterAll _
  have hpaints : paints.Reachable := (Reachable.initial .initial).afterAll _
  have hwalls : walls.Reachable := (Reachable.initial .initial).afterAll _
  have hca : lobby.Apart ["lobby"] paints :=
    apart_of_forall_ne (by decide +kernel) (by decide +kernel)
  have hcb : lobby.Apart ["lobby"] walls :=
    apart_of_forall_ne (by decide +kernel) (by decide +kernel)
  have hab : paints.Apart [] walls :=
    apart_of_forall_ne (by decide +kernel) (by decide +kernel)
  obtain ⟨-, -, -, -, hagrees⟩ := hlobby.mount_comm hpaints hwalls
    ⟨by decide +kernel, by decide +kernel⟩ ⟨by decide +kernel, by decide +kernel⟩ ["lobby"]
    ⟨by decide +kernel, by decide +kernel⟩ ⟨by decide +kernel, by decide +kernel⟩ hca hcb hab
  refine ⟨hlobby, hpaints, hwalls, hca, hcb, hab, hagrees, by decide +kernel,
    hagrees.contents ["lobby"] ⟨.custom, .style, "Wall"⟩ _ _ ⟨⟨1⟩, ?_, by decide +kernel⟩
      ⟨⟨1⟩, ?_, by decide +kernel⟩⟩
  · exact NamespaceTree.leads_cons.2 ⟨⟨1⟩, by decide +kernel, NamespaceTree.leads_nil.2 rfl⟩
  · exact NamespaceTree.leads_cons.2 ⟨⟨1⟩, by decide +kernel, NamespaceTree.leads_nil.2 rfl⟩

end Stencil
