import Stencil.Proofs.Confinement
import Stencil.Proofs.Counterparts
import Stencil.Proofs.Mismatch

/-! # How a bare name is decided

An alias decides before the definitions do. Where there is none, each strategy is a rule on the lists of
candidates of the namespaces around, and the rules agree as long as there is one candidate.
-/
namespace Stencil

open Compilation

theorem Category.mem_members {k : Category} {origin : Origin} {kind : Kind} :
    (origin, kind) ∈ k.members ↔ k.admits origin kind := by
  have hall : (origin, kind) ∈ Origin.all.flatMap fun o => Kind.all.map fun k => (o, k) := by
    cases origin <;> cases kind <;> decide
  rw [members, List.mem_filter]
  exact and_iff_right hall

/-! ## Candidates -/

namespace NamespaceTree

variable {t : NamespaceTree} {a : NamespaceId} {name : String} {k : Category} {id : DefId}

/-- The definitions of that name in the category that the namespace has. -/
def candidates (t : NamespaceTree) (name : String) (k : Category) (a : NamespaceId) : List DefId :=
  k.members.filterMap fun (origin, kind) => t.definition? a ⟨origin, kind, name⟩

theorem mem_candidates : id ∈ t.candidates name k a ↔
    ∃ identity, t.definition? a identity = some id ∧ identity.name = name ∧ k.covers identity := by
  rw [candidates, List.mem_filterMap]
  constructor
  · rintro ⟨⟨origin, kind⟩, hmem, hid⟩
    exact ⟨⟨origin, kind, name⟩, hid, rfl, Category.mem_members.1 hmem⟩
  · rintro ⟨⟨origin, kind, _⟩, hid, rfl, hcovers⟩
    exact ⟨(origin, kind), Category.mem_members.2 hcovers, hid⟩

/-- The candidates of each namespace from `start` up to the root, innermost first. -/
def candidatesAround (t : NamespaceTree) (start : NamespaceId) (name : String) (k : Category) :
    List (List DefId) :=
  (t.outward start).map (t.candidates name k)

theorem mem_flatten_candidatesAround {start : NamespaceId} :
    id ∈ (t.candidatesAround start name k).flatten ↔
      ∃ a ∈ t.outward start, id ∈ t.candidates name k a := by
  simp [candidatesAround, List.mem_flatten]

end NamespaceTree

/-- The definitions that were found. -/
def Outcome.ids : Outcome → List DefId
  | found id => [id]
  | ambiguous ids => ids
  | notFound => []

namespace Outcome

variable {ids : List DefId} {id : DefId}

theorem ids_ofCandidates (ids : List DefId) : (ofCandidates ids).ids = ids := by
  match ids with
  | [] => rfl
  | [_] => rfl
  | _ :: _ :: _ => rfl

theorem ofCandidates_eq_notFound : ofCandidates ids = notFound ↔ ids = [] := by
  match ids with
  | [] => simp [ofCandidates]
  | [_] => simp [ofCandidates]
  | _ :: _ :: _ => simp [ofCandidates]

theorem ofCandidates_eq_found : ofCandidates ids = found id ↔ ids = [id] := by
  match ids with
  | [] => simp [ofCandidates]
  | [_] => simp [ofCandidates]
  | _ :: _ :: _ => simp [ofCandidates]

theorem ofCandidates_eq_ambiguous {ids' : List DefId} :
    ofCandidates ids = ambiguous ids' ↔ 2 ≤ ids.length ∧ ids' = ids := by
  match ids with
  | [] => simp [ofCandidates]
  | [_] => simp [ofCandidates]
  | _ :: _ :: _ => simp [ofCandidates, eq_comm]

end Outcome

namespace Library

variable {l : Library} {start a : NamespaceId} {name : String} {k : Category} {id : DefId}
  {s : Strategy}

/-- The library with another strategy. -/
def under (l : Library) (s : Strategy) : Library := { l with strategy := s }

/-! ## Aliases -/

/-- In the namespace the name is an alias of a definition of the category. -/
def Aliases (l : Library) (name : String) (k : Category) (a : NamespaceId) (id : DefId) : Prop :=
  l.namespaces.alias? a name = some (.definition id) ∧
    ∃ d, l.definitions.get? id = some d ∧ k.covers d.identity

/-- Of all namespaces from `start` up to the root that have such an alias, the innermost has one for
that definition. -/
def AliasedFrom (l : Library) (start : NamespaceId) (name : String) (k : Category) (id : DefId) :
    Prop :=
  ∃ inner a outer, l.namespaces.outward start = inner ++ a :: outer ∧ l.Aliases name k a id ∧
    ∀ b ∈ inner, ∀ other, ¬ l.Aliases name k b other

theorem AliasedFrom.covered (h : l.AliasedFrom start name k id) :
    ∃ d, l.definitions.get? id = some d ∧ k.covers d.identity := by
  obtain ⟨-, a, -, -, halias, -⟩ := h
  exact halias.2

/-- What the alias of that name in a namespace stands for, if that is of the category. -/
def aliased? (l : Library) (name : String) (k : Category) (a : NamespaceId) : Option DefId :=
  match l.namespaces.alias? a name with
  | some (.definition id) =>
    (l.definitions.get? id).bind fun d => if k.covers d.identity then some id else none
  | _ => none

theorem aliased?_eq_some_iff : l.aliased? name k a = some id ↔ l.Aliases name k a id := by
  unfold aliased? Aliases
  split
  · rename_i id' halias
    rw [halias, Option.bind_eq_some_iff]
    simp only [Option.some.injEq, Meaning.definition.injEq, Option.ite_none_right_eq_some]
    constructor
    · rintro ⟨d, hd, hcovers, rfl⟩
      exact ⟨rfl, d, hd, hcovers⟩
    · rintro ⟨rfl, d, hd, hcovers⟩
      exact ⟨d, hd, hcovers, rfl⟩
  · rename_i hother
    constructor
    · nofun
    · exact fun h => absurd h.1 (hother id)

theorem aliased?_eq_none_iff : l.aliased? name k a = none ↔ ∀ id, ¬ l.Aliases name k a id := by
  simp only [← aliased?_eq_some_iff, Option.eq_none_iff_forall_ne_some, ne_eq]

namespace Closed

theorem aliasFor_eq (hl : l.Closed) (hstart : l.namespaces.table.Holds start) (name : String)
    (k : Category) : l.aliasFor start name k =
      .ok ((l.namespaces.outward start).findSome? (l.aliased? name k)) := by
  obtain ⟨ids, hids, rfl, hholds⟩ := NamespaceTree.finds_outwardFrom hstart
  have halias : ∀ x ∈ l.namespaces.outward start,
      l.aliasIn name k x = .ok (l.aliased? name k x) := by
    intro x hx
    rw [Mirrors.aliasIn_eq (hholds x hx), aliased?]
    cases hm : l.namespaces.alias? x name with
    | none => rfl
    | some m =>
      cases m with
      | space _ => rfl
      | definition id =>
        obtain ⟨n, hn, hm⟩ := Option.bind_eq_some_iff.1 hm
        have hid : l.definitions.Holds id := hl.aliased hn hm
        obtain ⟨d, hd⟩ := hid.exists_get?
        simp only [find, Arena.find_of_get? hd, hd]
        rfl
  rw [aliasFor, hids]
  exact (findSomeM?_congr halias).trans List.findSomeM?_pure

theorem lookup_of_aliased (hl : l.Closed) (hstart : l.namespaces.table.Holds start) {n : Name}
    (hbare : n.path = []) (halias : l.AliasedFrom start n.name k id) :
    l.lookup start n k = .ok (.found id) := by
  have hpath : n.hasPath = false := by simp [Name.hasPath, hbare]
  have hfirst : (l.namespaces.outward start).findSome? (l.aliased? n.name k) = some id := by
    obtain ⟨inner, a, outer, houtward, hid, hinner⟩ := halias
    exact List.findSome?_eq_some_iff.2 ⟨inner, a, outer, houtward, aliased?_eq_some_iff.2 hid,
      fun b hb => aliased?_eq_none_iff.2 (hinner b hb)⟩
  simp only [lookup, hpath, lookupBare, hl.aliasFor_eq hstart, hfirst]
  rfl

end Closed

theorem exists_aliasedFrom (h : ∃ a ∈ l.namespaces.outward start, ∃ id, l.Aliases name k a id) :
    ∃ id, l.AliasedFrom start name k id := by
  obtain ⟨a, ha, id, hid⟩ := h
  have hsome : ((l.namespaces.outward start).findSome? (l.aliased? name k)).isSome := by
    rw [List.findSome?_isSome_iff]
    exact ⟨a, ha, Option.isSome_iff_exists.2 ⟨id, aliased?_eq_some_iff.2 hid⟩⟩
  obtain ⟨id', hfirst⟩ := Option.isSome_iff_exists.1 hsome
  obtain ⟨inner, b, outer, houtward, hb, hinner⟩ := List.findSome?_eq_some_iff.1 hfirst
  exact ⟨id', inner, b, outer, houtward, aliased?_eq_some_iff.1 hb,
    fun x hx => aliased?_eq_none_iff.1 (hinner x hx)⟩

/-! ## Candidates decide -/

section Nearest

variable {levels inner outer : List (List DefId)} {ids : List DefId}

/-- The innermost level that has candidates. -/
def nearest (levels : List (List DefId)) : List DefId :=
  (levels.find? fun ids => !ids.isEmpty).getD []

theorem nearest_append (hinner : ∀ e ∈ inner, e = []) (hids : ids ≠ []) :
    nearest (inner ++ ids :: outer) = ids := by
  have hfirst : (inner ++ ids :: outer).find? (fun ids => !ids.isEmpty) = some ids := by
    refine List.find?_eq_some_iff_append.2 ⟨by simpa using hids, inner, outer, rfl, ?_⟩
    intro e he
    simp [hinner e he]
  rw [nearest, hfirst, Option.getD_some]

theorem nearest_sublist (levels : List (List DefId)) : (nearest levels).Sublist levels.flatten := by
  rw [nearest]
  cases hfirst : levels.find? fun ids => !ids.isEmpty with
  | none => exact List.nil_sublist _
  | some ids => exact List.sublist_flatten_of_mem (List.mem_of_find?_eq_some hfirst)

theorem nearest_eq_nil_iff : nearest levels = [] ↔ levels.flatten = [] := by
  refine ⟨fun hnil => ?_, fun hnil => List.sublist_nil.1 (hnil ▸ nearest_sublist levels)⟩
  rw [nearest] at hnil
  cases hfirst : levels.find? fun ids => !ids.isEmpty with
  | none => simpa using hfirst
  | some ids =>
    rw [hfirst] at hnil
    cases hnil
    simpa using List.find?_some hfirst

end Nearest

theorem levels_eq (hstart : l.namespaces.table.Holds start) (name : String) (k : Category) :
    l.levels start name k = .ok ((l.namespaces.candidatesAround start name k).filter
      fun ids => !ids.isEmpty) := by
  obtain ⟨ids, hids, rfl, hholds⟩ := NamespaceTree.finds_outwardFrom hstart
  have hall : (l.namespaces.outward start).mapM (fun x => l.namespaces.named x name k) =
      .ok (l.namespaces.candidatesAround start name k) :=
    (mapM_congr fun x hx => NamespaceTree.named_eq (hholds x hx) name k).trans List.mapM_pure
  simp only [levels, hids, bind, Except.bind, hall]
  rfl

theorem lookup_of_not_aliased (hl : l.Closed) (hstart : l.namespaces.table.Holds start) {n : Name}
    (hbare : n.path = [])
    (hnone : ∀ a ∈ l.namespaces.outward start, ∀ id, ¬ l.Aliases n.name k a id) :
    l.lookup start n k = l.choose ((l.namespaces.candidatesAround start n.name k).filter
      fun ids => !ids.isEmpty) := by
  have hpath : n.hasPath = false := by simp [Name.hasPath, hbare]
  have hfirst : (l.namespaces.outward start).findSome? (l.aliased? n.name k) = none :=
    List.findSome?_eq_none_iff.2 fun a ha => aliased?_eq_none_iff.2 (hnone a ha)
  simp only [lookup, hpath, lookupBare, hl.aliasFor_eq hstart, hfirst, levels_eq hstart]
  rfl

theorem choose_of_error (hstrategy : l.strategy = .error) (levels : List (List DefId)) :
    l.choose levels = .ok (.ofCandidates levels.flatten) := by
  simp only [choose, hstrategy]
  split
  · rfl
  · rename_i hmany
    have hmore : 2 ≤ levels.flatten.length := by omega
    rw [Outcome.ofCandidates_eq_ambiguous.2 ⟨hmore, rfl⟩]
    rfl

/-- The first candidate that is explicit is chosen, or else the first one. -/
theorem choose_of_preferExplicit (hstrategy : l.strategy = .preferExplicit)
    {levels : List (List DefId)} {p : DefId → Bool}
    (hp : ∀ id ∈ levels.flatten, l.isExplicit id = .ok (p id)) :
    l.choose levels = .ok ((((levels.flatten.find? p).or levels.flatten.head?).map
      Outcome.found).getD .notFound) := by
  simp only [choose, hstrategy, findM?_of_ok hp]
  generalize levels.flatten = all
  rcases all with _ | ⟨id, _ | ⟨id', rest⟩⟩
  · rfl
  · cases hid : p id <;> simp [hid] <;> rfl
  · have hmany : ¬ (id :: id' :: rest).length ≤ 1 := by simp
    rw [if_neg hmany]
    cases List.find? p (id :: id' :: rest) <;> rfl

end Library

/-! ## The rules -/

namespace Compilation

variable {c : Compilation} {start : NamespaceId} {n : Name} {k : Category} {id : DefId}

/-- The definition is registered in a namespace around that was opened by a block of its own. -/
def InExplicit (c : Compilation) (start : NamespaceId) (id : DefId) : Prop :=
  ∃ a ∈ c.namespaces.outward start, c.namespaces.Explicit a ∧
    ∃ identity, c.namespaces.definition? a identity = some id

/-- What each strategy makes of the candidates for a bare name. -/
structure Decided (c : Compilation) (start : NamespaceId) (n : Name) (k : Category)
    (levels : List (List DefId)) : Prop where
  missing : ∀ s, (c.library.under s).lookup start n k = .ok .notFound ↔ ∀ ids ∈ levels, ids = []
  single : ∀ id, (c.library.under .error).lookup start n k = .ok (.found id) ↔
    levels.flatten = [id]
  agreed : ∀ id, (c.library.under .error).lookup start n k = .ok (.found id) →
    ∀ s, (c.library.under s).lookup start n k = .ok (.found id)
  contested : ∀ ids, (c.library.under .error).lookup start n k = .ok (.ambiguous ids) ↔
    2 ≤ levels.flatten.length ∧ ids = levels.flatten
  /-- The innermost namespace that has a candidate decides. -/
  current : ∀ inner ids outer, levels = inner ++ ids :: outer → (∀ e ∈ inner, e = []) → ids ≠ [] →
    (∀ id, (c.library.under .preferCurrent).lookup start n k = .ok (.found id) ↔ ids = [id]) ∧
    ((∀ id, ids ≠ [id]) →
      (c.library.under .preferCurrent).lookup start n k = .ok (.ambiguous ids))
  definite : ∀ ids, (c.library.under .preferExplicit).lookup start n k ≠ .ok (.ambiguous ids)
  /-- The innermost candidate in an explicit namespace is chosen. -/
  explicit : ∀ before id after, levels.flatten = before ++ id :: after → c.InExplicit start id →
    (∀ x ∈ before, ¬ c.InExplicit start x) →
    (c.library.under .preferExplicit).lookup start n k = .ok (.found id)
  /-- Where no candidate is in an explicit namespace, the innermost is chosen. -/
  implicit : (∀ x ∈ levels.flatten, ¬ c.InExplicit start x) →
    ∀ id, levels.flatten.head? = some id →
      (c.library.under .preferExplicit).lookup start n k = .ok (.found id)

/-- Whether the namespace of a definition was opened by a block of its own. -/
def homeExplicit (c : Compilation) (id : DefId) : Bool :=
  (((c.definitions.get? id).bind fun d => c.namespaces.table.get? d.home).map
    Namespace.explicit).getD false

theorem isExplicit_eq_homeExplicit (hc : c.Closed) (hid : c.definitions.Holds id) :
    c.library.isExplicit id = .ok (c.homeExplicit id) := by
  obtain ⟨d, hd⟩ := hid.exists_get?
  have hhome : c.namespaces.table.Holds d.home := (hc.definitions id d hd).1
  obtain ⟨m, hm⟩ := hhome.exists_get?
  simp only [Library.isExplicit, Library.find, library, NamespaceTree.find, homeExplicit,
    Arena.find_of_get? hd, hd]
  simp [bind, Except.bind, Arena.find_of_get? hm, hm, pure, Except.pure]

/-- A definition is in one namespace only, the one it is stored with. -/
theorem Filed.homeExplicit_iff (hfiled : c.Filed) {a : NamespaceId} {identity : Identity}
    (ha : a ∈ c.namespaces.outward start) (hid : c.namespaces.definition? a identity = some id) :
    c.homeExplicit id = true ↔ c.InExplicit start id := by
  have hhome {b : NamespaceId} {other : Identity}
      (hb : c.namespaces.definition? b other = some id) :
      ∃ d m, c.definitions.get? id = some d ∧ d.home = b ∧ c.namespaces.table.get? b = some m := by
    obtain ⟨m, hm, hb⟩ := Option.bind_eq_some_iff.1 hb
    obtain ⟨d, hd, -, hhome⟩ := hfiled b m hm other id hb
    exact ⟨d, m, hd, hhome, hm⟩
  obtain ⟨d, m, hd, rfl, hm⟩ := hhome hid
  simp only [homeExplicit, hd, Option.bind_some, hm, Option.map_some, Option.getD_some]
  constructor
  · exact fun hexplicit => ⟨d.home, ha, ⟨m, hm, hexplicit⟩, identity, hid⟩
  · rintro ⟨b, -, ⟨m', hm', hexplicit⟩, other, hb⟩
    obtain ⟨d', -, hd', rfl, -⟩ := hhome hb
    obtain rfl := Option.some.inj (hd.symm.trans hd')
    obtain rfl := Option.some.inj (hm.symm.trans hm')
    exact hexplicit

/-! The outcome under each strategy, where no alias decides. -/

section Unaliased

variable (hc : c.Closed) (hstart : c.namespaces.table.Holds start) (hbare : n.path = [])
  (hnone : ∀ a ∈ c.namespaces.outward start, ∀ id, ¬ c.library.Aliases n.name k a id)

include hc hstart hbare hnone

theorem lookup_under (s : Strategy) : (c.library.under s).lookup start n k =
    (c.library.under s).choose ((c.namespaces.candidatesAround start n.name k).filter
      fun ids => !ids.isEmpty) :=
  Library.lookup_of_not_aliased (l := c.library.under s)
    ⟨hc.library.namespaces, hc.library.definitions⟩ hstart hbare hnone

theorem lookup_under_error : (c.library.under .error).lookup start n k =
    .ok (.ofCandidates (c.namespaces.candidatesAround start n.name k).flatten) := by
  rw [lookup_under hc hstart hbare hnone, Library.choose_of_error rfl,
    List.flatten_filter_not_isEmpty]

theorem lookup_under_preferCurrent : (c.library.under .preferCurrent).lookup start n k =
    .ok (.ofCandidates (Library.nearest (c.namespaces.candidatesAround start n.name k))) := by
  have hlevels : ∀ ids ∈ (c.namespaces.candidatesAround start n.name k).filter
      fun ids => !ids.isEmpty, ids ≠ [] := by
    intro ids hids
    simpa using (List.mem_filter.1 hids).2
  rw [lookup_under hc hstart hbare hnone, Library.Mirrors.choose_of_preferCurrent rfl hlevels,
    List.head?_filter, Library.nearest]

theorem lookup_under_preferExplicit : (c.library.under .preferExplicit).lookup start n k =
    .ok (((((c.namespaces.candidatesAround start n.name k).flatten.find? c.homeExplicit).or
      (c.namespaces.candidatesAround start n.name k).flatten.head?).map Outcome.found).getD
        .notFound) := by
  rw [lookup_under hc hstart hbare hnone, Library.choose_of_preferExplicit (p := c.homeExplicit) rfl,
    List.flatten_filter_not_isEmpty]
  intro id hid
  rw [List.flatten_filter_not_isEmpty] at hid
  obtain ⟨a, -, hid⟩ := NamespaceTree.mem_flatten_candidatesAround.1 hid
  obtain ⟨identity, hid, -⟩ := NamespaceTree.mem_candidates.1 hid
  obtain ⟨m, hm, hid⟩ := Option.bind_eq_some_iff.1 hid
  exact isExplicit_eq_homeExplicit hc ((hc.namespaces a m hm).definitions identity id hid)

/-- Only candidates are found. -/
theorem exists_lookup_under (s : Strategy) : ∃ r, (c.library.under s).lookup start n k = .ok r ∧
    (r = .notFound ↔ (c.namespaces.candidatesAround start n.name k).flatten = []) ∧
    ∀ id ∈ r.ids, id ∈ (c.namespaces.candidatesAround start n.name k).flatten := by
  cases s with
  | error =>
    refine ⟨_, lookup_under_error hc hstart hbare hnone, Outcome.ofCandidates_eq_notFound, ?_⟩
    rw [Outcome.ids_ofCandidates]
    exact fun _ => id
  | preferCurrent =>
    refine ⟨_, lookup_under_preferCurrent hc hstart hbare hnone, ?_, ?_⟩
    · rw [Outcome.ofCandidates_eq_notFound, Library.nearest_eq_nil_iff]
    · rw [Outcome.ids_ofCandidates]
      exact fun id hid => (Library.nearest_sublist _).subset hid
  | preferExplicit =>
    refine ⟨_, lookup_under_preferExplicit hc hstart hbare hnone, ?_, ?_⟩
    · generalize (c.namespaces.candidatesAround start n.name k).flatten = all
      cases all with
      | nil => simp
      | cons id ids => cases List.find? c.homeExplicit (id :: ids) <;> simp
    · generalize (c.namespaces.candidatesAround start n.name k).flatten = all
      intro id hid
      cases hfirst : all.find? c.homeExplicit with
      | some id' =>
        simp only [hfirst, Option.some_or, Option.map_some, Option.getD_some, Outcome.ids,
          List.mem_singleton] at hid
        exact hid ▸ List.mem_of_find?_eq_some hfirst
      | none =>
        cases hhead : all.head? with
        | none => simp [hfirst, hhead, Outcome.ids] at hid
        | some id' =>
          simp only [hfirst, hhead, Option.none_or, Option.map_some, Option.getD_some, Outcome.ids,
            List.mem_singleton] at hid
          exact hid ▸ List.mem_of_head? hhead

theorem decided (hfiled : c.Filed) :
    c.Decided start n k (c.namespaces.candidatesAround start n.name k) := by
  have herror := lookup_under_error hc hstart hbare hnone
  have hcurrent := lookup_under_preferCurrent hc hstart hbare hnone
  have hexplicit := lookup_under_preferExplicit hc hstart hbare hnone
  have hmarked : ∀ id ∈ (c.namespaces.candidatesAround start n.name k).flatten,
      (c.homeExplicit id = true ↔ c.InExplicit start id) := by
    intro id hid
    obtain ⟨a, ha, hid⟩ := NamespaceTree.mem_flatten_candidatesAround.1 hid
    obtain ⟨identity, hid, -⟩ := NamespaceTree.mem_candidates.1 hid
    exact hfiled.homeExplicit_iff ha hid
  have hmissing (s : Strategy) : (c.library.under s).lookup start n k = .ok .notFound ↔
      ∀ ids ∈ c.namespaces.candidatesAround start n.name k, ids = [] := by
    obtain ⟨r, hr, hnotFound, -⟩ := exists_lookup_under hc hstart hbare hnone s
    rw [hr, Except.ok.injEq, hnotFound, List.flatten_eq_nil_iff]
  have hsingle (id : DefId) : (c.library.under .error).lookup start n k = .ok (.found id) ↔
      (c.namespaces.candidatesAround start n.name k).flatten = [id] := by
    rw [herror, Except.ok.injEq, Outcome.ofCandidates_eq_found]
  generalize c.namespaces.candidatesAround start n.name k = levels at *
  constructor
  · exact hmissing
  · exact hsingle
  · intro id hid s
    have hone := (hsingle id).1 hid
    cases s with
    | error => exact hid
    | preferCurrent =>
      have hids : Library.nearest levels = [id] := by
        refine (List.sublist_singleton.1 (hone ▸ Library.nearest_sublist levels)).resolve_left ?_
        rw [Library.nearest_eq_nil_iff, hone]
        exact List.cons_ne_nil _ _
      rw [hcurrent, hids]
      rfl
    | preferExplicit =>
      rw [hexplicit, hone]
      cases hp : c.homeExplicit id <;> simp [hp]
  · intro ids
    rw [herror, Except.ok.injEq, Outcome.ofCandidates_eq_ambiguous]
  · rintro inner ids outer rfl hinner hids
    rw [hcurrent, Library.nearest_append hinner hids]
    refine ⟨fun id => ?_, fun hmany => ?_⟩
    · rw [Except.ok.injEq, Outcome.ofCandidates_eq_found]
    · have hone : ids.length ≠ 1 := fun h => (List.length_eq_one_iff.1 h).elim hmany
      have hpos := List.length_pos_iff.2 hids
      rw [Except.ok.injEq, Outcome.ofCandidates_eq_ambiguous]
      exact ⟨by omega, rfl⟩
  · intro ids
    rw [hexplicit]
    cases (levels.flatten.find? c.homeExplicit).or levels.flatten.head? <;> simp
  · intro before id after hall hid hbefore
    have hfirst : levels.flatten.find? c.homeExplicit = some id := by
      have hmem {x : DefId} (hx : x ∈ before ++ id :: after) : x ∈ levels.flatten := hall ▸ hx
      refine List.find?_eq_some_iff_append.2 ⟨(hmarked id (hmem (by simp))).2 hid, before, after,
        hall, fun x hx => ?_⟩
      have hnot := mt (hmarked x (hmem (by simp [hx]))).1 (hbefore x hx)
      simpa using hnot
    rw [hexplicit, hfirst]
    rfl
  · intro hnot id hhead
    have hfirst : levels.flatten.find? c.homeExplicit = none :=
      List.find?_eq_none.2 fun x hx => mt (hmarked x hx).1 (hnot x hx)
    rw [hexplicit, hfirst, hhead]
    rfl

end Unaliased

/-- A definition that is found belongs to the category, and has an alias or is one of that name around. -/
theorem stored_of_lookup_under (hc : c.Closed) (hfiled : c.Filed)
    (hstart : c.namespaces.table.Holds start) (hbare : n.path = []) {s : Strategy} {r : Outcome}
    (hr : (c.library.under s).lookup start n k = .ok r) (hid : id ∈ r.ids) :
    ∃ d, c.definitions.get? id = some d ∧ k.covers d.identity ∧
      (c.library.AliasedFrom start n.name k id ∨ d.identity.name = n.name ∧
        ∃ a ∈ c.namespaces.outward start, c.namespaces.definition? a d.identity = some id) := by
  have hclosed : (c.library.under s).Closed := ⟨hc.library.namespaces, hc.library.definitions⟩
  by_cases halias : ∃ a ∈ c.namespaces.outward start, ∃ id, c.library.Aliases n.name k a id
  · obtain ⟨id', halias⟩ := Library.exists_aliasedFrom (l := c.library) halias
    obtain rfl : r = .found id' := Except.ok.inj
      (hr.symm.trans (Library.Closed.lookup_of_aliased hclosed hstart hbare halias))
    obtain rfl := List.mem_singleton.1 hid
    obtain ⟨d, hd, hcovers⟩ := halias.covered
    exact ⟨d, hd, hcovers, .inl halias⟩
  · have hnone : ∀ a ∈ c.namespaces.outward start, ∀ id, ¬ c.library.Aliases n.name k a id :=
      fun a ha id hid => halias ⟨a, ha, id, hid⟩
    obtain ⟨r', hr', -, hids⟩ := exists_lookup_under hc hstart hbare hnone s
    obtain rfl := Except.ok.inj (hr.symm.trans hr')
    obtain ⟨a, ha, hmem⟩ := NamespaceTree.mem_flatten_candidatesAround.1 (hids id hid)
    obtain ⟨identity, hdefined, hname, hcovers⟩ := NamespaceTree.mem_candidates.1 hmem
    obtain ⟨m, hm, hlisted⟩ := Option.bind_eq_some_iff.1 hdefined
    obtain ⟨d, hd, rfl, -⟩ := hfiled a m hm identity id hlisted
    exact ⟨d, hd, hcovers, .inr ⟨hname, a, ha, hdefined⟩⟩

end Compilation

/-- The category that is looked up is part of what is expected and of what the name says. -/
theorem Name.covers_of_combine {n : Name} {expected k : Category} {i : Identity}
    (h : n.combine expected = .ok k) (hi : k.covers i) :
    expected.covers i ∧ n.category.covers i := by
  have hpart {α : Type} [DecidableEq α] {keyword : α → String} {said wanted r : Option α} {x : α}
      (hr : n.combinePart keyword said wanted = .ok r) (hx : r.all (· == x)) :
      wanted.all (· == x) ∧ said.all (· == x) := by
    unfold combinePart at hr
    split at hr
    · split at hr
      · rename_i heq
        obtain rfl := Except.ok.inj hr
        exact ⟨heq ▸ hx, hx⟩
      · cases hr
    · obtain rfl := Except.ok.inj hr
      cases said <;> cases wanted <;> simp_all
  obtain ⟨origin, horigin, h⟩ := Except.bind_eq_ok h
  obtain ⟨kind, hkind, h⟩ := Except.bind_eq_ok h
  obtain rfl := Except.ok.inj h
  simp only [Category.covers, Category.admits, Name.category, Bool.and_eq_true] at hi ⊢
  have ho := hpart horigin hi.1
  have hk := hpart hkind hi.2
  exact ⟨⟨ho.1, hk.1⟩, ho.2, hk.2⟩

/-- A name is resolved to what a look-up for the narrowed category finds, and to nothing else. -/
theorem Library.resolve_eq_ok_iff {l : Library} {start : NamespaceId} {n : Name}
    {expected : Category} {id : DefId} : l.resolve start n expected = .ok id ↔
      ∃ k, n.combine expected = .ok k ∧ l.lookup start n k = .ok (.found id) := by
  constructor
  · intro h
    obtain ⟨k, hk, h⟩ := Except.bind_eq_ok h
    obtain ⟨r, hr, h⟩ := Except.bind_eq_ok h
    have hk : n.combine expected = .ok k := by
      cases hcombine : n.combine expected <;> rw [hcombine] at hk <;> cases hk
      rfl
    have hr : l.lookup start n k = .ok r := by
      cases hlookup : l.lookup start n k <;> rw [hlookup] at hr <;> cases hr
      rfl
    refine ⟨k, hk, ?_⟩
    cases r with
    | found id' =>
      obtain rfl := Except.ok.inj h
      exact hr
    | ambiguous ids =>
      obtain ⟨_, -, h⟩ := Except.bind_eq_ok h
      cases h
    | notFound =>
      obtain ⟨_, -, h⟩ := Except.bind_eq_ok h
      cases h
  · rintro ⟨k, hk, hr⟩
    rw [resolve, hk]
    change (liftM (l.lookup start n k) : Except Failure Outcome) >>= _ = _
    rw [hr]
    rfl

namespace Compilation.Reachable

variable {c : Compilation} {start : NamespaceId}

/-- A bare name means what the innermost alias for it stands for; where there is none, what the strategy
chooses among the candidates around. What is found belongs to the category, and a name is resolved only
to something that belongs to what is expected and to what the name says. -/
theorem bare_decided (h : c.Reachable) (hfits : c.Fits) (hstart : c.namespaces.table.Holds start)
    (n : Name) (k : Category) :
    (n.path = [] →
      ((∃ a ∈ c.namespaces.outward start, ∃ id, c.library.Aliases n.name k a id) →
        ∃ id, c.library.AliasedFrom start n.name k id ∧
          ∀ s, (c.library.under s).lookup start n k = .ok (.found id)) ∧
      ((∀ a ∈ c.namespaces.outward start, ∀ id, ¬ c.library.Aliases n.name k a id) →
        c.Decided start n k (c.namespaces.candidatesAround start n.name k)) ∧
      ∀ s, ∃ r, (c.library.under s).lookup start n k = .ok r ∧ ∀ id ∈ r.ids,
        ∃ d, c.definitions.get? id = some d ∧ k.covers d.identity ∧
          (c.library.AliasedFrom start n.name k id ∨ d.identity.name = n.name ∧
            ∃ a ∈ c.namespaces.outward start, c.namespaces.definition? a d.identity = some id)) ∧
    ∀ s expected id, (c.library.under s).resolve start n expected = .ok id →
      ∃ k d, n.combine expected = .ok k ∧
        (c.library.under s).lookup start n k = .ok (.found id) ∧
        c.definitions.get? id = some d ∧ k.covers d.identity ∧
        expected.covers d.identity ∧ n.category.covers d.identity := by
  have hc := h.intact.toClosed
  have hfiled := h.filed hfits
  have hclosed (s : Strategy) : (c.library.under s).Closed :=
    ⟨hc.library.namespaces, hc.library.definitions⟩
  refine ⟨fun hbare => ⟨fun halias => ?_, fun hnone => ?_, fun s => ?_⟩, fun s expected id hid => ?_⟩
  · obtain ⟨id, hid⟩ := Library.exists_aliasedFrom (l := c.library) halias
    exact ⟨id, hid, fun s => (hclosed s).lookup_of_aliased hstart hbare hid⟩
  · exact decided hc hstart hbare hnone hfiled
  · obtain ⟨r, hr, -⟩ := (hclosed s).finds_lookup n k hstart
    exact ⟨r, hr, fun id => stored_of_lookup_under hc hfiled hstart hbare hr⟩
  · obtain ⟨k, hk, hr⟩ := Library.resolve_eq_ok_iff.1 hid
    obtain ⟨r, hr', hoffered⟩ := (hclosed s).finds_lookup n k hstart
    obtain rfl := Except.ok.inj (hr.symm.trans hr')
    obtain ⟨d, hd, hcovers⟩ := hfiled.covers_of_offers (c := c) hoffered
    obtain ⟨hexpected, hsaid⟩ := Name.covers_of_combine hk hcovers
    exact ⟨k, d, hk, hr, hd, hcovers, hexpected, hsaid⟩

end Compilation.Reachable

/-- A box in a hall that has an alias for it, and another box outside. -/
def landing : Compilation :=
  Operation.afterAll
    [.addGroup ⟨.template, .style, "Box"⟩ (.empty .style) [] .empty none,
      .openNamespacePath ["hall"],
      .addGroup ⟨.custom, .style, "Box"⟩ (.empty .style) [] .empty none,
      .nameDefinition "Chest" "[Template] @Style Box" none]
    (.initial .initial)

/-- In the hall the alias leads outside, and of the two boxes the inner one is current. -/
theorem bare_decided_landing :
    landing.Reachable ∧ landing.Fits ∧ landing.namespaces.table.Holds ⟨1⟩ ∧
    (∀ s, (landing.library.under s).lookup ⟨1⟩ ⟨none, none, [], "Chest"⟩ .any =
      .ok (.found ⟨0⟩)) ∧
    landing.Decided ⟨1⟩ ⟨none, none, [], "Box"⟩ .any [[⟨1⟩], [⟨0⟩]] ∧
    ∀ s id, (landing.library.under s).resolve ⟨1⟩ ⟨none, none, [], "Box"⟩ ⟨some .custom, none⟩ =
      .ok id → ∃ d, landing.definitions.get? id = some d ∧ d.identity.origin = .custom := by
  have hreach : landing.Reachable := (Compilation.Reachable.initial .initial).afterAll _
  have hfits : landing.Fits := ⟨by decide +kernel, by decide +kernel⟩
  have hholds : landing.namespaces.table.Holds ⟨1⟩ := by decide +kernel
  have houtward : landing.namespaces.outward ⟨1⟩ = [⟨1⟩, ⟨0⟩] := by decide +kernel
  have hcandidates : landing.namespaces.candidatesAround ⟨1⟩ "Box" .any = [[⟨1⟩], [⟨0⟩]] := by
    decide +kernel
  have hchest := (hreach.bare_decided hfits hholds ⟨none, none, [], "Chest"⟩ .any).1 rfl
  have hbox := hreach.bare_decided hfits hholds ⟨none, none, [], "Box"⟩ .any
  have hhall : landing.namespaces.alias? ⟨1⟩ "Chest" = some (.definition ⟨0⟩) := by decide +kernel
  have hroot : landing.namespaces.alias? ⟨0⟩ "Chest" = none := by decide +kernel
  refine ⟨hreach, hfits, hholds, ?_, ?_, fun s id hid => ?_⟩
  · have hstored : landing.definitions.Holds ⟨0⟩ := by decide +kernel
    obtain ⟨d, hd⟩ := hstored.exists_get?
    obtain ⟨id, halias, hfound⟩ := hchest.1
      ⟨⟨1⟩, by rw [houtward]; exact List.mem_cons_self, ⟨0⟩, hhall, d, hd, rfl⟩
    obtain ⟨inner, a, outer, hsplit, ⟨hid, -⟩, -⟩ := halias
    have ha : a ∈ landing.namespaces.outward ⟨1⟩ := by
      rw [show landing.namespaces.outward ⟨1⟩ = inner ++ a :: outer from hsplit]
      exact List.mem_append_right _ List.mem_cons_self
    rw [houtward] at ha
    obtain rfl : id = ⟨0⟩ := by
      rcases List.mem_pair.1 ha with rfl | rfl
      · exact Meaning.definition.inj (Option.some.inj (hid.symm.trans hhall))
      · cases hid.symm.trans hroot
    exact hfound
  · have hnone : ∀ a ∈ landing.namespaces.outward ⟨1⟩, ∀ id,
        ¬ landing.library.Aliases "Box" .any a id := by
      rintro a ha id ⟨hid, -⟩
      rw [houtward] at ha
      have hunnamed : landing.namespaces.alias? ⟨1⟩ "Box" = none ∧
        landing.namespaces.alias? ⟨0⟩ "Box" = none := by decide +kernel
      rcases List.mem_pair.1 ha with rfl | rfl
      · cases hid.symm.trans hunnamed.1
      · cases hid.symm.trans hunnamed.2
    exact hcandidates ▸ (hbox.1 rfl).2.1 hnone
  · obtain ⟨k, d, -, -, hd, -, hcovers, -⟩ := hbox.2 s _ id hid
    refine ⟨d, hd, ?_⟩
    simp only [Category.covers, Category.admits, Option.all_some, Option.all_none, Bool.and_true,
      beq_iff_eq] at hcovers
    exact hcovers.symm

end Stencil
