import Mathlib.Data.List.Nodup
import Stencil.Proofs.Strategies

/-! # Definitions that are visible are those that are meant

The definitions around a namespace are gone through from the inside outwards, and an identity that has
been seen hides itself further out. A bare name that tells origin and kind is looked up along the same way,
so where no alias comes first, what is visible and what such names mean are the same.
-/
namespace Stencil

open Compilation

namespace Library

variable {l : Library} {k : Category} {id : DefId} {i : Identity} {before : List DefId}
  {seen : List (Identity × DefId)}

def identity? (l : Library) (id : DefId) : Option Identity :=
  (l.definitions.get? id).map Definition.identity

/-- The first definition of an identity. -/
def firstOf (l : Library) (ids : List DefId) (i : Identity) : Option DefId :=
  ids.find? fun id => l.identity? id == some i

/-- Of the definitions gone through, the first of each identity of the category has been seen. -/
structure Seen (l : Library) (k : Category) (before : List DefId) (seen : List (Identity × DefId)) :
    Prop where
  nodup : (seen.map Prod.fst).Nodup
  mem_iff : ∀ i id, (i, id) ∈ seen ↔ k.covers i ∧ l.firstOf before i = some id

theorem firstOf_concat (hid : l.identity? id = some i) (j : Identity) :
    l.firstOf (before ++ [id]) j = (l.firstOf before j).or (if i = j then some id else none) := by
  rw [firstOf, List.find?_append, List.find?_singleton, hid]
  simp [firstOf]

theorem Seen.start (l : Library) (k : Category) : l.Seen k [] [] :=
  ⟨.nil, by simp [firstOf]⟩

theorem Seen.fresh (h : l.Seen k before seen) (hid : l.identity? id = some i) (hcovers : k.covers i)
    (hnew : ∀ x, (i, x) ∉ seen) : l.Seen k (before ++ [id]) (seen ++ [(i, id)]) where
  nodup := by
    have hkey : i ∉ seen.map Prod.fst := by simpa using hnew
    rw [List.map_append, List.map_singleton]
    exact h.nodup.append (List.nodup_singleton i) (by simpa using hkey)
  mem_iff j x := by
    have hnone : l.firstOf before i = none :=
      Option.eq_none_iff_forall_ne_some.2 fun x hx => hnew x ((h.mem_iff i x).2 ⟨hcovers, hx⟩)
    rw [List.mem_append, h.mem_iff, firstOf_concat hid, List.mem_singleton, Prod.mk.injEq]
    by_cases hj : i = j
    · subst hj
      simp [hnone, hcovers, eq_comm]
    · simp [hj, Ne.symm hj]

theorem Seen.hidden (h : l.Seen k before seen) (hid : l.identity? id = some i)
    (hold : k.covers i → ∃ x, (i, x) ∈ seen) : l.Seen k (before ++ [id]) seen where
  nodup := h.nodup
  mem_iff j x := by
    rw [h.mem_iff, firstOf_concat hid]
    refine and_congr_right fun hcovers => ?_
    by_cases hj : i = j
    · subst hj
      obtain ⟨y, hy⟩ := hold hcovers
      simp [((h.mem_iff i y).1 hy).2]
    · simp [hj]

theorem Seen.addVisible (h : l.Seen k before seen) (hid : l.identity? id = some i) :
    Finds (l.addVisible k seen id) (l.Seen k (before ++ [id])) := by
  obtain ⟨d, hd, rfl⟩ := Option.map_eq_some_iff.1 hid
  apply (Arena.finds_find (Arena.holds_of_get? hd)).bind
  intro d' hd'
  obtain rfl := Option.some.inj (hd.symm.trans hd')
  apply Finds.pure
  have hlookup : (seen.lookup d.identity).isNone ↔ ∀ x, (d.identity, x) ∉ seen := by
    rw [Option.isNone_iff_eq_none, List.lookup_eq_none_iff]
    constructor
    · intro hnone x hx
      simpa using hnone _ hx
    · rintro hnew ⟨j, x⟩ hx
      simp only [bne_iff_ne, ne_eq]
      rintro rfl
      exact hnew x hx
  by_cases hfresh : k.covers d.identity ∧ (seen.lookup d.identity).isNone
  · simp only [hfresh, Bool.and_self, if_true]
    exact h.fresh hid hfresh.1 (hlookup.1 hfresh.2)
  · rw [if_neg (by simpa using hfresh)]
    refine h.hidden hid fun hcovers => ?_
    by_contra hnone
    exact hfresh ⟨hcovers, hlookup.2 fun x hx => hnone ⟨x, hx⟩⟩

theorem Seen.foldlM {ids : List DefId} (h : l.Seen k before seen)
    (hids : ∀ id ∈ ids, ∃ i, l.identity? id = some i) :
    Finds (ids.foldlM (l.addVisible k) seen) (l.Seen k (before ++ ids)) := by
  induction ids generalizing before seen with
  | nil => exact .pure (by rwa [List.append_nil])
  | cons id ids ih =>
    rw [List.foldlM_cons]
    obtain ⟨i, hid⟩ := hids id List.mem_cons_self
    apply (h.addVisible hid).bind
    intro seen hseen
    have hrest := ih hseen fun id hid => hids id (List.mem_cons_of_mem _ hid)
    rwa [List.append_assoc, List.singleton_append] at hrest

/-- The first of each identity of the category, each once. -/
theorem Seen.mem_map_snd (h : l.Seen k before seen) : (seen.map Prod.snd).Nodup ∧
    ∀ id, id ∈ seen.map Prod.snd ↔ ∃ i, k.covers i ∧ l.firstOf before i = some id := by
  have hidentity : ∀ e ∈ seen, l.identity? e.2 = some e.1 := by
    intro e he
    simpa using List.find?_some ((h.mem_iff e.1 e.2).1 he).2
  constructor
  · refine h.nodup.of_map.map_on fun e he e' he' heq => Prod.ext ?_ heq
    have hid := hidentity e he
    rw [heq, hidentity e' he'] at hid
    exact (Option.some.inj hid).symm
  · intro id
    simp only [List.mem_map, Prod.exists, exists_eq_right, h.mem_iff]

end Library

namespace Compilation

variable {c : Compilation} {start a : NamespaceId} {i : Identity} {id : DefId} {k : Category}

/-- Of the namespaces from `start` up to the root, the innermost that has a definition of that identity
has this one. -/
def Innermost (c : Compilation) (start : NamespaceId) (i : Identity) (id : DefId) : Prop :=
  ∃ inner a outer, c.namespaces.outward start = inner ++ a :: outer ∧
    c.namespaces.definition? a i = some id ∧ ∀ b ∈ inner, c.namespaces.definition? b i = none

theorem innermost_iff : c.Innermost start i id ↔
    (c.namespaces.outward start).findSome? (fun a => c.namespaces.definition? a i) = some id := by
  rw [List.findSome?_eq_some_iff]
  rfl

theorem Filed.identity? (hfiled : c.Filed) (hid : c.namespaces.definition? a i = some id) :
    c.library.identity? id = some i := by
  obtain ⟨n, hn, hid⟩ := Option.bind_eq_some_iff.1 hid
  obtain ⟨d, hd, rfl, -⟩ := hfiled a n hn i id hid
  exact Option.map_eq_some_iff.2 ⟨d, hd, rfl⟩

theorem Innermost.stored (h : c.Innermost start i id) (hfiled : c.Filed) :
    ∃ d, c.definitions.get? id = some d ∧ d.identity = i := by
  obtain ⟨-, a, -, -, hid, -⟩ := h
  exact Option.map_eq_some_iff.1 (hfiled.identity? hid)

/-- In a namespace the first definition of an identity is the one registered for it. -/
theorem Filed.firstOf_registered (hfiled : c.Filed) {n : Namespace}
    (hn : c.namespaces.table.get? a = some n) (i : Identity) :
    c.library.firstOf n.registered i = c.namespaces.definition? a i := by
  have hdefinition (j : Identity) : c.namespaces.definition? a j = n.definitions.get? j := by
    rw [NamespaceTree.definition?, hn, Option.bind_some]
  have hmem {x : DefId} (hx : x ∈ n.registered) (hi : c.library.identity? x = some i) :
      c.namespaces.definition? a i = some x := by
    obtain ⟨j, hj⟩ := Namespace.mem_registered.1 hx
    rw [← hdefinition j] at hj
    obtain rfl := Option.some.inj (hi.symm.trans (hfiled.identity? hj))
    exact hj
  cases hfirst : c.library.firstOf n.registered i with
  | some x =>
    exact (hmem (List.mem_of_find?_eq_some hfirst) (by simpa using List.find?_some hfirst)).symm
  | none =>
    refine (Option.eq_none_iff_forall_ne_some.2 fun x hx => ?_).symm
    have hx' : x ∈ n.registered := Namespace.mem_registered.2 ⟨i, (hdefinition i).symm.trans hx⟩
    have hnot := List.find?_eq_none.1 hfirst x hx'
    simp [hfiled.identity? hx] at hnot

/-- The definitions of a namespace, or none if it is not there. -/
def registeredAt (c : Compilation) (a : NamespaceId) : List DefId :=
  ((c.namespaces.table.get? a).map Namespace.registered).getD []

theorem Filed.firstOf_around (hfiled : c.Filed) {spaces : List NamespaceId}
    (hspaces : ∀ a ∈ spaces, c.namespaces.table.Holds a) (i : Identity) :
    c.library.firstOf (spaces.flatMap c.registeredAt) i =
      spaces.findSome? fun a => c.namespaces.definition? a i := by
  induction spaces with
  | nil => rfl
  | cons a spaces ih =>
    obtain ⟨n, hn⟩ := (hspaces a List.mem_cons_self).exists_get?
    have hfirst := hfiled.firstOf_registered hn i
    rw [Library.firstOf] at hfirst ih ⊢
    rw [List.flatMap_cons, List.find?_append, ih fun a ha => hspaces a (List.mem_cons_of_mem _ ha),
      registeredAt, hn, Option.map_some, Option.getD_some, hfirst, List.findSome?_cons]
    cases c.namespaces.definition? a i <;> rfl

/-- What is visible in a category are the innermost definitions of its identities, each once. -/
theorem Filed.finds_visible (hfiled : c.Filed) (hstart : c.namespaces.table.Holds start)
    (k : Category) : Finds (c.library.visible start k) fun ids => ids.Nodup ∧
      ∀ id, id ∈ ids ↔ ∃ i, k.covers i ∧ c.Innermost start i id := by
  obtain ⟨spaces, houtward, rfl, hspaces⟩ := NamespaceTree.finds_outwardFrom hstart
  have hregistered : (c.namespaces.outward start).mapM c.namespaces.registeredIn =
      .ok ((c.namespaces.outward start).map c.registeredAt) := by
    refine (mapM_congr fun a ha => ?_).trans List.mapM_pure
    obtain ⟨n, hn⟩ := (hspaces a ha).exists_get?
    rw [NamespaceTree.registeredIn, NamespaceTree.find, Arena.find_of_get? hn, registeredAt, hn]
    rfl
  have hstored : ∀ id ∈ ((c.namespaces.outward start).map c.registeredAt).flatten,
      ∃ i, c.library.identity? id = some i := by
    intro id hid
    rw [← List.flatMap_def] at hid
    obtain ⟨a, ha, hid⟩ := List.mem_flatMap.1 hid
    obtain ⟨n, hn⟩ := (hspaces a ha).exists_get?
    rw [registeredAt, hn] at hid
    obtain ⟨i, hi⟩ := Namespace.mem_registered.1 hid
    refine ⟨i, hfiled.identity? (a := a) ?_⟩
    rw [NamespaceTree.definition?, hn]
    exact hi
  obtain ⟨seen, hseen, hfirst⟩ := (Library.Seen.start c.library k).foldlM hstored
  refine ⟨seen.map Prod.snd, ?_, hfirst.mem_map_snd.1, fun id => ?_⟩
  · change (do
      let ids ← (← c.namespaces.outwardFrom start).mapM c.namespaces.registeredIn
      return (← ids.flatten.foldlM (c.library.addVisible k) []).map Prod.snd) = _
    simp only [bind, Except.bind, houtward, hregistered, hseen]
    rfl
  · rw [hfirst.mem_map_snd.2, List.nil_append, ← List.flatMap_def]
    simp only [hfiled.firstOf_around hspaces, innermost_iff]

end Compilation

/-! ## Names that tell origin and kind -/

/-- The bare name of an identity, with its origin and kind. -/
def Identity.fullName (i : Identity) : Name := ⟨some i.origin, some i.kind, [], i.name⟩

namespace Compilation

variable {c : Compilation} {start : NamespaceId} {i : Identity} {id : DefId} {expected k : Category}

/-- What a name says has to be what is wanted. -/
theorem combinePart_some {α : Type} [DecidableEq α] {n : Name} {keyword : α → String} {said : α}
    {wanted r : Option α} : n.combinePart keyword (some said) wanted = .ok r ↔
      r = some said ∧ wanted.all (· == said) := by
  cases wanted with
  | none => simp [Name.combinePart, eq_comm]
  | some other =>
    by_cases h : said = other
    · simp [Name.combinePart, h, eq_comm]
    · simp [Name.combinePart, h, Ne.symm h]

theorem combine_fullName :
    i.fullName.combine expected = .ok k ↔ k = i.category ∧ expected.covers i := by
  constructor
  · intro h
    obtain ⟨origin, horigin, h⟩ := Except.bind_eq_ok h
    obtain ⟨kind, hkind, h⟩ := Except.bind_eq_ok h
    obtain ⟨rfl, hsaid⟩ := combinePart_some.1 horigin
    obtain ⟨rfl, hsaid'⟩ := combinePart_some.1 hkind
    exact ⟨(Except.ok.inj h).symm, (Bool.and_eq_true _ _).mpr ⟨hsaid, hsaid'⟩⟩
  · rintro ⟨rfl, hcovers⟩
    obtain ⟨horigin, hkind⟩ := (Bool.and_eq_true _ _).mp hcovers
    rw [Name.combine, Identity.fullName, combinePart_some.2 ⟨rfl, horigin⟩,
      combinePart_some.2 ⟨rfl, hkind⟩]
    rfl

theorem candidates_fullName (a : NamespaceId) :
    c.namespaces.candidates i.name i.category a = (c.namespaces.definition? a i).toList := by
  obtain ⟨origin, kind, name⟩ := i
  have hmembers : (Identity.category ⟨origin, kind, name⟩).members = [(origin, kind)] := by
    cases origin <;> cases kind <;> rfl
  rw [NamespaceTree.candidates, hmembers]
  cases h : c.namespaces.definition? a ⟨origin, kind, name⟩ <;> simp [h]

/-- The nearest candidates are the innermost definition alone. -/
theorem nearest_candidates (spaces : List NamespaceId) :
    Library.nearest (spaces.map (c.namespaces.candidates i.name i.category)) =
      (spaces.findSome? fun a => c.namespaces.definition? a i).toList := by
  rw [Library.nearest]
  induction spaces with
  | nil => rfl
  | cons a spaces ih =>
    rw [List.map_cons, candidates_fullName, List.findSome?_cons]
    cases hid : c.namespaces.definition? a i with
    | none => simpa using ih
    | some id => rfl

theorem resolve_fullName (hc : c.Closed) (hstart : c.namespaces.table.Holds start)
    (hstrategy : c.config.strategy = .preferCurrent)
    (hnone : ∀ a ∈ c.namespaces.outward start, ∀ id, ¬ c.library.Aliases i.name i.category a id) :
    c.library.resolve start i.fullName expected = .ok id ↔
      expected.covers i ∧ c.Innermost start i id := by
  have hunder : c.library.under .preferCurrent = c.library := by
    rw [Library.under, library, hstrategy]
  have hlookup := lookup_under_preferCurrent (n := i.fullName) hc hstart rfl hnone
  have hcandidates := nearest_candidates (c := c) (i := i) (c.namespaces.outward start)
  rw [hunder, NamespaceTree.candidatesAround, Identity.fullName, hcandidates] at hlookup
  have hfound : c.library.lookup start i.fullName i.category = .ok (.found id) ↔
      c.Innermost start i id := by
    rw [Identity.fullName, hlookup, innermost_iff, Except.ok.injEq, Outcome.ofCandidates_eq_found]
    cases (c.namespaces.outward start).findSome? fun a => c.namespaces.definition? a i <;> simp
  rw [Library.resolve_eq_ok_iff, ← hfound]
  constructor
  · rintro ⟨k, hk, hid⟩
    obtain ⟨rfl, hcovers⟩ := combine_fullName.1 hk
    exact ⟨hcovers, hid⟩
  · rintro ⟨hcovers, hid⟩
    exact ⟨_, combine_fullName.2 ⟨rfl, hcovers⟩, hid⟩

/-- No alias of that name, in the namespaces from `start` up to the root, stands for a definition of the
origin and kind. -/
def Unaliased (c : Compilation) (start : NamespaceId) (i : Identity) : Prop :=
  ∀ a ∈ c.namespaces.outward start, ∀ id, ¬ c.library.Aliases i.name i.category a id

/-- The definitions of a category that are visible from a namespace are the innermost of their
identities, each once. Where aliases do not come first, the full names of identities mean just the
definitions that are visible. -/
theorem Reachable.visible_resolves (hc : c.Reachable) (hfits : c.Fits)
    (hstrategy : c.config.strategy = .preferCurrent) (hstart : c.namespaces.table.Holds start) :
    (∀ k, ∃ ids, c.library.visible start k = .ok ids ∧ ids.Nodup ∧
      (∀ id, id ∈ ids ↔ ∃ d, c.definitions.get? id = some d ∧ k.covers d.identity ∧
        c.Innermost start d.identity id) ∧
      ∀ id ∈ ids, ∀ d, c.definitions.get? id = some d → c.Unaliased start d.identity →
        ∀ expected : Category, expected.covers d.identity →
          c.library.resolve start d.identity.fullName expected = .ok id) ∧
    ∀ i, c.Unaliased start i → ∀ expected id,
      c.library.resolve start i.fullName expected = .ok id →
        ∃ ids, c.library.visible start .any = .ok ids ∧ id ∈ ids := by
  have hfiled := hc.filed hfits
  have hclosed := hc.intact.toClosed
  constructor
  · intro k
    obtain ⟨ids, hids, hnodup, hmem⟩ := hfiled.finds_visible hstart k
    have hmem' (id : DefId) : id ∈ ids ↔ ∃ d, c.definitions.get? id = some d ∧
        k.covers d.identity ∧ c.Innermost start d.identity id := by
      rw [hmem]
      constructor
      · rintro ⟨i, hcovers, hinner⟩
        obtain ⟨d, hd, rfl⟩ := hinner.stored hfiled
        exact ⟨d, hd, hcovers, hinner⟩
      · rintro ⟨d, -, hcovers, hinner⟩
        exact ⟨d.identity, hcovers, hinner⟩
    refine ⟨ids, hids, hnodup, hmem', fun id hid d hd hunaliased expected hcovers => ?_⟩
    obtain ⟨d', hd', -, hinner⟩ := (hmem' id).1 hid
    obtain rfl := Option.some.inj (hd.symm.trans hd')
    exact (resolve_fullName hclosed hstart hstrategy hunaliased).2 ⟨hcovers, hinner⟩
  · intro i hunaliased expected id hid
    obtain ⟨-, hinner⟩ := (resolve_fullName hclosed hstart hstrategy hunaliased).1 hid
    obtain ⟨ids, hids, -, hmem⟩ := hfiled.finds_visible hstart .any
    exact ⟨ids, hids, (hmem id).2 ⟨i, rfl, hinner⟩⟩

end Compilation

/-- In the parlor there is a box that hides one of the two outside, and a rug is a name for the other. -/
def parlor : Compilation :=
  Operation.afterAll
    [.addGroup ⟨.template, .style, "Box"⟩ (.empty .style) [] .empty none,
      .addGroup ⟨.custom, .style, "Box"⟩ (.empty .style) [] .empty none,
      .addGroup ⟨.template, .style, "Rug"⟩ (.empty .style) [] .empty none,
      .openNamespacePath ["parlor"],
      .addGroup ⟨.template, .style, "Box"⟩ (.empty .style) [] .empty none,
      .nameDefinition "Rug" "[Custom] @Style Box" none]
    (.initial .initial)

/-- From the parlor its own box, the rug and the other box outside are visible. The alias of the rug is
for a custom group and does not stand in the way of the template. -/
theorem visible_resolves_parlor :
    parlor.Reachable ∧ parlor.Fits ∧ parlor.config.strategy = .preferCurrent ∧
      parlor.namespaces.table.Holds ⟨1⟩ ∧
      parlor.library.visible ⟨1⟩ .any = .ok [⟨3⟩, ⟨2⟩, ⟨1⟩] ∧
      parlor.Unaliased ⟨1⟩ ⟨.template, .style, "Rug"⟩ ∧
      parlor.library.resolve ⟨1⟩ ⟨some .template, some .style, [], "Rug"⟩ (.ofKind .style) = .ok ⟨2⟩ ∧
      ∃ ids, parlor.library.visible ⟨1⟩ .any = .ok ids ∧ (⟨2⟩ : DefId) ∈ ids := by
  have hreach : parlor.Reachable := (Compilation.Reachable.initial .initial).afterAll _
  have hfits : parlor.Fits := ⟨by decide +kernel, by decide +kernel⟩
  have hstart : parlor.namespaces.table.Holds ⟨1⟩ := by decide +kernel
  have hvisible : parlor.library.visible ⟨1⟩ .any = .ok [⟨3⟩, ⟨2⟩, ⟨1⟩] := by decide +kernel
  obtain ⟨d, hd, hidentity⟩ : ∃ d, parlor.definitions.get? ⟨2⟩ = some d ∧
      d.identity = ⟨.template, .style, "Rug"⟩ :=
    Option.map_eq_some_iff.1 (by decide +kernel)
  have hunaliased : parlor.Unaliased ⟨1⟩ ⟨.template, .style, "Rug"⟩ := by
    have hnone : ∀ a ∈ parlor.namespaces.outward ⟨1⟩,
        parlor.library.aliased? "Rug" ⟨some .template, some .style⟩ a = none := by decide +kernel
    exact fun a ha => Library.aliased?_eq_none_iff.1 (hnone a ha)
  obtain ⟨hlisted, hmeant⟩ := hreach.visible_resolves hfits (by decide +kernel) hstart
  obtain ⟨ids, hids, -, -, hresolves⟩ := hlisted .any
  obtain rfl := Except.ok.inj (hvisible.symm.trans hids)
  have hresolve := hresolves ⟨2⟩ (by simp) d hd (hidentity ▸ hunaliased) (.ofKind .style)
    (by rw [hidentity]; rfl)
  rw [hidentity] at hresolve
  exact ⟨hreach, hfits, by decide +kernel, hstart, hvisible, hunaliased, hresolve,
    hmeant _ hunaliased _ _ hresolve⟩

end Stencil
