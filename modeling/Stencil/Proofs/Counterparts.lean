import Stencil.Proofs.Mounting
import Stencil.Proofs.Simulation

/-! # Libraries with counterparts

Two libraries may hold the same definitions under different ids. If the namespaces of the first have
counterparts in the second, with the same names, children, aliases and definitions, then a name that
means a definition in the first means its counterpart in the second. Further outwards the second may
have more around the counterparts. Then nothing can be said of names that mean nothing in the first.
-/
namespace Stencil

namespace NamespaceTree

variable {t : NamespaceTree} {a : NamespaceId}

theorem child_eq (ha : t.table.Holds a) (name : String) :
    t.child a name = .ok (t.child? a name) := by
  obtain ⟨n, hn⟩ := ha.exists_get?
  simp [child, child?, find, Arena.find_of_get? hn, hn, bind, Except.bind, pure, Except.pure]

theorem named_eq (ha : t.table.Holds a) (name : String) (c : Category) :
    t.named a name c = .ok (c.members.filterMap fun (origin, kind) =>
      t.definition? a ⟨origin, kind, name⟩) := by
  obtain ⟨n, hn⟩ := ha.exists_get?
  simp only [named, find, Arena.find_of_get? hn, definition?_of_get? hn]
  rfl

theorem definitionIn_eq (ha : t.table.Holds a) (identity : Identity) :
    t.definitionIn a identity = .ok (t.definition? a identity) := by
  obtain ⟨n, hn⟩ := ha.exists_get?
  rw [definitionIn, find, Arena.find_of_get? hn, definition?_of_get? hn]
  rfl

theorem followAlias_cons (ha : t.table.Holds a) (first : String) (rest : List String) :
    t.followAlias a (first :: rest) =
      match t.alias? a first with
      | some (.space target) => t.follow target rest
      | _ => .ok none := by
  obtain ⟨n, hn⟩ := ha.exists_get?
  simp only [followAlias, find, Arena.find_of_get? hn, alias?_of_get? hn]
  rfl

end NamespaceTree

/-- Two meanings are counterparts of each other, as what they stand for is. -/
inductive Meaning.Matches (S : NamespaceId → NamespaceId → Prop) (D : DefId → DefId → Prop) :
    Meaning → Meaning → Prop
  | definition {id id' : DefId} (h : D id id') : Matches S D (.definition id) (.definition id')
  | space {a a' : NamespaceId} (h : S a a') : Matches S D (.space a) (.space a')

namespace Outcome

variable {strict : Prop} {D : DefId → DefId → Prop}

/-- If the first look-up finds a definition, the second finds its counterpart. If errors count, the
second also finds as many, or nothing, where the first does. -/
def Follows (strict : Prop) (D : DefId → DefId → Prop) : Outcome → Outcome → Prop
  | found id, r => ∃ id', r = found id' ∧ D id id'
  | ambiguous ids, r => strict → ∃ ids', r = ambiguous ids' ∧ List.Forall₂ D ids ids'
  | notFound, r => strict → r = notFound

theorem follows_ofCandidates {ids ids' : List DefId} (h : List.Forall₂ D ids ids') :
    Follows strict D (ofCandidates ids) (ofCandidates ids') := by
  cases h with
  | nil => exact fun _ => rfl
  | cons hfirst hrest =>
    cases hrest with
    | nil => exact ⟨_, rfl, hfirst⟩
    | cons hsecond hrest => exact fun _ => ⟨_, rfl, .cons hfirst (.cons hsecond hrest)⟩

theorem Follows.first? {r r' : Outcome} (h : Follows strict D r r') (hstrict : strict) :
    Option.Rel D r.first? r'.first? := by
  cases r with
  | found id =>
    obtain ⟨id', rfl, hid⟩ := h
    exact .some hid
  | ambiguous ids =>
    obtain ⟨ids', rfl, hids⟩ := h hstrict
    cases hids with
    | nil => exact .none
    | cons hid _ => exact .some hid
  | notFound =>
    rw [h hstrict]
    exact .none

end Outcome

namespace Library

variable {strict : Prop} {S : NamespaceId → NamespaceId → Prop} {l l' : Library}
  {a a' : NamespaceId} {id id' : DefId}

/-- Two namespaces that are counterparts have the two definitions under the same identity. -/
def Twins (S : NamespaceId → NamespaceId → Prop) (l l' : Library) (id id' : DefId) : Prop :=
  ∃ a a' identity, S a a' ∧ l.namespaces.definition? a identity = some id ∧
    l'.namespaces.definition? a' identity = some id'

/-- The namespaces of `l` have counterparts in `l'` that hold the same. On the way outwards `l'` has
further namespaces, in which no definition has an alias; if errors count, it has none. -/
structure Mirrors (strict : Prop) (S : NamespaceId → NamespaceId → Prop) (l l' : Library) :
    Prop where
  closed : l.Closed
  closed' : l'.Closed
  strategy : l'.strategy = l.strategy
  firstIndex : l'.firstIndex = l.firstIndex
  chosen : strict ∨ l.strategy = .preferCurrent
  unique : Relator.BiUnique S
  holds : ∀ a a', S a a' → l.namespaces.table.Holds a
  holds' : ∀ a a', S a a' → l'.namespaces.table.Holds a'
  outward : ∀ a a', S a a' → ∃ front rest, l'.namespaces.outward a' = front ++ rest ∧
    List.Forall₂ S (l.namespaces.outward a) front ∧ (strict → rest = []) ∧
    ∀ x ∈ rest, ∀ name id, l'.namespaces.alias? x name ≠ some (.definition id)
  children : ∀ a a', S a a' → ∀ name,
    Option.Rel S (l.namespaces.child? a name) (l'.namespaces.child? a' name)
  aliases : ∀ a a', S a a' → ∀ name, Option.Rel (Meaning.Matches S (Twins S l l'))
    (l.namespaces.alias? a name) (l'.namespaces.alias? a' name)
  definitions : ∀ a a', S a a' → ∀ identity,
    (l'.namespaces.definition? a' identity).isSome = (l.namespaces.definition? a identity).isSome
  stored : ∀ a a' identity id id', S a a' → l.namespaces.definition? a identity = some id →
    l'.namespaces.definition? a' identity = some id' →
    ∃ d scope, l.definitions.get? id = some d ∧ d.identity = identity ∧ d.home = a ∧
      l'.definitions.get? id' = some { d with home := a', scope := scope }
  paths : strict → ∀ a a', S a a' → l'.namespaces.path a' = l.namespaces.path a
  explicit : strict → ∀ a a', S a a' →
    (l'.namespaces.table.get? a').map Namespace.explicit =
      (l.namespaces.table.get? a).map Namespace.explicit

namespace Mirrors

theorem definition_rel (h : Mirrors strict S l l') (ha : S a a') (identity : Identity) :
    Option.Rel (Twins S l l') (l.namespaces.definition? a identity)
      (l'.namespaces.definition? a' identity) := by
  have hsome := h.definitions a a' ha identity
  cases hid : l.namespaces.definition? a identity with
  | none =>
    rw [hid] at hsome
    rw [Option.isSome_eq_false_iff.1 hsome |> Option.isNone_iff_eq_none.1]
    exact .none
  | some id =>
    rw [hid] at hsome
    obtain ⟨id', hid'⟩ := Option.isSome_iff_exists.1 hsome
    rw [hid']
    exact .some ⟨a, a', identity, ha, hid, hid'⟩

/-- Counterparts are stored alike, except for where they belong. -/
theorem exists_stored (h : Mirrors strict S l l') (hid : Twins S l l' id id') :
    ∃ d home scope, S d.home home ∧ l.definitions.get? id = some d ∧
      l'.definitions.get? id' = some { d with home := home, scope := scope } := by
  obtain ⟨a, a', identity, ha, hid, hid'⟩ := hid
  obtain ⟨d, scope, hd, -, rfl, hd'⟩ := h.stored a a' identity id id' ha hid hid'
  exact ⟨d, a', scope, ha, hd, hd'⟩

theorem twins_unique (h : Mirrors strict S l l') : Relator.BiUnique (Twins S l l') := by
  constructor
  · rintro id₁ id' id₂ ⟨a, a', identity, ha, hid₁, hid'⟩ ⟨b, b', identity', hb, hid₂, hid''⟩
    obtain ⟨d, scope, -, hidentity, -, hd⟩ := h.stored _ _ _ _ _ ha hid₁ hid'
    obtain ⟨e, scope', -, hidentity', -, he⟩ := h.stored _ _ _ _ _ hb hid₂ hid''
    have heq := Option.some.inj (hd.symm.trans he)
    obtain rfl : a' = b' := congrArg Definition.home heq
    obtain rfl : identity = identity' :=
      hidentity.symm.trans ((congrArg Definition.identity heq).trans hidentity')
    obtain rfl := h.unique.left ha hb
    exact Option.some.inj (hid₁.symm.trans hid₂)
  · rintro id id₁ id₂ ⟨a, a', identity, ha, hid, hid₁⟩ ⟨b, b', identity', hb, hid', hid₂⟩
    obtain ⟨d, scope, hd, rfl, rfl, -⟩ := h.stored _ _ _ _ _ ha hid hid₁
    obtain ⟨e, scope', he, rfl, rfl, -⟩ := h.stored _ _ _ _ _ hb hid' hid₂
    obtain rfl := Option.some.inj (hd.symm.trans he)
    obtain rfl := h.unique.right ha hb
    exact Option.some.inj (hid₁.symm.trans hid₂)

/-! ## Names with a path -/

theorem pairs_follow (h : Mirrors strict S l l') (path : List String) (ha : S a a') :
    Pairs (Option.Rel S) (l.namespaces.follow a path) (l'.namespaces.follow a' path) := by
  induction path generalizing a a' with
  | nil => exact .pure (.some ha)
  | cons segment rest ih =>
    have hchild := h.children a a' ha segment
    rw [NamespaceTree.follow, NamespaceTree.follow, NamespaceTree.child_eq (h.holds a a' ha),
      NamespaceTree.child_eq (h.holds' a a' ha)]
    generalize l.namespaces.child? a segment = c at hchild
    generalize l'.namespaces.child? a' segment = c' at hchild
    cases hchild with
    | none => exact .pure .none
    | some hb => exact ih hb

theorem pairs_followAlias (h : Mirrors strict S l l') (path : List String) (ha : S a a') :
    Pairs (Option.Rel S) (l.namespaces.followAlias a path) (l'.namespaces.followAlias a' path) := by
  cases path with
  | nil => exact .pure .none
  | cons first rest =>
    have halias := h.aliases a a' ha first
    rw [NamespaceTree.followAlias_cons (h.holds a a' ha),
      NamespaceTree.followAlias_cons (h.holds' a a' ha)]
    generalize l.namespaces.alias? a first = m at halias
    generalize l'.namespaces.alias? a' first = m' at halias
    cases halias with
    | none => exact .pure .none
    | some hm =>
      cases hm with
      | definition _ => exact .pure .none
      | space hb => exact h.pairs_follow rest hb

/-- A path is searched for in the first library as in the second, as far as the first goes. -/
theorem pairs_search (h : Mirrors strict S l l') (path : List String) (ha : S a a') :
    Pairs (fun r r' => Option.Rel S r r' ∨ r = none ∧ (strict → r' = none) ∧
        ∀ b, r' = some b → l'.namespaces.table.Holds b)
      (l.namespaces.search a path) (l'.namespaces.search a' path) := by
  obtain ⟨front, rest, hfront, hrel, hstrict, -⟩ := h.outward a a' ha
  obtain ⟨ids, hids, rfl, -⟩ := NamespaceTree.finds_outwardFrom (h.holds a a' ha)
  obtain ⟨ids', hids', rfl, hholds⟩ := NamespaceTree.finds_outwardFrom (h.holds' a a' ha)
  rw [NamespaceTree.search, NamespaceTree.search, hids, hids', hfront]
  apply Pairs.findSomeM?_append hrel
  · intro b b' hb
    apply (h.pairs_followAlias path hb).bind
    intro r r' hr
    cases hr with
    | some hfound => exact .pure (.some hfound)
    | none => exact h.pairs_follow path hb
  · by_cases hs : strict
    · rw [hstrict hs]
      exact .pure ⟨fun _ => rfl, nofun⟩
    · have hany := Finds.findSomeM? fun x (hx : x ∈ rest) =>
        h.closed'.finds_searchIn path (hholds x (hfront ▸ List.mem_append_right _ hx))
      exact hany.mono fun _ hr => ⟨fun hs' => absurd hs' hs, hr⟩

theorem pairs_named (h : Mirrors strict S l l') (name : String) (c : Category) (ha : S a a') :
    Pairs (List.Forall₂ (Twins S l l')) (l.namespaces.named a name c)
      (l'.namespaces.named a' name c) := by
  refine ⟨_, _, NamespaceTree.named_eq (h.holds a a' ha) name c,
    NamespaceTree.named_eq (h.holds' a a' ha) name c, ?_⟩
  refine List.rel_filterMap (R := Eq) ?_ (List.forall₂_refl _)
  rintro ⟨origin, kind⟩ _ rfl
  exact h.definition_rel ha _

theorem pairs_lookupUnder (h : Mirrors strict S l l') (path : List String) (name : String)
    (c : Category) (ha : S a a') :
    Pairs (Outcome.Follows strict (Twins S l l')) (l.lookupUnder a path name c)
      (l'.lookupUnder a' path name c) := by
  apply (h.pairs_search path ha).bind
  rintro r r' (hr | ⟨rfl, hr, hholds⟩)
  · cases hr with
    | none => exact .pure fun _ => rfl
    | some hb =>
      apply (h.pairs_named name c hb).bind
      exact fun ids ids' hids => .pure (Outcome.follows_ofCandidates hids)
  · cases r' with
    | none => exact .pure fun _ => rfl
    | some b =>
      obtain ⟨ids, hids, -⟩ := finds_named name c (hholds b rfl)
      refine ⟨.notFound, .ofCandidates ids, rfl, ?_, fun hs => absurd (hr hs) nofun⟩
      simp only [hids]
      rfl

/-! ## Bare names -/

theorem pairs_find (h : Mirrors strict S l l') (hid : Twins S l l' id id') :
    Pairs (fun d d' => d'.identity = d.identity ∧ S d.home d'.home) (l.find id) (l'.find id') := by
  obtain ⟨d, home, scope, hhome, hd, hd'⟩ := h.exists_stored hid
  exact ⟨d, _, Arena.find_of_get? hd, Arena.find_of_get? hd', rfl, hhome⟩

theorem aliasIn_eq {x : NamespaceId} (hx : l.namespaces.table.Holds x) (name : String)
    (c : Category) :
    l.aliasIn name c x =
      match l.namespaces.alias? x name with
      | some (.definition id) => do return if c.covers (← l.find id).identity then some id else none
      | _ => .ok none := by
  obtain ⟨n, hn⟩ := hx.exists_get?
  simp only [aliasIn, NamespaceTree.find, Arena.find_of_get? hn, NamespaceTree.alias?_of_get? hn]
  rfl

theorem pairs_aliasIn (h : Mirrors strict S l l') (name : String) (c : Category) (ha : S a a') :
    Pairs (Option.Rel (Twins S l l')) (l.aliasIn name c a) (l'.aliasIn name c a') := by
  have halias := h.aliases a a' ha name
  rw [aliasIn_eq (h.holds a a' ha), aliasIn_eq (h.holds' a a' ha)]
  generalize l.namespaces.alias? a name = m at halias
  generalize l'.namespaces.alias? a' name = m' at halias
  cases halias with
  | none => exact .pure .none
  | some hm =>
    cases hm with
    | space _ => exact .pure .none
    | definition hid =>
      apply (h.pairs_find hid).bind
      rintro d d' ⟨hidentity, -⟩
      rw [hidentity]
      split
      · exact .pure (.some hid)
      · exact .pure .none

theorem pairs_aliasFor (h : Mirrors strict S l l') (name : String) (c : Category) (ha : S a a') :
    Pairs (Option.Rel (Twins S l l')) (l.aliasFor a name c) (l'.aliasFor a' name c) := by
  obtain ⟨front, rest, hfront, hrel, -, hnone⟩ := h.outward a a' ha
  obtain ⟨ids, hids, rfl, -⟩ := NamespaceTree.finds_outwardFrom (h.holds a a' ha)
  obtain ⟨ids', hids', rfl, hholds⟩ := NamespaceTree.finds_outwardFrom (h.holds' a a' ha)
  have hrest : Finds (rest.findSomeM? (l'.aliasIn name c)) fun r => ∀ id, r = some id → False := by
    apply Finds.findSomeM?
    intro x hx
    have hx' : x ∈ l'.namespaces.outward a' := hfront ▸ List.mem_append_right _ hx
    rw [aliasIn_eq (hholds x hx')]
    split
    · rename_i id hid
      exact absurd hid (hnone x hx name id)
    · exact .pure nofun
  have hpairs := Pairs.findSomeM?_append hrel (fun b b' hb => h.pairs_aliasIn name c hb) hrest
  rw [aliasFor, aliasFor, hids, hids', hfront]
  apply Pairs.mono hpairs
  rintro r r' (hr | ⟨rfl, hr⟩)
  · exact hr
  · cases r' with
    | none => exact .none
    | some id => exact absurd rfl (hr id)

/-- The candidates in the first library are those in the second, as far as the first goes. -/
def Levels (strict : Prop) (D : DefId → DefId → Prop) (levels levels' : List (List DefId)) : Prop :=
  (∀ ids ∈ levels, ids ≠ []) ∧ (∀ ids ∈ levels', ids ≠ []) ∧
  ∃ front rest, levels' = front ++ rest ∧
    List.Forall₂ (List.Forall₂ D) levels front ∧ (strict → rest = [])

theorem pairs_levels (h : Mirrors strict S l l') (name : String) (c : Category) (ha : S a a') :
    Pairs (Levels strict (Twins S l l')) (l.levels a name c) (l'.levels a' name c) := by
  obtain ⟨front, rest, hfront, hrel, hstrict, -⟩ := h.outward a a' ha
  obtain ⟨ids, hids, rfl, -⟩ := NamespaceTree.finds_outwardFrom (h.holds a a' ha)
  obtain ⟨ids', hids', rfl, hholds⟩ := NamespaceTree.finds_outwardFrom (h.holds' a a' ha)
  obtain ⟨all, all', hall, hall', hlevels⟩ :=
    Pairs.mapM hrel fun b b' hb => h.pairs_named name c hb
  obtain ⟨more, hmore, -⟩ := Finds.mapM (Q := fun _ => True) fun x (hx : x ∈ rest) =>
    (finds_named name c (hholds x (hfront ▸ List.mem_append_right _ hx))).mono fun _ _ => trivial
  have hnonempty : List.Forall₂ (List.Forall₂ (Twins S l l'))
      (all.filter fun ids => !ids.isEmpty) (all'.filter fun ids => !ids.isEmpty) := by
    refine List.rel_filter (fun ids ids' hids => ?_) hlevels
    cases hids <;> simp
  refine ⟨all.filter fun ids => !ids.isEmpty, (all' ++ more).filter fun ids => !ids.isEmpty,
    ?_, ?_, ?_, ?_, _, _, List.filter_append _ _, hnonempty, fun hs => ?_⟩
  · simp only [levels, hids, bind, Except.bind, hall]
    rfl
  · simp only [levels, hids', bind, Except.bind, hfront, List.mapM_append, hall', hmore]
    rfl
  · intro ids hmem
    simpa using (List.mem_filter.1 hmem).2
  · intro ids hmem
    simpa using (List.mem_filter.1 hmem).2
  · rw [hstrict hs] at hmore
    cases hmore
    rfl

theorem pairs_isExplicit (h : Mirrors strict S l l') (hs : strict) (hid : Twins S l l' id id') :
    Pairs (· = ·) (l.isExplicit id) (l'.isExplicit id') := by
  apply (h.pairs_find hid).bind
  rintro d d' ⟨-, hhome⟩
  obtain ⟨n, hn⟩ := (h.holds _ _ hhome).exists_get?
  obtain ⟨n', hn'⟩ := (h.holds' _ _ hhome).exists_get?
  have hexplicit := h.explicit hs _ _ hhome
  rw [hn, hn'] at hexplicit
  refine ⟨n.explicit, n'.explicit, ?_, ?_, (Option.some.inj hexplicit).symm⟩
  · rw [NamespaceTree.find, Arena.find_of_get? hn]
    rfl
  · rw [NamespaceTree.find, Arena.find_of_get? hn']
    rfl

/-- Where the innermost namespace decides, the others do not matter. -/
theorem choose_of_preferCurrent (hstrategy : l.strategy = .preferCurrent)
    {levels : List (List DefId)} (hlevels : ∀ ids ∈ levels, ids ≠ []) :
    l.choose levels = .ok (.ofCandidates (levels.head?.getD [])) := by
  match levels with
  | [] => rfl
  | [ids] =>
    simp only [choose, hstrategy]
    split <;> simp <;> rfl
  | ids :: ids' :: rest =>
    have hmany : ¬ (ids :: ids' :: rest).flatten.length ≤ 1 := by
      have hfirst := List.length_pos_iff.2 (hlevels ids (by simp))
      have hsecond := List.length_pos_iff.2 (hlevels ids' (by simp))
      simp
      omega
    simp only [choose, hstrategy, if_neg hmany]
    rfl

theorem pairs_choose_of_strict (h : Mirrors strict S l l') (hs : strict)
    {levels levels' : List (List DefId)}
    (hlevels : List.Forall₂ (List.Forall₂ (Twins S l l')) levels levels') :
    Pairs (Outcome.Follows strict (Twins S l l')) (l.choose levels) (l'.choose levels') := by
  have hall : List.Forall₂ (Twins S l l') levels.flatten levels'.flatten :=
    List.rel_flatten hlevels
  simp only [choose, h.strategy, ← hall.length_eq]
  split
  · exact .pure (Outcome.follows_ofCandidates hall)
  · cases l.strategy with
    | preferCurrent =>
      refine .pure (Outcome.follows_ofCandidates ?_)
      cases hlevels with
      | nil => exact .nil
      | cons hfirst _ => exact hfirst
    | preferExplicit =>
      apply (Pairs.findM? hall fun id id' hid => h.pairs_isExplicit hs hid).bind
      intro r r' hr
      cases hr with
      | some hid => exact .pure ⟨_, rfl, hid⟩
      | none =>
        generalize levels.flatten = ids at hall
        generalize levels'.flatten = ids' at hall
        cases hall with
        | nil => exact .pure fun _ => rfl
        | cons hid _ => exact .pure ⟨_, rfl, hid⟩
    | error => exact .pure fun _ => ⟨_, rfl, hall⟩

theorem pairs_choose (h : Mirrors strict S l l') {levels levels' : List (List DefId)}
    (hlevels : Levels strict (Twins S l l') levels levels') :
    Pairs (Outcome.Follows strict (Twins S l l')) (l.choose levels) (l'.choose levels') := by
  obtain ⟨hsome, hsome', front, rest, rfl, hfront, hrest⟩ := hlevels
  rcases h.chosen with hs | hcurrent
  · rw [hrest hs, List.append_nil]
    exact h.pairs_choose_of_strict hs hfront
  · refine ⟨_, _, choose_of_preferCurrent hcurrent hsome,
      choose_of_preferCurrent (h.strategy.trans hcurrent) hsome', ?_⟩
    cases hfront with
    | nil =>
      intro hs
      rw [hrest hs]
      rfl
    | cons hfirst _ => exact Outcome.follows_ofCandidates hfirst

/-- A look-up that finds a definition finds its counterpart in the second library. -/
theorem pairs_lookup (h : Mirrors strict S l l') (n : Name) (c : Category) (ha : S a a') :
    Pairs (Outcome.Follows strict (Twins S l l')) (l.lookup a n c) (l'.lookup a' n c) := by
  unfold lookup
  split
  · exact h.pairs_lookupUnder n.path n.name c ha
  · apply (h.pairs_aliasFor n.name c ha).bind
    intro r r' hr
    cases hr with
    | some hid => exact .pure ⟨_, rfl, hid⟩
    | none =>
      apply (h.pairs_levels n.name c ha).bind
      exact fun levels levels' hlevels => h.pairs_choose hlevels

/-! ## Errors -/

theorem title_eq (h : Mirrors strict S l l') (hs : strict) (hid : Twins S l l' id id') :
    l'.title id' = l.title id := by
  obtain ⟨d, home, scope, hhome, hd, hd'⟩ := h.exists_stored hid
  obtain ⟨n, hn⟩ := (h.holds _ _ hhome).exists_get?
  obtain ⟨n', hn'⟩ := (h.holds' _ _ hhome).exists_get?
  have hpath : l'.namespaces.pathOf home = l.namespaces.pathOf d.home := by
    simp only [NamespaceTree.pathOf, NamespaceTree.find, Arena.find_of_get? hn,
      Arena.find_of_get? hn', h.paths hs _ _ hhome]
    rfl
  simp only [title, find, Arena.find_of_get? hd, Arena.find_of_get? hd']
  simp [bind, Except.bind, hpath]

theorem ambiguous_eq (h : Mirrors strict S l l') (hs : strict) (n : Name) {ids ids' : List DefId}
    (hids : List.Forall₂ (Twins S l l') ids ids') : l'.ambiguous n ids' = l.ambiguous n ids := by
  have htitles : ids'.mapM l'.title = ids.mapM l.title := by
    induction hids with
    | nil => rfl
    | cons hid _ ih => rw [List.mapM_cons, List.mapM_cons, h.title_eq hs hid, ih]
  rw [ambiguous, ambiguous, htitles]

theorem missing_eq (h : Mirrors strict S l l') (hs : strict) (n : Name) (c : Category)
    (ha : S a a') : l'.missing a' n c = l.missing a n c := by
  unfold missing
  split
  · rfl
  · obtain ⟨r, r', hr, hr', hfollows⟩ := h.pairs_lookup n .any ha
    have hfirst := hfollows.first? hs
    simp only [hr, hr', bind, Except.bind]
    generalize r.first? = first at hfirst
    generalize r'.first? = first' at hfirst
    cases hfirst with
    | none => rfl
    | some hid =>
      obtain ⟨d, d', hd, hd', hidentity, -⟩ := h.pairs_find hid
      simp only [hd, hd', hidentity]

/-- What a name means in the first library, its counterpart means in the second. -/
theorem carries_resolve (h : Mirrors strict S l l') (n : Name) (expected : Category)
    (ha : S a a') :
    Carries strict (Twins S l l') (l.resolve a n expected) (l'.resolve a' n expected) := by
  apply (Carries.liftProblem (n.combine expected)).bind
  rintro c _ rfl
  apply (Carries.lift (h.pairs_lookup n c ha)).bind
  intro r r' hr
  cases r with
  | found id =>
    obtain ⟨id', rfl, hid⟩ := hr
    exact .pure hid
  | ambiguous ids =>
    apply Carries.of_fails
    · intro id hid
      obtain ⟨e, -, he⟩ := Except.bind_eq_ok hid
      cases he
    · intro hs
      obtain ⟨ids', rfl, hids⟩ := hr hs
      simp only [h.ambiguous_eq hs n hids]
  | notFound =>
    apply Carries.of_fails
    · intro id hid
      obtain ⟨e, -, he⟩ := Except.bind_eq_ok hid
      cases he
    · intro hs
      rw [hr hs]
      simp only [h.missing_eq hs n c ha]

end Mirrors
end Library
end Stencil
