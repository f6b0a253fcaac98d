import Stencil.Proofs.Payload
import Stencil.Proofs.Transport

/-! # What is left without excluded definitions

To exclude definitions from the content of another is to take away the edges that lead into them. The
walk that leaves them out looks names up, and finds ancestors, as if nothing had been taken away, and
excludes more on its way; the walk through the library without these edges excludes only what can
still be reached.
-/
namespace Stencil

open Resolving

namespace Library

variable {l : Library} {E : Finset DefId} {id p : DefId} {d : Definition}

/-- The edge means one of the definitions. -/
def leadsInto (l : Library) (E : Finset DefId) (d : Definition) (e : Inheritance) : Bool :=
  match l.parentOf d e with
  | .ok p => decide (p ∈ E)
  | .error _ => false

/-- The definition less its edges into `E`. -/
def cut (l : Library) (E : Finset DefId) (d : Definition) : Definition :=
  { d with edges := d.edges.filter fun e => !l.leadsInto E d e }

/-- The library in which no edge leads into `E`. -/
def without (l : Library) (E : Finset DefId) : Library :=
  { l with definitions := ⟨l.definitions.entries.map (l.cut E)⟩ }

theorem get?_without (l : Library) (E : Finset DefId) (id : DefId) :
    (l.without E).definitions.get? id = (l.definitions.get? id).map (l.cut E) := by
  simp [without, Arena.get?]

theorem size_without (l : Library) (E : Finset DefId) :
    (l.without E).definitions.size = l.definitions.size := by
  simp [without, Arena.size]

theorem find_without (l : Library) (E : Finset DefId) (id : DefId) :
    (l.without E).find id = (l.find id).map (l.cut E) := by
  simp only [find, Arena.find, get?_without]
  cases l.definitions.get? id <;> rfl

/-- Where nothing is excluded, nothing is taken away. -/
theorem without_empty (l : Library) : l.without ∅ = l := by
  have hcut (d : Definition) : l.cut ∅ d = d := by
    have hedges : d.edges.filter (fun e => !l.leadsInto ∅ d e) = d.edges := by
      rw [List.filter_eq_self]
      intro e _
      unfold leadsInto
      split <;> simp
    rw [cut, hedges]
  have hentries : l.definitions.entries.map (l.cut ∅) = l.definitions.entries := by
    rw [funext hcut, Array.map_id']
  rw [without, hentries]

/-! ## Names mean the same -/

theorem aliasIn_without (l : Library) (E : Finset DefId) (name : String) (c : Category) :
    (l.without E).aliasIn name c = l.aliasIn name c := by
  funext ns
  unfold aliasIn
  apply congrArg (l.namespaces.find ns >>= ·)
  funext n
  split
  · rw [find_without]
    cases l.find _ <;> rfl
  · rfl

theorem aliasFor_without (l : Library) (E : Finset DefId) (start : NamespaceId) (name : String)
    (c : Category) : (l.without E).aliasFor start name c = l.aliasFor start name c := by
  rw [aliasFor, aliasFor, aliasIn_without]
  rfl

theorem isExplicit_without (l : Library) (E : Finset DefId) :
    (l.without E).isExplicit = l.isExplicit := by
  funext id
  rw [isExplicit, isExplicit, find_without]
  cases l.find id <;> rfl

theorem choose_without (l : Library) (E : Finset DefId) (levels : List (List DefId)) :
    (l.without E).choose levels = l.choose levels := by
  rw [choose, choose, isExplicit_without]
  rfl

theorem lookup_without (l : Library) (E : Finset DefId) (start : NamespaceId) (n : Name)
    (c : Category) : (l.without E).lookup start n c = l.lookup start n c := by
  unfold lookup
  split
  · rfl
  · rw [lookupBare, lookupBare, aliasFor_without]
    simp only [choose_without]
    rfl

theorem title_without (l : Library) (E : Finset DefId) : (l.without E).title = l.title := by
  funext id
  rw [title, title, find_without]
  cases l.find id <;> rfl

theorem ambiguous_without (l : Library) (E : Finset DefId) (n : Name) (ids : List DefId) :
    (l.without E).ambiguous n ids = l.ambiguous n ids := by
  rw [ambiguous, ambiguous, title_without]

theorem missing_without (l : Library) (E : Finset DefId) (start : NamespaceId) (n : Name)
    (c : Category) : (l.without E).missing start n c = l.missing start n c := by
  unfold missing
  split
  · rfl
  · rw [lookup_without]
    apply congrArg (l.lookup start n .any >>= ·)
    funext found
    split
    · rfl
    · rw [find_without]
      cases l.find _ <;> rfl

/-- A name means what it meant. -/
theorem resolve_without (l : Library) (E : Finset DefId) (start : NamespaceId) (n : Name)
    (expected : Category) :
    (l.without E).resolve start n expected = l.resolve start n expected := by
  simp only [resolve, lookup_without, ambiguous_without, missing_without]

theorem parentOf_cut (l : Library) (E : Finset DefId) (d : Definition) (e : Inheritance) :
    (l.without E).parentOf (l.cut E d) e = l.parentOf d e :=
  resolve_without l E d.home e.target (.ofKind d.kind)

/-- What is inherited without the excluded definitions. -/
theorem inherits_without : (l.without E).Inherits id p ↔ l.Inherits id p ∧ p ∉ E := by
  constructor
  · rintro ⟨d', hd', e, he, hp⟩
    rw [get?_without] at hd'
    obtain ⟨d, hd, rfl⟩ := Option.map_eq_some_iff.1 hd'
    obtain ⟨he, hkept⟩ := List.mem_filter.1 he
    rw [parentOf_cut] at hp
    exact ⟨⟨d, hd, e, he, hp⟩, by simpa [leadsInto, hp] using hkept⟩
  · rintro ⟨⟨d, hd, e, he, hp⟩, hnot⟩
    refine ⟨l.cut E d, by rw [get?_without, hd]; rfl, e, List.mem_filter.2 ⟨he, ?_⟩, ?_⟩
    · simpa [leadsInto, hp] using hnot
    · rw [parentOf_cut, hp]

theorem transGen_of_without (h : Relation.TransGen (l.without E).Inherits id p) :
    Relation.TransGen l.Inherits id p := by
  induction h with
  | single h => exact .single (inherits_without.1 h).1
  | tail _ h ih => exact ih.tail (inherits_without.1 h).1

theorem not_mem_of_without (h : Relation.TransGen (l.without E).Inherits id p) : p ∉ E := by
  cases h with
  | single h => exact (inherits_without.1 h).2
  | tail _ h => exact (inherits_without.1 h).2

theorem Closed.without (h : l.Closed) (E : Finset DefId) : (l.without E).Closed where
  namespaces := by
    rw [size_without]
    exact h.namespaces
  definitions id d hd := by
    rw [get?_without] at hd
    obtain ⟨d, hid, rfl⟩ := Option.map_eq_some_iff.1 hd
    exact h.definitions id d hid

/-! ## What is excluded on the way -/

/-- Two sets exclude the same of what `id` inherits from in the library without `E`; the first one, of
the walk through the whole library, also excludes `E`. -/
structure ExcludesAlike (l : Library) (E : Finset DefId) (id : DefId) (more fewer : Finset DefId) :
    Prop where
  subset : E ⊆ more
  mem_iff : ∀ p, Relation.TransGen (l.without E).Inherits id p → (p ∈ more ↔ p ∈ fewer)

variable {more fewer : Finset DefId}

theorem ExcludesAlike.start (l : Library) (E : Finset DefId) (id : DefId) :
    l.ExcludesAlike E id E ∅ where
  subset := Finset.Subset.refl E
  mem_iff _ hp := iff_of_false (not_mem_of_without hp) (Finset.notMem_empty _)

theorem ExcludesAlike.parent (h : l.ExcludesAlike E id more fewer)
    (hp : (l.without E).Inherits id p) : l.ExcludesAlike E p more fewer where
  subset := h.subset
  mem_iff q hq := h.mem_iff q (.head hp hq)

theorem exists_excludeNamed {ancestors ancestors' : List DefId} {target : Name}
    {excluded' : Finset DefId} (h : l.excludeNamed d ancestors more target = .ok excluded')
    (fewer : Finset DefId) :
    ∃ excluded, (l.without E).excludeNamed (l.cut E d) ancestors' fewer target = .ok excluded := by
  have hresolve : (l.without E).resolve (l.cut E d).home target (.ofKind (l.cut E d).kind) =
      l.resolve d.home target (.ofKind d.kind) := resolve_without l E _ _ _
  unfold excludeNamed at h ⊢
  rw [hresolve]
  rcases hr : l.resolve d.home target (.ofKind d.kind) with (e | f) | p <;> rw [hr] at h
  · exact ⟨_, rfl⟩
  · cases h
  · exact ⟨_, rfl⟩

theorem exists_foldlM_excludeNamed {ancestors ancestors' : List DefId} {targets : List Name}
    {excluded' : Finset DefId}
    (h : targets.foldlM (l.excludeNamed d ancestors) more = .ok excluded')
    (fewer : Finset DefId) :
    ∃ excluded, targets.foldlM ((l.without E).excludeNamed (l.cut E d) ancestors') fewer =
      .ok excluded := by
  induction targets generalizing more fewer with
  | nil => exact ⟨fewer, rfl⟩
  | cons target targets ih =>
    obtain ⟨more', hmore, h⟩ := Except.bind_eq_ok (List.foldlM_cons (m := Except Fault) ▸ h)
    obtain ⟨fewer', hfewer⟩ : ∃ fewer',
        (l.without E).excludeNamed (l.cut E d) ancestors' fewer target = .ok fewer' :=
      exists_excludeNamed hmore fewer
    rw [List.foldlM_cons, hfewer]
    exact ih h fewer'

/-- Edits exclude the same again: an ancestor that is still there in the library without `E` is found
among the ancestors in both. -/
theorem ExcludesAlike.excludeDeleted (h : l.ExcludesAlike E id more fewer) (hl : l.Closed)
    (hd : l.definitions.get? id = some d) {edits : List Edit} {more' : Finset DefId}
    (hmore : l.excludeDeleted id d edits more = .ok more') :
    ∃ fewer', (l.without E).excludeDeleted id (l.cut E d) edits fewer = .ok fewer' ∧
      l.ExcludesAlike E id more' fewer' := by
  have hid := Arena.holds_of_get? hd
  have hid' : (l.without E).definitions.Holds id := by
    rw [Arena.Holds, size_without]
    exact hid
  obtain ⟨ancestors, hancestors, -, hmem⟩ := hl.finds_ancestors hid
  obtain ⟨ancestors', hancestors', -, hmem'⟩ := (hl.without E).finds_ancestors hid'
  have hsame (x : DefId) (hx : Relation.TransGen (l.without E).Inherits id x) :
      x ∈ ancestors ↔ x ∈ ancestors' := by
    rw [hmem, hmem', and_iff_left hx, and_iff_left (transGen_of_without hx)]
  obtain ⟨fewer', hfewer⟩ : ∃ fewer',
      (l.without E).excludeDeleted id (l.cut E d) edits fewer = .ok fewer' := by
    unfold Library.excludeDeleted at hmore ⊢
    rw [hancestors] at hmore
    rw [hancestors']
    dsimp only at hmore ⊢
    split
    · exact ⟨fewer, rfl⟩
    next hsome =>
      rw [if_neg hsome] at hmore
      exact exists_foldlM_excludeNamed hmore fewer
  refine ⟨fewer', hfewer, h.subset.trans (subset_of_excludeDeleted hmore), fun x hx => ?_⟩
  rw [mem_of_excludeDeleted hmore, mem_of_excludeDeleted hfewer, h.mem_iff x hx, hancestors,
    hancestors']
  simp only [Except.ok.injEq, exists_eq_left', hsame x hx, resolve_without]
  rfl

/-! ## The walk -/

section Results

variable {α β : Type} {a : α} {b : β}

theorem bind_eq_ok_iff {x : Except Failure α} {f : α → Except Failure β} :
    x >>= f = .ok b ↔ ∃ a, x = .ok a ∧ f a = .ok b := by
  refine ⟨Except.bind_eq_ok, ?_⟩
  rintro ⟨a, rfl, h⟩
  exact h

theorem liftM_fault_eq_ok {x : Except Fault α} :
    (liftM x : Except Failure α) = .ok a ↔ x = .ok a := by
  cases x <;> simp [liftM, monadLift, MonadLift.monadLift, Except.mapError]

theorem liftM_problem_eq_ok {x : Except Problem α} :
    (liftM x : Except Failure α) = .ok a ↔ x = .ok a := by
  cases x <;> simp [liftM, monadLift, MonadLift.monadLift, Except.mapError]

end Results

/-- The content after edits, from what the walk finds with more excluded. -/
theorem edited_eq_ok (hd : l.definitions.get? id = some d)
    {flat : Finset DefId → Except Failure Content} {edits : List Edit} {excluded : Finset DefId}
    {b : Content} :
    l.edited flat id edits excluded = .ok b ↔
      ∃ more, l.excludeDeleted id d edits excluded = .ok more ∧
        ∃ base, flat more = .ok base ∧
          (Edit.applyAll l.firstIndex d.identity.render edits base).1 = b := by
  unfold edited
  split
  next hnone =>
    obtain rfl := List.isEmpty_iff.1 hnone
    have hexcluded : l.excludeDeleted id d [] excluded = .ok excluded := rfl
    simp [hexcluded, Edit.applyAll]
  next hsome =>
    have hfind : l.find id = .ok d := Arena.find_of_get? hd
    simp only [bind_eq_ok_iff, liftM_fault_eq_ok, hfind, Except.ok.injEq, exists_eq_left', pure,
      Except.pure]

/-- The parents laid over each other, from the first edge on. -/
theorem overlayParents_eq_ok {flat : l.ParentContent id} {e : Inheritance}
    {edges : List Inheritance} {excluded : Finset DefId} {body b : Content}
    (hd : l.definitions.get? id = some d) (he : e :: edges ⊆ d.edges)
    (hp : l.parentOf d e = .ok p) :
    l.overlayParents hd excluded flat (e :: edges) he body = .ok b ↔
      checkEdits d e.edits = .ok () ∧
        if p ∈ excluded then
          l.overlayParents hd excluded flat edges (List.subset_of_cons_subset he) body = .ok b
        else ∃ inherited,
          l.edited (flat p ⟨d, hd, e, he List.mem_cons_self, hp⟩) p e.edits excluded =
            .ok inherited ∧
          ∃ body', overlayFor d body inherited = .ok body' ∧
            l.overlayParents hd excluded flat edges (List.subset_of_cons_subset he) body' =
              .ok b := by
  rw [overlayParents_of_ok hd he hp, bind_eq_ok_iff]
  simp only [liftM_problem_eq_ok]
  constructor
  · rintro ⟨⟨⟩, hallowed, hb⟩
    refine ⟨hallowed, ?_⟩
    split at hb
    next hx => rwa [if_pos hx]
    next hx => simpa only [if_neg hx, bind_eq_ok_iff, liftM_problem_eq_ok] using hb
  · rintro ⟨hallowed, hb⟩
    refine ⟨(), hallowed, ?_⟩
    split
    next hx => rwa [if_pos hx] at hb
    next hx => simpa only [if_neg hx, bind_eq_ok_iff, liftM_problem_eq_ok] using hb

theorem get?_without_of_some (hd : l.definitions.get? id = some d) (E : Finset DefId) :
    (l.without E).definitions.get? id = some (l.cut E d) := by
  rw [get?_without, hd]
  rfl

theorem edited_without (hl : l.Closed) (hd : l.definitions.get? id = some d)
    {flat flat' : Finset DefId → Except Failure Content}
    (hflat : ∀ more fewer b, l.ExcludesAlike E id more fewer → flat more = .ok b →
      flat' fewer = .ok b)
    (h : l.ExcludesAlike E id more fewer) {edits : List Edit} {b : Content}
    (hb : l.edited flat id edits more = .ok b) :
    (l.without E).edited flat' id edits fewer = .ok b := by
  obtain ⟨more', hmore, base, hbase, rfl⟩ := (edited_eq_ok hd).1 hb
  obtain ⟨fewer', hfewer, h'⟩ := h.excludeDeleted hl hd hmore
  exact (edited_eq_ok (get?_without_of_some hd E)).2
    ⟨fewer', hfewer, base, hflat _ _ _ h' hbase, rfl⟩

/-- Laying the parents over each other takes the edges one by one: an edge into `E` is passed over on
the one side and missing on the other, any other edge is taken or excluded on both. -/
theorem overlayParents_without (hl : l.Closed) {flat : l.ParentContent id}
    {flat' : (l.without E).ParentContent id}
    (hflat : ∀ p hp hp' more fewer b, l.ExcludesAlike E p more fewer → flat p hp more = .ok b →
      flat' p hp' fewer = .ok b)
    (h : l.ExcludesAlike E id more fewer) (hd : l.definitions.get? id = some d)
    {edges kept : List Inheritance} (he : edges ⊆ d.edges) (he' : kept ⊆ (l.cut E d).edges)
    (hkept : edges.filter (fun e => !l.leadsInto E d e) = kept) {body b : Content}
    (hb : l.overlayParents hd more flat edges he body = .ok b) :
    (l.without E).overlayParents (get?_without_of_some hd E) fewer flat' kept he' body = .ok b := by
  have hd' := get?_without_of_some hd E
  induction edges generalizing kept body with
  | nil =>
    subst hkept
    exact hb
  | cons e edges ih =>
    cases hp : l.parentOf d e with
    | error f =>
      rw [overlayParents_of_error hd he hp] at hb
      cases hb
    | ok p =>
      obtain ⟨hallowed, hb⟩ := (overlayParents_eq_ok hd he hp).1 hb
      by_cases hpE : p ∈ E
      · have hgone : l.leadsInto E d e = true := by simp [leadsInto, hp, hpE]
        rw [List.filter_cons_of_neg (by simp [hgone])] at hkept
        rw [if_pos (h.subset hpE)] at hb
        exact ih _ he' hkept hb
      · have hstays : l.leadsInto E d e = false := by simp [leadsInto, hp, hpE]
        rw [List.filter_cons_of_pos (by simp [hstays])] at hkept
        subst hkept
        have hp' : (l.without E).parentOf (l.cut E d) e = .ok p := (parentOf_cut l E d e).trans hp
        have hinherits : (l.without E).Inherits id p :=
          ⟨l.cut E d, hd', e, he' List.mem_cons_self, hp'⟩
        have hsame := h.mem_iff p (.single hinherits)
        refine (overlayParents_eq_ok hd' he' hp').2 ⟨hallowed, ?_⟩
        by_cases hpmore : p ∈ more
        · rw [if_pos hpmore] at hb
          rw [if_pos (hsame.1 hpmore)]
          exact ih _ _ rfl hb
        · rw [if_neg hpmore] at hb
          rw [if_neg fun hfewer => hpmore (hsame.2 hfewer)]
          obtain ⟨inherited, hinherited, body', hbody, hb⟩ := hb
          obtain ⟨dp, hdp⟩ := (hl.holds_of_inherits (inherits_without.1 hinherits).1).exists_get?
          exact ⟨inherited, edited_without hl hdp (hflat p _ _) (h.parent hinherits) hinherited,
            body', hbody, ih _ _ rfl hb⟩

/-- What a walk finds that leaves out `E`, a walk finds in the library without `E`. -/
theorem walked_without (hl : l.Closed) {path : List DefId} {id : DefId} {more fewer : Finset DefId}
    (h : l.ExcludesAlike E id more fewer) {b : Content}
    (hb : l.walked .empty path id more = .ok b) :
    (l.without E).walked .empty path id fewer = .ok b := by
  by_cases hid : id ∈ path
  · rw [walked_of_mem (by simp) hid] at hb
    obtain ⟨_, -, hb⟩ := Except.bind_eq_ok hb
    cases hb
  rw [walked_of_not_mem (by simp) hid] at hb ⊢
  cases hd : l.definitions.get? id with
  | none =>
    rw [merged_of_none hd] at hb
    cases hb
  | some d =>
    have hd' := get?_without_of_some hd E
    rw [merged_of_some hd] at hb
    rw [merged_of_some hd']
    obtain ⟨gathered, hgathered, hb⟩ := Except.bind_eq_ok hb
    have below (p : DefId) (_ : l.Inherits id p) (_ : (l.without E).Inherits id p)
        (more fewer : Finset DefId) (b : Content) (h : l.ExcludesAlike E p more fewer)
        (hb : l.walked .empty (id :: path) p more = .ok b) :
        (l.without E).walked .empty (id :: path) p fewer = .ok b :=
      have := Arena.unvisited_cons_lt hd hid
      walked_without hl h hb
    have hgathered' : (l.without E).overlayParents hd' fewer
        (fun p _ => (l.without E).walked .empty (id :: path) p) (l.cut E d).edges
        (List.Subset.refl _) (.empty (l.cut E d).kind) = .ok gathered :=
      overlayParents_without hl below h hd (List.Subset.refl _) (List.Subset.refl _) rfl hgathered
    rw [hgathered']
    exact hb
termination_by l.definitions.unvisited path

/-! ## Content without excluded definitions -/

/-- Nothing is remembered of content that leaves something out, so it is found as by a walk without
memory. -/
theorem descend_excluding {path : List DefId} (hpath : l.Stored path) (id : DefId)
    {excluded : List DefId} (hne : excluded ≠ []) :
    Yields (fun _ => True) (l.descend path id excluded)
      (Tracks (l.walked .empty path id excluded.toFinset)
        fun _ => l.walked .empty path id excluded.toFinset) := by
  have hnew : remembered excluded id = pure none :=
    if_neg fun hempty => hne (List.isEmpty_iff.1 hempty)
  apply descend_yields (N := True)
  · rw [hnew]
    exact .pure (.inl ⟨rfl, trivial⟩)
  · rintro - hid
    obtain ⟨texts, htexts⟩ := cycle_of_mem hpath hid
    rw [walked_of_mem (by simp) hid, htexts]
    exact ⟨texts, rfl, .refl _⟩
  · rintro - hid hd
    rw [walked_of_not_mem (by simp) hid, merged_of_none hd]
    exact .refl _
  · rintro - hid d hd
    rw [walked_of_not_mem (by simp) hid]
    have below (p : DefId) (hp : l.Inherits id p) (more : List DefId) (hmore : excluded ⊆ more) :=
      have := Arena.unvisited_cons_lt hd hid
      descend_excluding (hpath.cons hp) p fun hnil => hne (List.subset_nil.1 (hnil ▸ hmore))
    exact gather_tracks (fun _ _ _ _ => trivial) excluded below hd
  · exact fun _ hempty => absurd hempty hne
termination_by l.definitions.unvisited path

theorem walked_of_descend {excluded : List DefId} (hne : excluded ≠ []) {s : Session} {b : Content}
    (h : (l.descend [] id excluded).outcome s = .ok b) :
    l.walked .empty [] id excluded.toFinset = .ok b := by
  have htracks : Tracks (l.walked .empty [] id excluded.toFinset)
      (fun _ => l.walked .empty [] id excluded.toFinset) ((l.descend [] id excluded).outcome s) :=
    (descend_excluding stored_nil id hne s trivial).1
  rw [h] at htracks
  obtain ⟨n, hn⟩ := htracks.unfolds not_isCircular_ok
  exact hn n (Nat.le_refl n)

theorem content_of_walked {b : Content} (h : l.walked .empty [] id ∅ = .ok b) {t : Session}
    (ht : t.cache = .empty) : (l.content id).outcome t = .ok b := by
  have hfaithful := Faithful.start l t
  rw [ht] at hfaithful
  rw [← h]
  exact (content_tracks id t hfaithful).1.settles (h ▸ not_isCircular_ok)

/-- Content that leaves out `E` is the content in the library without `E`. -/
theorem content_without (hl : l.Closed) {excluded : List DefId} (hne : excluded ≠ [])
    {s t : Session} {b : Content} (h : (l.descend [] id excluded).outcome s = .ok b)
    (ht : t.cache = .empty) : ((l.without excluded.toFinset).content id).outcome t = .ok b :=
  content_of_walked (walked_without hl (.start l _ id) (walked_of_descend hne h)) ht

/-- Every deletion among the edits of `id` takes out something, and `E` is what they take out. -/
structure TakenOut (l : Library) (id : DefId) (edits : List Edit) (E : Finset DefId) : Prop where
  takesOut : ∀ target ∈ edits.filterMap Edit.deletedAncestor?, ∃ x, l.TakesOut id target x
  mem_iff : ∀ x, x ∈ E ↔
    ∃ target ∈ edits.filterMap Edit.deletedAncestor?, l.TakesOut id target x

/-- What the edits take out is what they exclude. -/
theorem TakenOut.excludeDeleted {edits : List Edit} (h : l.TakenOut id edits E) (hl : l.Closed)
    (hd : l.definitions.get? id = some d) {excluded : Finset DefId}
    (hexcluded : l.excludeDeleted id d edits ∅ = .ok excluded) : excluded = E := by
  obtain ⟨ancestors, hancestors, -, hmem⟩ := hl.finds_ancestors (Arena.holds_of_get? hd)
  ext x
  rw [mem_of_excludeDeleted hexcluded, h.mem_iff, hancestors]
  simp only [Finset.notMem_empty, false_or, Except.ok.injEq, exists_eq_left', hmem]
  constructor
  · rintro ⟨target, htarget, ⟨hne, hreach⟩, hresolve⟩
    exact ⟨target, htarget, d, hd, hresolve, hne, hreach⟩
  · rintro ⟨target, htarget, d', hd', hresolve, hne, hreach⟩
    obtain rfl := Option.some.inj (hd.symm.trans hd')
    exact ⟨target, htarget, ⟨hne, hreach⟩, hresolve⟩

theorem TakenOut.deletions_eq_nil {edits : List Edit} (h : l.TakenOut id edits ∅) :
    edits.filterMap Edit.deletedAncestor? = [] := by
  rw [List.eq_nil_iff_forall_not_mem]
  intro target htarget
  obtain ⟨x, hx⟩ := h.takesOut target htarget
  exact Finset.notMem_empty x ((h.mem_iff x).2 ⟨target, htarget, hx⟩)

/-- Edited content is the edited content in the library without what the deletions take out. -/
theorem contentEdited_without (hl : l.Closed) (hd : l.definitions.get? id = some d)
    {edits : List Edit} (hE : l.TakenOut id edits E) {s t : Session} {b : Content}
    (h : (l.contentEdited id edits).outcome s = .ok b)
    (ht : E.Nonempty ∧ t.cache = .empty ∨ E = ∅ ∧ t = s) :
    ∃ flat, ((l.without E).content id).outcome t = .ok flat ∧
      b = (Edit.applyAll l.firstIndex d.identity.render edits flat).1 := by
  obtain ⟨flat, hflat, hb⟩ := contentEdited_eq_ok hd h
  refine ⟨flat, ?_, hb⟩
  rcases ht with ⟨hnonempty, ht⟩ | ⟨rfl, rfl⟩
  · obtain ⟨excluded, hexcluded, hflat⟩ := outcome_bind_eq_ok.1 hflat
    have hyields : Yields (fun _ => True) (l.excludeAll id d edits [])
        (Lists (l.excludeDeleted id d edits ∅)) := excludeAll_lists (fun _ _ _ _ => trivial) edits []
    have hset : l.excludeDeleted id d edits ∅ = .ok excluded.toFinset := by
      have hlists := (hyields s trivial).1
      rw [hexcluded] at hlists
      cases hdeleted : l.excludeDeleted id d edits ∅ with
      | error f =>
        rw [hdeleted] at hlists
        cases hlists
      | ok set =>
        rw [hdeleted] at hlists
        exact (Except.ok.inj hlists).symm ▸ rfl
    obtain rfl := hE.excludeDeleted hl hd hset
    have hne : excluded ≠ [] := by
      rintro rfl
      simp at hnonempty
    exact content_without hl hne hflat ht
  · rw [base_of_no_deletions hE.deletions_eq_nil] at hflat
    rw [without_empty, outcome_content, hflat]

end Library

/-- In every compilation, whatever is remembered: content that leaves out definitions is the content
where nothing is remembered and no edge leads into them. Content after edits of which each deletion
takes out something is, edited, the content where no edge leads into what they take out; edits without
deletions start from the content that is asked for at the same time. -/
theorem Compilation.Reachable.exclusion {c : Compilation} (hc : c.Reachable) (id : DefId)
    (s : Session) (b : Content) :
    (∀ excluded : List DefId, excluded ≠ [] →
      (c.library.contentWithout id excluded).outcome s = .ok b →
      ∀ t : Session, t.cache = .empty →
        ((c.library.without excluded.toFinset).content id).outcome t = .ok b) ∧
    ∀ (d : Definition) (edits : List Edit) (E : Finset DefId),
      c.definitions.get? id = some d → c.library.TakenOut id edits E →
      (c.library.contentEdited id edits).outcome s = .ok b →
      ∀ t : Session, (E.Nonempty ∧ t.cache = .empty ∨ E = ∅ ∧ t = s) →
        ∃ flat, ((c.library.without E).content id).outcome t = .ok flat ∧
          b = (Edit.applyAll c.config.firstIndex d.identity.render edits flat).1 := by
  have hl : c.library.Closed := hc.intact.toClosed.library
  refine ⟨fun excluded hne h t ht => ?_, fun d edits E hd hE h t ht =>
    Library.contentEdited_without hl hd hE h ht⟩
  rw [Library.contentWithout, if_neg fun hempty => hne (List.isEmpty_iff.1 hempty)] at h
  exact Library.content_without hl hne h ht

/-- A vault inherits from a wall of stone and from an arch, which inherits from the wall too, less the
stone. -/
def cellar : Compilation :=
  let stone : Name := .ofKind .style "Stone"
  let wall : Name := .ofKind .style "Wall"
  let inherits (target : Name) (edits : List Edit) : Inheritance := ⟨target, .explicit, edits, none⟩
  let group (name property value : String) (edges : List Inheritance) : Operation :=
    .addGroup ⟨.custom, .style, name⟩ (.style (.ofList [(property, .concrete value)])) edges
      .empty none
  Operation.afterAll
    [group "Stone" "color" "grey" [], group "Wall" "width" "1px" [inherits stone []],
      group "Arch" "height" "2px" [inherits wall [.deleteInheritance stone]],
      group "Vault" "margin" "0" [inherits wall [], inherits (.ofKind .style "Arch") []]]
    (.initial .initial)

namespace cellar

/-- A red vault without stone. -/
def edits : List Edit := [.deleteInheritance (.ofKind .style "Stone"), .assign "color" "red"]

theorem takenOut : cellar.library.TakenOut ⟨3⟩ edits {⟨0⟩} := by
  have hwall : cellar.library.Inherits ⟨3⟩ ⟨1⟩ := by
    refine ⟨_, rfl, _, List.mem_cons_self, ?_⟩
    decide +kernel
  have hstone : cellar.library.Inherits ⟨1⟩ ⟨0⟩ := by
    refine ⟨_, rfl, _, List.mem_cons_self, ?_⟩
    decide +kernel
  have hmeans : cellar.library.resolve .root (.ofKind .style "Stone") (.ofKind .style) =
      .ok ⟨0⟩ := by
    decide +kernel
  have htakes : cellar.library.TakesOut ⟨3⟩ (.ofKind .style "Stone") ⟨0⟩ :=
    ⟨_, rfl, hmeans, by decide, .tail (.single hwall) hstone⟩
  constructor
  · intro target htarget
    obtain rfl := List.mem_singleton.1 htarget
    exact ⟨_, htakes⟩
  · intro x
    rw [Finset.mem_singleton]
    constructor
    · rintro rfl
      exact ⟨_, List.mem_singleton.2 rfl, htakes⟩
    · rintro ⟨target, htarget, d, hd, hresolve, -⟩
      obtain rfl := List.mem_singleton.1 htarget
      cases hd
      exact Except.ok.inj (hresolve.symm.trans hmeans)

end cellar

/-- The vault without stone has three properties, as it has where nothing leads to the stone, and
painted red it has four. -/
theorem exclusion_cellar :
    cellar.Reachable ∧
    (∃ b, b.size = 3 ∧ (cellar.library.contentWithout ⟨3⟩ [⟨0⟩]).outcome cellar.session = .ok b ∧
      ((cellar.library.without {⟨0⟩}).content ⟨3⟩).outcome ⟨.empty, []⟩ = .ok b) ∧
    ∃ b flat, b.size = 4 ∧
      (cellar.library.contentEdited ⟨3⟩ cellar.edits).outcome cellar.session = .ok b ∧
      ((cellar.library.without {⟨0⟩}).content ⟨3⟩).outcome ⟨.empty, []⟩ = .ok flat ∧
      b = (Edit.applyAll 0 "[Custom] @Style Vault" cellar.edits flat).1 := by
  have hreachable : cellar.Reachable := (Compilation.Reachable.initial .initial).afterAll _
  refine ⟨hreachable, ?_, ?_⟩
  · have hsize : ((cellar.library.contentWithout ⟨3⟩ [⟨0⟩]).outcome cellar.session).map
        Content.size = .ok 3 := by
      decide +kernel
    obtain ⟨b, hb, hsize⟩ := Except.map_eq_ok.1 hsize
    exact ⟨b, hsize, hb,
      (hreachable.exclusion ⟨3⟩ cellar.session b).1 [⟨0⟩] (by simp) hb ⟨.empty, []⟩ rfl⟩
  · have hsize : ((cellar.library.contentEdited ⟨3⟩ cellar.edits).outcome cellar.session).map
        Content.size = .ok 4 := by
      decide +kernel
    obtain ⟨b, hb, hsize⟩ := Except.map_eq_ok.1 hsize
    obtain ⟨flat, hflat, happlied⟩ := (hreachable.exclusion ⟨3⟩ cellar.session b).2 _ _ {⟨0⟩} rfl
      cellar.takenOut hb ⟨.empty, []⟩ (.inl ⟨⟨_, Finset.mem_singleton_self _⟩, rfl⟩)
    exact ⟨b, flat, hsize, hb, hflat, happlied⟩

end Stencil
