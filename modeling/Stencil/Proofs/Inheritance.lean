import Mathlib.Data.Finset.Basic
import Mathlib.Logic.Relation
import Stencil.Library.Content

/-! # Inheritance without memory

The content of a definition is a fold over the definitions it inherits from. Three readings of that
fold are given, none of which remembers what it finds: along a path, which ends where a definition
is reached again; to a bounded depth; and, where no definition inherits from itself, without
either. The first two start from what was known before.
-/
namespace Stencil

/-- The result is the error for a definition that was reached again. -/
def IsCircular {α : Type} (r : Except Failure α) : Prop :=
  ∃ path, r = .error (.refused (.circular path))

namespace Library

variable {l : Library} {id p : DefId} {d : Definition}

/-- `id` inherits directly from `p`. -/
def Inherits (l : Library) (id p : DefId) : Prop :=
  ∃ d, l.definitions.get? id = some d ∧ ∃ e ∈ d.edges, l.parentOf d e = .ok p

/-- No definition inherits from itself, directly or not. -/
def Acyclic (l : Library) : Prop := ∀ id, ¬ Relation.TransGen l.Inherits id id

/-- How the content of a parent of `id` is found. -/
abbrev ParentContent (l : Library) (id : DefId) :=
  ∀ p, l.Inherits id p → Finset DefId → Except Failure Content

/-- Adds the definition that an edit of `d` names, if it is one of the ancestors. -/
def excludeNamed (l : Library) (d : Definition) (ancestors : List DefId)
    (excluded : Finset DefId) (target : Name) : Except Fault (Finset DefId) := do
  match ← Failure.settle (l.resolve d.home target (.ofKind d.kind)) with
  | .ok p => return if p ∈ ancestors then insert p excluded else excluded
  | .error _ => return excluded

/-- Adds the ancestors of `id` that edits take out of its inheritance. -/
def excludeDeleted (l : Library) (id : DefId) (d : Definition) (edits : List Edit)
    (excluded : Finset DefId) : Except Fault (Finset DefId) := do
  let targets := edits.filterMap Edit.deletedAncestor?
  if targets.isEmpty then return excluded
  let ancestors ← l.ancestors id
  targets.foldlM (l.excludeNamed d ancestors) excluded

/-- The content of `id` after edits; `flat` gives its content less the excluded definitions. -/
def edited (l : Library) (flat : Finset DefId → Except Failure Content) (id : DefId)
    (edits : List Edit) (excluded : Finset DefId) : Except Failure Content :=
  if edits.isEmpty then flat excluded
  else do
    let d ← l.find id
    let body ← flat (← l.excludeDeleted id d edits excluded)
    return (Edit.applyAll l.firstIndex d.identity.render edits body).1

/-- Lays the content of parents over `body`, in the order of the edges. -/
def overlayParents (l : Library) (hd : l.definitions.get? id = some d) (excluded : Finset DefId)
    (flat : l.ParentContent id) :
    (edges : List Inheritance) → edges ⊆ d.edges → Content → Except Failure Content
  | [], _, body => .ok body
  | e :: edges, he, body =>
    match hp : l.parentOf d e with
    | .error f => .error f
    | .ok parent => do
      checkEdits d e.edits
      if parent ∈ excluded then
        l.overlayParents hd excluded flat edges (List.subset_of_cons_subset he) body
      else
        let inherits := ⟨d, hd, e, he List.mem_cons_self, hp⟩
        let inherited ← l.edited (flat parent inherits) parent e.edits excluded
        let body ← overlayFor d body inherited
        l.overlayParents hd excluded flat edges (List.subset_of_cons_subset he) body

/-- The content of `id` less the excluded definitions; `flat` gives that of its parents. -/
def merged (l : Library) (id : DefId) (excluded : Finset DefId) (flat : l.ParentContent id) :
    Except Failure Content :=
  match hd : l.definitions.get? id with
  | none => .error (.fault .outsideTable)
  | some d => do
    let gathered ←
      l.overlayParents hd excluded flat d.edges (List.Subset.refl _) (.empty d.kind)
    overlayFor d gathered d.ownContent

theorem Inherits.isSome (h : l.Inherits id p) : ∃ d, l.definitions.get? id = some d :=
  h.imp fun _ h => h.1

/-- What was known of a definition before. Nothing is known of content that leaves out excluded
definitions. -/
def known (m : Cache) (id : DefId) (excluded : Finset DefId) : Option (Except Failure Content) :=
  if excluded = ∅ then (m.get? id).map (Except.mapError .refused) else none

@[simp] theorem known_empty : known .empty id = fun _ => none := by
  funext excluded
  simp [known]

/-- The content found on a walk down from the definitions on the path, which ends where one of
them is reached again. -/
def walked (l : Library) (m : Cache) (path : List DefId) (id : DefId) (excluded : Finset DefId) :
    Except Failure Content :=
  match known m id excluded with
  | some r => r
  | none =>
    if h : id ∈ path then do
      let e ← l.cycle path id
      throw (.refused e)
    else
      l.merged id excluded fun p hp excluded =>
        have := Arena.unvisited_cons_lt hp.isSome.choose_spec h
        l.walked m (id :: path) p excluded
termination_by l.definitions.unvisited path
decreasing_by assumption

/-- The content found at most `n` definitions deep. -/
def unfolded (l : Library) (m : Cache) : Nat → DefId → Finset DefId → Except Failure Content
  | 0, _, _ => .error (.refused (.circular []))
  | n + 1, id, excluded =>
    match known m id excluded with
    | some r => r
    | none => l.merged id excluded fun p _ excluded => l.unfolded m n p excluded

/-- Going down from a definition leaves fewer definitions to go down from, because the path back
up never holds the one that is reached. -/
theorem Acyclic.acc (h : l.Acyclic) (path : List DefId) (id : DefId)
    (hpath : ∀ q ∈ path, Relation.TransGen l.Inherits q id) :
    Acc (fun p id => l.Inherits id p) id := by
  refine ⟨_, fun p hp => ?_⟩
  have hid : id ∉ path := fun hm => h id (hpath id hm)
  have := Arena.unvisited_cons_lt hp.isSome.choose_spec hid
  apply h.acc (id :: path) p
  intro q hq
  rcases List.mem_cons.1 hq with rfl | hq
  · exact .single hp
  · exact (hpath q hq).tail hp
termination_by l.definitions.unvisited path

theorem Acyclic.wellFounded (h : l.Acyclic) : WellFounded fun p id => l.Inherits id p :=
  ⟨fun id => h.acc [] id (by simp)⟩

/-- The content of a definition where none inherits from itself. -/
def flattened (l : Library) (h : l.Acyclic) (id : DefId) (excluded : Finset DefId) :
    Except Failure Content :=
  l.merged id excluded fun p _ excluded => l.flattened h p excluded
termination_by h.wellFounded.wrap id
decreasing_by assumption

/-- Every definition inherits only from those stored before it. -/
def inheritsOlder (l : Library) : Bool :=
  (List.range l.definitions.size).all fun i =>
    match l.definitions.get? ⟨i⟩ with
    | none => true
    | some d => d.edges.all fun e =>
      match l.parentOf d e with
      | .ok p => decide (p.index < i)
      | .error _ => true

theorem Inherits.lt (h : l.inheritsOlder = true) (hp : l.Inherits id p) : p.index < id.index := by
  obtain ⟨d, hd, e, he, hp⟩ := hp
  have hid := List.all_eq_true.1 h id.index (by simpa using Arena.lt_size_of_get? hd)
  rw [hd] at hid
  have hedge := List.all_eq_true.1 hid e he
  rw [hp] at hedge
  simpa using hedge

theorem acyclic_of_inheritsOlder (h : l.inheritsOlder = true) : l.Acyclic := by
  have hlt : ∀ {a b : DefId}, Relation.TransGen l.Inherits a b → b.index < a.index := by
    intro a b hab
    induction hab with
    | single hab => exact hab.lt h
    | tail _ hbc ih => exact Nat.lt_trans (hbc.lt h) ih
  exact fun id hid => Nat.lt_irrefl _ (hlt hid)

/-- What an edit of `d` excludes is the ancestor that it names. -/
theorem mem_of_excludeNamed {ancestors : List DefId} {excluded fewer : Finset DefId} {target : Name}
    (h : l.excludeNamed d ancestors excluded target = .ok fewer) (x : DefId) :
    x ∈ fewer ↔ x ∈ excluded ∨
      x ∈ ancestors ∧ l.resolve d.home target (.ofKind d.kind) = .ok x := by
  unfold excludeNamed at h
  rcases hr : l.resolve d.home target (.ofKind d.kind) with (e | f) | p <;> rw [hr] at h
  · obtain rfl := Except.ok.inj h
    simp
  · cases h
  · obtain rfl := Except.ok.inj h
    by_cases hp : p ∈ ancestors
    · simp only [hp, if_true, Finset.mem_insert, Except.ok.injEq]
      constructor
      · rintro (rfl | hx)
        · exact .inr ⟨hp, rfl⟩
        · exact .inl hx
      · rintro (hx | ⟨-, rfl⟩)
        · exact .inr hx
        · exact .inl rfl
    · simp only [hp, if_false, Except.ok.injEq]
      refine ⟨.inl, ?_⟩
      rintro (hx | ⟨hx, rfl⟩)
      · exact hx
      · exact absurd hx hp

theorem mem_of_foldlM_excludeNamed {ancestors : List DefId} {targets : List Name}
    {excluded fewer : Finset DefId}
    (h : targets.foldlM (l.excludeNamed d ancestors) excluded = .ok fewer) (x : DefId) :
    x ∈ fewer ↔ x ∈ excluded ∨
      x ∈ ancestors ∧ ∃ target ∈ targets, l.resolve d.home target (.ofKind d.kind) = .ok x := by
  induction targets generalizing excluded with
  | nil =>
    obtain rfl := Except.ok.inj h
    simp
  | cons target targets ih =>
    rw [List.foldlM_cons] at h
    cases hnamed : l.excludeNamed d ancestors excluded target with
    | error f =>
      rw [hnamed] at h
      cases h
    | ok more =>
      rw [hnamed] at h
      rw [ih h, mem_of_excludeNamed hnamed, List.exists_mem_cons_iff]
      tauto

/-- What edits exclude are the ancestors that they name. -/
theorem mem_of_excludeDeleted {edits : List Edit} {excluded fewer : Finset DefId}
    (h : l.excludeDeleted id d edits excluded = .ok fewer) (x : DefId) :
    x ∈ fewer ↔ x ∈ excluded ∨ ∃ target ∈ edits.filterMap Edit.deletedAncestor?,
      (∃ ancestors, l.ancestors id = .ok ancestors ∧ x ∈ ancestors) ∧
        l.resolve d.home target (.ofKind d.kind) = .ok x := by
  unfold excludeDeleted at h
  dsimp only at h
  split at h
  next hnone =>
    obtain rfl := Except.ok.inj h
    simp [List.isEmpty_iff.1 hnone]
  next =>
    cases hancestors : l.ancestors id with
    | error f =>
      rw [hancestors] at h
      cases h
    | ok ancestors =>
      rw [hancestors] at h
      rw [mem_of_foldlM_excludeNamed h]
      simp
      tauto

theorem subset_of_excludeDeleted {edits : List Edit} {excluded fewer : Finset DefId}
    (h : l.excludeDeleted id d edits excluded = .ok fewer) : excluded ⊆ fewer :=
  fun x hx => (mem_of_excludeDeleted h x).2 (.inl hx)

theorem overlayParents_of_error {excluded : Finset DefId} {flat : l.ParentContent id}
    {e : Inheritance} {edges : List Inheritance} {body : Content} {f : Failure}
    (hd : l.definitions.get? id = some d) (he : e :: edges ⊆ d.edges)
    (hp : l.parentOf d e = .error f) :
    l.overlayParents hd excluded flat (e :: edges) he body = .error f := by
  rw [overlayParents]
  split <;> simp_all

theorem overlayParents_of_ok {excluded : Finset DefId} {flat : l.ParentContent id}
    {e : Inheritance} {edges : List Inheritance} {body : Content} {p : DefId}
    (hd : l.definitions.get? id = some d) (he : e :: edges ⊆ d.edges)
    (hp : l.parentOf d e = .ok p) :
    l.overlayParents hd excluded flat (e :: edges) he body = (do
      checkEdits d e.edits
      if p ∈ excluded then
        l.overlayParents hd excluded flat edges (List.subset_of_cons_subset he) body
      else
        let inherited ← l.edited (flat p ⟨d, hd, e, he List.mem_cons_self, hp⟩) p e.edits excluded
        let body ← overlayFor d body inherited
        l.overlayParents hd excluded flat edges (List.subset_of_cons_subset he) body) := by
  rw [overlayParents]
  split
  · simp_all
  · rename_i p' hp'
    obtain rfl : p' = p := by simp_all
    rfl

end Library

/-- `r` is `u`, unless `u` is the error for a definition that was reached again. -/
def Settles {α : Type} (u r : Except Failure α) : Prop := ¬ IsCircular u → r = u

namespace Settles

variable {α β : Type} {u r : Except Failure α} {g f : α → Except Failure β}

theorem refl (r : Except Failure α) : Settles r r := fun _ => rfl

theorem bind (h : Settles u r) (hf : ∀ a, Settles (g a) (f a)) : Settles (u >>= g) (r >>= f) := by
  intro hc
  cases u with
  | ok a =>
    obtain rfl := h (by simp [IsCircular])
    exact hf a hc
  | error e =>
    obtain rfl := h (by simpa [IsCircular, Bind.bind, Except.bind] using hc)
    rfl

end Settles

namespace Library

variable {l : Library} {id p : DefId} {d : Definition} {excluded : Finset DefId}

theorem edited_settles {g f : Finset DefId → Except Failure Content}
    (h : ∀ excluded, Settles (g excluded) (f excluded)) (edits : List Edit) :
    Settles (l.edited g id edits excluded) (l.edited f id edits excluded) := by
  unfold edited
  split
  · exact h _
  · apply Settles.bind (.refl _)
    intro d
    apply Settles.bind (.refl _)
    intro dropped
    exact Settles.bind (h _) fun body => .refl _

theorem overlayParents_settles {g f : l.ParentContent id}
    (h : ∀ p hp excluded, Settles (g p hp excluded) (f p hp excluded))
    (hd : l.definitions.get? id = some d) (edges : List Inheritance) (he : edges ⊆ d.edges)
    (body : Content) :
    Settles (l.overlayParents hd excluded g edges he body)
      (l.overlayParents hd excluded f edges he body) := by
  induction edges generalizing body with
  | nil => exact .refl _
  | cons e edges ih =>
    cases hp : l.parentOf d e with
    | error fault =>
      rw [overlayParents_of_error hd he hp, overlayParents_of_error hd he hp]
      exact .refl _
    | ok p =>
      rw [overlayParents_of_ok hd he hp, overlayParents_of_ok hd he hp]
      apply Settles.bind (.refl _)
      intro _
      split
      · exact ih _ body
      · apply Settles.bind (edited_settles (h p _) e.edits)
        intro inherited
        exact Settles.bind (.refl _) fun body => ih _ body

/-- Content that is settled for the parents is settled for what inherits from them. -/
theorem merged_settles {g f : l.ParentContent id}
    (h : ∀ p hp excluded, Settles (g p hp excluded) (f p hp excluded)) :
    Settles (l.merged id excluded g) (l.merged id excluded f) := by
  unfold merged
  split
  · exact .refl _
  · exact Settles.bind (overlayParents_settles h _ _ _ _) fun _ => .refl _

/-- Every definition of the list is in the table. -/
def Stored (l : Library) (ids : List DefId) : Prop :=
  ∀ q ∈ ids, ∃ d, l.definitions.get? q = some d

theorem Stored.cons {path : List DefId} (h : l.Stored path) (hp : l.Inherits id p) :
    l.Stored (id :: path) := by
  intro q hq
  rcases List.mem_cons.1 hq with rfl | hq
  · exact hp.isSome
  · exact h q hq

theorem mapM_find {ids : List DefId} (h : l.Stored ids) : ∃ ds, ids.mapM l.find = .ok ds := by
  induction ids with
  | nil => exact ⟨[], rfl⟩
  | cons q ids ih =>
    obtain ⟨d, hd⟩ := h q List.mem_cons_self
    obtain ⟨ds, hds⟩ := ih fun q hq => h q (List.mem_cons_of_mem _ hq)
    refine ⟨d :: ds, ?_⟩
    simp [List.mapM_cons, find, Arena.find, hd, hds, bind, Except.bind, pure, Except.pure]

/-- A definition that is on the path has a name, so the circle it closes can be told. -/
theorem cycle_of_mem {path : List DefId} (h : l.Stored path) (hid : id ∈ path) :
    ∃ texts, l.cycle path id = .ok (.circular texts) := by
  have hids : l.Stored (id :: (path.takeWhile fun p => decide (p ≠ id)).reverse ++ [id]) := by
    intro q hq
    simp only [List.cons_append, List.mem_cons, List.mem_append, List.mem_reverse,
      List.not_mem_nil, or_false] at hq
    rcases hq with rfl | hq | rfl
    · exact h q hid
    · exact h q ((List.takeWhile_prefix _).subset hq)
    · exact h q hid
  obtain ⟨ds, hds⟩ := mapM_find hids
  exact ⟨_, by simp only [cycle, hds]; rfl⟩

variable {m : Cache}

theorem walked_of_known {path : List DefId} {r : Except Failure Content}
    (hk : known m id excluded = some r) : l.walked m path id excluded = r := by
  rw [walked, hk]

theorem walked_of_mem {path : List DefId} (hk : known m id excluded = none) (hid : id ∈ path) :
    l.walked m path id excluded = (do
      let e ← l.cycle path id
      throw (.refused e)) := by
  rw [walked, hk]
  exact dif_pos hid

theorem walked_of_not_mem {path : List DefId} (hk : known m id excluded = none)
    (hid : id ∉ path) :
    l.walked m path id excluded = l.merged id excluded fun p _ => l.walked m (id :: path) p := by
  rw [walked, hk]
  exact dif_neg hid

theorem isCircular_walked_of_mem {path : List DefId} (hk : known m id excluded = none)
    (h : l.Stored path) (hid : id ∈ path) : IsCircular (l.walked m path id excluded) := by
  obtain ⟨texts, htexts⟩ := cycle_of_mem h hid
  exact ⟨texts, by rw [walked_of_mem hk hid, htexts]; rfl⟩

theorem unfolded_of_known {n : Nat} {r : Except Failure Content}
    (hk : known m id excluded = some r) : l.unfolded m (n + 1) id excluded = r := by
  rw [unfolded, hk]

theorem unfolded_succ {n : Nat} (hk : known m id excluded = none) :
    l.unfolded m (n + 1) id excluded =
      l.merged id excluded fun p _ => l.unfolded m n p := by
  rw [unfolded, hk]

/-- What a walk finds without closing a circle it also finds with less behind it. -/
theorem walked_settles_of_subset {path shorter : List DefId} {id : DefId}
    {excluded : Finset DefId} (h : l.Stored path) (hsub : shorter ⊆ path) :
    Settles (l.walked m path id excluded) (l.walked m shorter id excluded) := by
  cases hk : known m id excluded with
  | some r =>
    rw [walked_of_known hk, walked_of_known hk]
    exact .refl _
  | none =>
    by_cases hid : id ∈ path
    · exact fun hc => absurd (isCircular_walked_of_mem hk h hid) hc
    · rw [walked_of_not_mem hk hid, walked_of_not_mem hk fun hs => hid (hsub hs)]
      apply merged_settles
      intro p hp excluded
      have := Arena.unvisited_cons_lt hp.isSome.choose_spec hid
      exact walked_settles_of_subset (h.cons hp) (List.cons_subset_cons id hsub)
termination_by l.definitions.unvisited path

/-- What a walk finds without closing a circle is no deeper than the definitions left to visit. -/
theorem walked_settles_unfolded {path : List DefId} {id : DefId} {excluded : Finset DefId}
    {n : Nat} (h : l.Stored path) (hn : l.definitions.unvisited path < n) :
    Settles (l.walked m path id excluded) (l.unfolded m n id excluded) := by
  obtain ⟨n, rfl⟩ : ∃ k, n = k + 1 := ⟨n - 1, by omega⟩
  cases hk : known m id excluded with
  | some r =>
    rw [walked_of_known hk, unfolded_of_known hk]
    exact .refl _
  | none =>
    by_cases hid : id ∈ path
    · exact fun hc => absurd (isCircular_walked_of_mem hk h hid) hc
    · rw [walked_of_not_mem hk hid, unfolded_succ hk]
      apply merged_settles
      intro p hp excluded
      have := Arena.unvisited_cons_lt hp.isSome.choose_spec hid
      exact walked_settles_unfolded (h.cons hp) (by omega)
termination_by l.definitions.unvisited path

/-! ## Where no definition inherits from itself -/

theorem walked_eq_flattened (h : l.Acyclic) {path : List DefId} {id : DefId}
    {excluded : Finset DefId} (hpath : ∀ q ∈ path, Relation.TransGen l.Inherits q id) :
    l.walked .empty path id excluded = l.flattened h id excluded := by
  have hid : id ∉ path := fun hm => h id (hpath id hm)
  rw [walked_of_not_mem (by simp) hid, flattened]
  congr 1
  funext p hp excluded
  have := Arena.unvisited_cons_lt hp.isSome.choose_spec hid
  apply walked_eq_flattened h
  intro q hq
  rcases List.mem_cons.1 hq with rfl | hq
  · exact .single hp
  · exact (hpath q hq).tail hp
termination_by l.definitions.unvisited path

end Library

theorem IsCircular.of_error {α β : Type} {f : Failure}
    (h : IsCircular (.error f : Except Failure α)) : IsCircular (.error f : Except Failure β) := by
  obtain ⟨path, h⟩ := h
  cases h
  exact ⟨path, rfl⟩

theorem IsCircular.of_bind {α β : Type} {x : Except Failure α} {f : α → Except Failure β}
    (h : IsCircular (x >>= f)) : IsCircular x ∨ ∃ a, x = .ok a ∧ IsCircular (f a) := by
  cases x with
  | ok a => exact .inr ⟨a, rfl, h⟩
  | error e => exact .inl h.of_error

theorem not_isCircular_ok {α : Type} {a : α} : ¬ IsCircular (.ok a : Except Failure α) := nofun

theorem not_isCircular_fault {α : Type} (x : Except Fault α) :
    ¬ IsCircular (liftM x : Except Failure α) := by
  cases x <;> rintro ⟨path, h⟩ <;> cases h

theorem not_isCircular_problem {α : Type} {x : Except Problem α}
    (h : ∀ path, x ≠ .error (.circular path)) : ¬ IsCircular (liftM x : Except Failure α) := by
  rintro ⟨path, hx⟩
  cases x with
  | ok a => cases hx
  | error e =>
    obtain rfl : e = .circular path := by injection hx with hx; injection hx
    exact h path rfl

theorem Name.combinePart_ne_circular {α : Type} [DecidableEq α] {n : Name} {keyword : α → String}
    {said wanted : Option α} {path : List String} :
    n.combinePart keyword said wanted ≠ .error (.circular path) := by
  intro h
  unfold combinePart at h
  split at h
  · split at h <;> cases h
  · cases h

theorem Name.combine_ne_circular {n : Name} {expected : Category} {path : List String} :
    n.combine expected ≠ .error (.circular path) := by
  intro h
  unfold combine at h
  cases ho : n.combinePart Origin.keyword n.origin expected.origin with
  | error e =>
    rw [ho] at h
    cases h
    exact combinePart_ne_circular ho
  | ok origin =>
    cases hk : n.combinePart Kind.keyword n.kind expected.kind with
    | error e =>
      rw [ho, hk] at h
      cases h
      exact combinePart_ne_circular hk
    | ok kind => rw [ho, hk] at h; cases h

namespace Library

variable {l : Library} {id : DefId} {d : Definition} {excluded : Finset DefId}

theorem checkEdits_ne_circular {edits : List Edit} {path : List String} :
    checkEdits d edits ≠ .error (.circular path) := by
  unfold checkEdits
  split <;> simp

theorem overlayFor_ne_circular {gathered later : Content} {path : List String} :
    overlayFor d gathered later ≠ .error (.circular path) := by
  unfold overlayFor
  split <;> simp

theorem ambiguous_ne_circular {n : Name} {ids : List DefId} {path : List String} :
    l.ambiguous n ids ≠ .ok (.circular path) := by
  intro h
  unfold ambiguous at h
  cases hm : ids.mapM l.title <;> rw [hm] at h <;> cases h

theorem missing_ne_circular {start : NamespaceId} {n : Name} {c : Category}
    {path : List String} : l.missing start n c ≠ .ok (.circular path) := by
  intro h
  unfold missing at h
  split at h
  · cases h
  cases hl : l.lookup start n .any with
  | error f => rw [hl] at h; cases h
  | ok outcome =>
    rw [hl] at h
    simp only [bind, Except.bind] at h
    split at h
    · cases h
    · rename_i id _
      cases hf : l.find id <;> rw [hf] at h <;> cases h

/-- A name that means nothing is no circle. -/
theorem not_isCircular_resolve (start : NamespaceId) (n : Name) (expected : Category) :
    ¬ IsCircular (l.resolve start n expected) := by
  intro h
  unfold resolve at h
  rcases h.of_bind with h | ⟨c, -, h⟩
  · exact not_isCircular_problem (fun _ => Name.combine_ne_circular) h
  rcases h.of_bind with h | ⟨outcome, -, h⟩
  · exact not_isCircular_fault _ h
  split at h
  · exact not_isCircular_ok h
  · rcases h.of_bind with h | ⟨e, he, path, h⟩
    · exact not_isCircular_fault _ h
    · cases h
      cases ha : l.ambiguous n _ <;> rw [ha] at he <;> cases he
      exact ambiguous_ne_circular ha
  · rcases h.of_bind with h | ⟨e, he, path, h⟩
    · exact not_isCircular_fault _ h
    · cases h
      cases hm : l.missing start n c <;> rw [hm] at he <;> cases he
      exact missing_ne_circular hm

theorem not_isCircular_edited {flat : Finset DefId → Except Failure Content}
    (h : ∀ excluded, ¬ IsCircular (flat excluded)) (edits : List Edit) :
    ¬ IsCircular (l.edited flat id edits excluded) := by
  intro hc
  unfold edited at hc
  split at hc
  · exact h _ hc
  · rcases hc.of_bind with hc | ⟨d, -, hc⟩
    · exact not_isCircular_fault _ hc
    rcases hc.of_bind with hc | ⟨dropped, -, hc⟩
    · exact not_isCircular_fault _ hc
    rcases hc.of_bind with hc | ⟨body, -, hc⟩
    · exact h _ hc
    · exact not_isCircular_ok hc

theorem not_isCircular_overlayParents {flat : l.ParentContent id}
    (h : ∀ p hp excluded, ¬ IsCircular (flat p hp excluded))
    (hd : l.definitions.get? id = some d) (edges : List Inheritance) (he : edges ⊆ d.edges)
    (body : Content) : ¬ IsCircular (l.overlayParents hd excluded flat edges he body) := by
  intro hc
  induction edges generalizing body with
  | nil => exact not_isCircular_ok hc
  | cons e edges ih =>
    cases hp : l.parentOf d e with
    | error f =>
      rw [overlayParents_of_error hd he hp] at hc
      have hr := not_isCircular_resolve (l := l) d.home e.target (.ofKind d.kind)
      rw [← parentOf, hp] at hr
      exact hr hc.of_error
    | ok p =>
      rw [overlayParents_of_ok hd he hp] at hc
      rcases hc.of_bind with hc | ⟨_, -, hc⟩
      · exact not_isCircular_problem (fun _ => checkEdits_ne_circular) hc
      split at hc
      · exact ih _ body hc
      rcases hc.of_bind with hc | ⟨inherited, -, hc⟩
      · exact not_isCircular_edited (h p _) e.edits hc
      rcases hc.of_bind with hc | ⟨body, -, hc⟩
      · exact not_isCircular_problem (fun _ => overlayFor_ne_circular) hc
      · exact ih _ body hc

/-- A circle is only ever found below, never where content is laid together. -/
theorem not_isCircular_merged {flat : l.ParentContent id}
    (h : ∀ p hp excluded, ¬ IsCircular (flat p hp excluded)) :
    ¬ IsCircular (l.merged id excluded flat) := by
  intro hc
  unfold merged at hc
  split at hc
  · obtain ⟨path, hc⟩ := hc
    cases hc
  rcases hc.of_bind with hc | ⟨body, -, hc⟩
  · exact not_isCircular_overlayParents h _ _ _ _ hc
  · exact not_isCircular_problem (fun _ => overlayFor_ne_circular) hc

theorem not_isCircular_flattened (h : l.Acyclic) (id : DefId) (excluded : Finset DefId) :
    ¬ IsCircular (l.flattened h id excluded) := by
  induction id using h.wellFounded.induction generalizing excluded with
  | _ id ih =>
    rw [flattened]
    exact not_isCircular_merged fun p hp excluded => ih p hp excluded

end Library
end Stencil
