import Stencil.Proofs.Counterparts
import Stencil.Proofs.Heir
import Stencil.Proofs.Termination

/-! # The content of counterparts

A definition inherits from what its names mean, so its counterpart inherits from the counterparts. The
walks down both inheritances take the same steps, and what they remember agrees. Only a name that is to
be taken out of an inheritance may mean nothing without an error. If errors do not count, it has to be
known of such names that they take out nothing in the second library either.
-/
namespace Stencil.Library

open Resolving

variable {strict : Prop} {S : NamespaceId → NamespaceId → Prop} {l l' : Library}
  {id id' p p' : DefId} {d : Definition} {home : NamespaceId} {scope : ScopeId}

/-! ## Inheritance -/

namespace Mirrors

theorem carries_parentOf (h : Mirrors strict S l l') (hhome : S d.home home) (e : Inheritance) :
    Carries strict (Twins S l l') (l.parentOf d e)
      (l'.parentOf { d with home := home, scope := scope } e) :=
  h.carries_resolve e.target (.ofKind d.kind) hhome

theorem inherits (h : Mirrors strict S l l') (hid : Twins S l l' id id') (hp : l.Inherits id p) :
    ∃ p', l'.Inherits id' p' ∧ Twins S l l' p p' := by
  obtain ⟨d, home, scope, hhome, hd, hd'⟩ := h.exists_stored hid
  obtain ⟨d₁, hd₁, e, he, hp⟩ := hp
  obtain rfl := Option.some.inj (hd.symm.trans hd₁)
  obtain ⟨p', hp', htwins⟩ := (h.carries_parentOf hhome e).ok hp
  exact ⟨p', ⟨_, hd', e, he, hp'⟩, htwins⟩

theorem transGen (h : Mirrors strict S l l') (hid : Twins S l l' id id')
    (hp : Relation.TransGen l.Inherits id p) :
    ∃ p', Relation.TransGen l'.Inherits id' p' ∧ Twins S l l' p p' := by
  induction hp with
  | single hp =>
    obtain ⟨p', hp', htwins⟩ := h.inherits hid hp
    exact ⟨p', .single hp', htwins⟩
  | tail _ hp ih =>
    obtain ⟨q', hq', hq⟩ := ih
    obtain ⟨p', hp', htwins⟩ := h.inherits hq hp
    exact ⟨p', hq'.tail hp', htwins⟩

/-- If errors count, the counterpart inherits from nothing else. -/
theorem inherits_of_strict (h : Mirrors strict S l l') (hs : strict) (hid : Twins S l l' id id')
    (hp : l'.Inherits id' p') : ∃ p, l.Inherits id p ∧ Twins S l l' p p' := by
  obtain ⟨d, home, scope, hhome, hd, hd'⟩ := h.exists_stored hid
  obtain ⟨d₁, hd₁, e, he, hp⟩ := hp
  obtain rfl := Option.some.inj (hd'.symm.trans hd₁)
  obtain ⟨p, hp, htwins⟩ := (h.carries_parentOf hhome e).of_ok hs hp
  exact ⟨p, ⟨d, hd, e, he, hp⟩, htwins⟩

theorem transGen_of_strict (h : Mirrors strict S l l') (hs : strict) (hid : Twins S l l' id id')
    (hp : Relation.TransGen l'.Inherits id' p') :
    ∃ p, Relation.TransGen l.Inherits id p ∧ Twins S l l' p p' := by
  induction hp with
  | single hp =>
    obtain ⟨p, hp, htwins⟩ := h.inherits_of_strict hs hid hp
    exact ⟨p, .single hp, htwins⟩
  | tail _ hp ih =>
    obtain ⟨q, hq, htwins⟩ := ih
    obtain ⟨p, hp, htwins⟩ := h.inherits_of_strict hs htwins hp
    exact ⟨p, hq.tail hp, htwins⟩

end Mirrors

/-! ## Definitions that are taken out -/

/-- The name is written for the deletion of a definition that `p` inherits from, and means `x`. -/
def TakesOut (l : Library) (p : DefId) (target : Name) (x : DefId) : Prop :=
  ∃ d, l.definitions.get? p = some d ∧ l.resolve d.home target (.ofKind d.kind) = .ok x ∧ x ≠ p ∧
    Relation.TransGen l.Inherits p x

/-- The name is to be taken out of what is inherited from `p`, by `root` or by a definition that `root`
inherits from. -/
def Deletes (l : Library) (root p : DefId) (target : Name) : Prop :=
  ∃ q d e, Relation.ReflTransGen l.Inherits root q ∧ l.definitions.get? q = some d ∧
    e ∈ d.edges ∧ l.parentOf d e = .ok p ∧ target ∈ e.edits.filterMap Edit.deletedAncestor?

/-- A name that takes out nothing in the first library takes out nothing in the second. -/
def DeletesAlike (S : NamespaceId → NamespaceId → Prop) (l l' : Library) (root : DefId) : Prop :=
  ∀ p p' target, l.Deletes root p target → Twins S l l' p p' →
    (∃ x', l'.TakesOut p' target x') → ∃ x, l.TakesOut p target x

theorem Mirrors.takesOut (h : Mirrors strict S l l') (hp : Twins S l l' p p') {target : Name}
    {x : DefId} (hx : l.TakesOut p target x) :
    ∃ x', l'.TakesOut p' target x' ∧ Twins S l l' x x' := by
  obtain ⟨d, home, scope, hhome, hd, hd'⟩ := h.exists_stored hp
  obtain ⟨d₁, hd₁, hresolve, hne, hreach⟩ := hx
  obtain rfl := Option.some.inj (hd.symm.trans hd₁)
  obtain ⟨x', hresolve', htwins⟩ := (h.carries_resolve target _ hhome).ok hresolve
  obtain ⟨y, hreach', htwins'⟩ := h.transGen hp hreach
  obtain rfl := h.twins_unique.right htwins' htwins
  refine ⟨y, ⟨_, hd', hresolve', ?_, hreach'⟩, htwins⟩
  rintro rfl
  exact hne (h.twins_unique.left htwins hp)

/-- If errors count, names take out the same anyway. -/
theorem Mirrors.deletesAlike (h : Mirrors strict S l l') (hs : strict) (root : DefId) :
    DeletesAlike S l l' root := by
  rintro p p' target - hp ⟨x', d', hd', hresolve', hne, hreach'⟩
  obtain ⟨d, home, scope, hhome, hd, hd₁⟩ := h.exists_stored hp
  obtain rfl := Option.some.inj (hd₁.symm.trans hd')
  obtain ⟨x, hresolve, htwins⟩ := (h.carries_resolve target _ hhome).of_ok hs hresolve'
  obtain ⟨y, hreach, htwins'⟩ := h.transGen_of_strict hs hp hreach'
  obtain rfl := h.twins_unique.left htwins' htwins
  refine ⟨y, d, hd, hresolve, ?_, hreach⟩
  rintro rfl
  exact hne (h.twins_unique.right htwins hp)

section Exclude

variable {ancestors : List DefId} {target : Name} {x : DefId}

theorem exclude_of_takesOut (hd : l.definitions.get? p = some d)
    (hancestors : ∀ x, x ∈ ancestors ↔ x ≠ p ∧ Relation.TransGen l.Inherits p x)
    (hx : l.TakesOut p target x) (excluded : List DefId) :
    l.exclude d ancestors excluded target = pure (x :: excluded) := by
  obtain ⟨d₁, hd₁, hresolve, hne, hreach⟩ := hx
  obtain rfl := Option.some.inj (hd.symm.trans hd₁)
  have hmem : ancestors.contains x = true := by
    simp [hancestors, hne, hreach]
  simp only [exclude, hresolve, Failure.settle]
  change (if ancestors.contains x then pure (x :: excluded) else _ : Resolving (List DefId)) = _
  rw [if_pos hmem]

/-- A name that takes out nothing is answered by a warning. -/
theorem exclude_of_not_takesOut (hl : l.Closed) (hd : l.definitions.get? p = some d)
    (hancestors : ∀ x, x ∈ ancestors ↔ x ≠ p ∧ Relation.TransGen l.Inherits p x)
    (hnone : ¬ ∃ x, l.TakesOut p target x) (excluded : List DefId) :
    l.exclude d ancestors excluded target = (do
      report (.dangling ("delete " ++ target.render) d.identity.render) none
      return excluded) := by
  rcases hl.answers_resolve target (.ofKind d.kind) (hl.definitions p d hd) with
    ⟨x, hresolve, -⟩ | ⟨e, hresolve⟩
  · have hmem : ¬ ancestors.contains x = true := by
      rw [List.contains_iff_mem, hancestors]
      rintro ⟨hne, hreach⟩
      exact hnone ⟨x, d, hd, hresolve, hne, hreach⟩
    simp only [exclude, hresolve, Failure.settle]
    change (if ancestors.contains x then pure (x :: excluded) else _ : Resolving (List DefId)) = _
    rw [if_neg hmem]
  · simp only [exclude, hresolve, Failure.settle]
    rfl

end Exclude

/-! ## The walk -/

/-- The two sessions remember the same of counterparts. -/
def RememberAlike (S : NamespaceId → NamespaceId → Prop) (l l' : Library) (s t : Session) : Prop :=
  ∀ id id', Twins S l l' id id' → t.cache.get? id' = s.cache.get? id

theorem RememberAlike.reporting {s t : Session} (h : RememberAlike S l l' s t) (e e' : Problem) :
    RememberAlike S l l' (s.reporting e none) (t.reporting e' none) := h

namespace Mirrors

variable {excluded excluded' path path' : List DefId}

theorem rememberAlike_remembering (h : Mirrors strict S l l') (hid : Twins S l l' id id')
    {s t : Session} (hst : RememberAlike S l l' s t) (known : Except Problem Content) :
    RememberAlike S l l' (s.remembering id known) (t.remembering id' known) := by
  intro x x' hx
  have hiff : id' = x' ↔ id = x := by
    constructor
    · rintro rfl
      exact h.twins_unique.left hid hx
    · rintro rfl
      exact h.twins_unique.right hid hx
  simp [Session.get?_remembering, hiff, hst x x' hx]

theorem exclude_simulates (h : Mirrors strict S l l') (hp : Twins S l l' p p')
    (hd : l.definitions.get? p = some d)
    (hd' : l'.definitions.get? p' = some { d with home := home, scope := scope })
    {ancestors ancestors' : List DefId}
    (hancestors : ∀ x, x ∈ ancestors ↔ x ≠ p ∧ Relation.TransGen l.Inherits p x)
    (hancestors' : ∀ x, x ∈ ancestors' ↔ x ≠ p' ∧ Relation.TransGen l'.Inherits p' x)
    {target : Name} (hdeletes : (∃ x', l'.TakesOut p' target x') → ∃ x, l.TakesOut p target x)
    (hexcluded : List.Forall₂ (Twins S l l') excluded excluded') :
    Simulates strict (RememberAlike S l l') (List.Forall₂ (Twins S l l'))
      (l.exclude d ancestors excluded target)
      (l'.exclude { d with home := home, scope := scope } ancestors' excluded' target) := by
  by_cases hx : ∃ x, l.TakesOut p target x
  · obtain ⟨x, hx⟩ := hx
    obtain ⟨x', hx', htwins⟩ := h.takesOut hp hx
    rw [exclude_of_takesOut hd hancestors hx, exclude_of_takesOut hd' hancestors' hx']
    exact .pure (.cons htwins hexcluded)
  · rw [exclude_of_not_takesOut h.closed hd hancestors hx,
      exclude_of_not_takesOut h.closed' hd' hancestors' fun hx' => hx (hdeletes hx')]
    apply (Simulates.report (fun s t hst => hst.reporting) _ _).bind
    exact fun _ _ _ => .pure hexcluded

theorem excludeAll_simulates (h : Mirrors strict S l l') (hp : Twins S l l' p p')
    (hd : l.definitions.get? p = some d)
    (hd' : l'.definitions.get? p' = some { d with home := home, scope := scope })
    {edits : List Edit} (hdeletes : ∀ target ∈ edits.filterMap Edit.deletedAncestor?,
      (∃ x', l'.TakesOut p' target x') → ∃ x, l.TakesOut p target x)
    (hexcluded : List.Forall₂ (Twins S l l') excluded excluded') :
    Simulates strict (RememberAlike S l l') (List.Forall₂ (Twins S l l'))
      (l.excludeAll p d edits excluded)
      (l'.excludeAll p' { d with home := home, scope := scope } edits excluded') := by
  unfold excludeAll
  dsimp only
  split
  · exact .pure hexcluded
  · obtain ⟨ancestors, hancestors, -, hmem⟩ :=
      h.closed.finds_ancestors (Arena.holds_of_get? hd)
    obtain ⟨ancestors', hancestors', -, hmem'⟩ :=
      h.closed'.finds_ancestors (Arena.holds_of_get? hd')
    rw [hancestors, hancestors']
    apply Simulates.foldlM (fun excluded excluded' hexcluded target htarget => ?_) hexcluded
    exact h.exclude_simulates hp hd hd' hmem hmem' (hdeletes target htarget) hexcluded

theorem editFlat_simulates (h : Mirrors strict S l l') (hp : Twins S l l' p p')
    {edits : List Edit} (hdeletes : ∀ target ∈ edits.filterMap Edit.deletedAncestor?,
      (∃ x', l'.TakesOut p' target x') → ∃ x, l.TakesOut p target x)
    {flat flat' : List DefId → Resolving Content}
    (hflat : ∀ excluded excluded', List.Forall₂ (Twins S l l') excluded excluded' →
      Simulates strict (RememberAlike S l l') (fun b b' => b = b') (flat excluded) (flat' excluded'))
    (hexcluded : List.Forall₂ (Twins S l l') excluded excluded') :
    Simulates strict (RememberAlike S l l') (fun b b' => b = b')
      (l.editFlat flat p edits excluded) (l'.editFlat flat' p' edits excluded') := by
  obtain ⟨d, home, scope, hhome, hd, hd'⟩ := h.exists_stored hp
  unfold editFlat
  split
  · exact hflat _ _ hexcluded
  · rw [find, find, Arena.find_of_get? hd, Arena.find_of_get? hd']
    apply (h.excludeAll_simulates hp hd hd' hdeletes hexcluded).bind
    intro fewer fewer' hfewer
    apply (hflat fewer fewer' hfewer).bind
    rintro base _ rfl
    rw [h.firstIndex]
    exact (Simulates.reportAll (fun s t hst => hst.reporting) _).bind fun _ _ _ => .pure rfl

theorem gather_simulates (h : Mirrors strict S l l') {root : DefId}
    (hdeletes : DeletesAlike S l l' root) (hroot : Relation.ReflTransGen l.Inherits root id)
    (hd : l.definitions.get? id = some d) (hhome : S d.home home)
    {flat flat' : DefId → List DefId → Resolving Content}
    (hflat : ∀ p p' excluded excluded', l.Inherits id p → Twins S l l' p p' →
      List.Forall₂ (Twins S l l') excluded excluded' →
      Simulates strict (RememberAlike S l l') (fun b b' => b = b') (flat p excluded)
        (flat' p' excluded'))
    (hexcluded : List.Forall₂ (Twins S l l') excluded excluded') :
    Simulates strict (RememberAlike S l l') (fun b b' => b = b') (l.gather d excluded flat)
      (l'.gather { d with home := home, scope := scope } excluded' flat') := by
  apply Simulates.bind
  · refine Simulates.foldlM (R := fun b b' => b = b') ?_ rfl
    rintro gathered _ rfl e he
    apply Simulates.lift_bind (h.carries_parentOf hhome e)
    intro p p' hp htwins
    apply (Simulates.liftProblem (checkEdits d e.edits)).bind
    intro _ _ _
    have hcontains : excluded'.contains p' = excluded.contains p := by
      rw [Bool.eq_iff_iff, List.contains_iff_mem, List.contains_iff_mem]
      exact (List.rel_mem h.twins_unique htwins hexcluded).symm
    rw [hcontains]
    split
    · exact .pure rfl
    · have hinherits : l.Inherits id p := ⟨d, hd, e, he, hp⟩
      have hedits : ∀ target ∈ e.edits.filterMap Edit.deletedAncestor?,
          (∃ x', l'.TakesOut p' target x') → ∃ x, l.TakesOut p target x :=
        fun target htarget => hdeletes p p' target ⟨id, d, e, hroot, hd, he, hp, htarget⟩ htwins
      apply (h.editFlat_simulates htwins hedits
        (fun ex ex' hex => hflat p p' ex ex' hinherits htwins hex) hexcluded).bind
      rintro inherited _ rfl
      exact .liftProblem (overlayFor d gathered inherited)
  · rintro gathered _ rfl
    exact .liftProblem (overlayFor d gathered d.ownContent)

theorem forall₂_takeWhile (h : Mirrors strict S l l') (hid : Twins S l l' id id')
    (hpath : List.Forall₂ (Twins S l l') path path') :
    List.Forall₂ (Twins S l l') (path.takeWhile fun p => decide (p ≠ id))
      (path'.takeWhile fun p => decide (p ≠ id')) := by
  induction hpath with
  | nil => exact .nil
  | @cons q q' _ _ hq _ ih =>
    have hiff : q' = id' ↔ q = id := by
      constructor
      · rintro rfl
        exact h.twins_unique.left hq hid
      · rintro rfl
        exact h.twins_unique.right hq hid
    by_cases heq : q = id
    · simp [heq, hiff]
    · simpa [List.takeWhile_cons, heq, hiff, hq] using ih

/-- A circle is told of alike. -/
theorem pairs_cycle (h : Mirrors strict S l l') (hid : Twins S l l' id id')
    (hpath : List.Forall₂ (Twins S l l') path path') :
    Pairs (fun e e' => e = e') (l.cycle path id) (l'.cycle path' id') := by
  have hcircle : List.Forall₂ (Twins S l l')
      (id :: (path.takeWhile fun p => decide (p ≠ id)).reverse ++ [id])
      (id' :: (path'.takeWhile fun p => decide (p ≠ id')).reverse ++ [id']) := by
    have hback := List.rel_reverse (h.forall₂_takeWhile hid hpath)
    exact List.rel_append (.cons hid hback) (.cons hid .nil)
  apply (Pairs.mapM hcircle fun p p' hp => h.pairs_find hp).bind
  intro ds ds' hds
  refine .pure (congrArg Problem.circular ?_)
  induction hds with
  | nil => rfl
  | cons hd _ ih => simp [hd.1, ih]

theorem remembered_simulates (hid : Twins S l l' id id')
    (hexcluded : List.Forall₂ (Twins S l l') excluded excluded') :
    Simulates strict (RememberAlike S l l') (fun r r' => r = r') (remembered excluded id)
      (remembered excluded' id') := by
  cases hexcluded with
  | nil => exact fun s t hst => ⟨_, rfl, (hst id id' hid).symm, hst⟩
  | cons _ _ => exact .pure rfl

theorem descend_simulates (h : Mirrors strict S l l') {root : DefId}
    (hdeletes : DeletesAlike S l l' root) {path path' excluded excluded' : List DefId}
    {id id' : DefId} (hroot : Relation.ReflTransGen l.Inherits root id)
    (hid : Twins S l l' id id') (hpath : List.Forall₂ (Twins S l l') path path')
    (hexcluded : List.Forall₂ (Twins S l l') excluded excluded') :
    Simulates strict (RememberAlike S l l') (fun b b' => b = b') (l.descend path id excluded)
      (l'.descend path' id' excluded') := by
  obtain ⟨d, home, scope, hhome, hd, hd'⟩ := h.exists_stored hid
  rw [descend_eq, descend_eq, descendStep, descendStep]
  apply (remembered_simulates hid hexcluded).bind
  rintro known _ rfl
  cases known with
  | some known => exact .liftProblem known
  | none =>
    have hmem : id' ∈ path' ↔ id ∈ path := (List.rel_mem h.twins_unique hid hpath).symm
    by_cases hin : id ∈ path
    · simp only [hin, hmem.2 hin, if_true]
      apply (Simulates.liftFault (h.pairs_cycle hid hpath)).bind
      rintro e _ rfl
      exact .throw _
    · simp only [hin, mt hmem.1 hin, if_false, hd, hd']
      have := Arena.unvisited_cons_lt hd hin
      apply (h.gather_simulates hdeletes hroot hd hhome (fun p p' ex ex' hp htwins hex =>
        h.descend_simulates hdeletes (hroot.tail hp) htwins (.cons hid hpath) hex) hexcluded).bind
      rintro body _ rfl
      cases hexcluded with
      | nil =>
        have hremember : Simulates strict (RememberAlike S l l') (fun _ _ => True)
            (remember id (.ok body)) (remember id' (.ok body)) :=
          fun s t hst => ⟨(), rfl, trivial, h.rememberAlike_remembering hid hst _⟩
        exact hremember.bind fun _ _ _ => .pure rfl
      | cons _ _ => exact .pure rfl
termination_by l.definitions.unvisited path

end Mirrors

/-- The content of a definition is the content of its counterpart. -/
theorem Mirrors.content_carries (h : Mirrors strict S l l') (hdeletes : DeletesAlike S l l' id)
    (hid : Twins S l l' id id') {s t : Session} (hst : RememberAlike S l l' s t) :
    Carries strict (fun b b' => b = b') ((l.content id).outcome s)
      ((l'.content id').outcome t) := by
  rw [outcome_content, outcome_content]
  exact (h.descend_simulates hdeletes .refl hid .nil .nil).carries hst

end Stencil.Library
