import Stencil.Proofs.Composition
import Stencil.Proofs.Remembering

/-! # Content has the kind of its definition

Content is laid over the empty content of the kind of its definition, and neither overlays nor edits
change the kind. The walk down the inheritance is gone through once, for any invariant `I` of the
session that outlasts what the walk remembers of definitions in `G`.
-/
namespace Stencil

open Resolving

theorem Edit.kind_applyAll (base : Nat) (target : String) (edits : List Edit) (b : Content) :
    (applyAll base target edits b).1.kind = b.kind := by
  induction edits generalizing b with
  | nil => rfl
  | cons e edits ih =>
    rw [applyAll]
    split
    · rename_i b' hb
      rw [ih, Edit.kind_apply hb]
    · exact ih b

theorem Content.kind_dropUnfilled (target : String) (b : Content) :
    (b.dropUnfilled target).1.kind = b.kind := by
  cases b <;> rfl

namespace Library

variable {l : Library} {I : Session → Prop} {G : DefId → Prop}

/-- The content has the kind of the definition, which is in the table. -/
def HasKind (l : Library) (id : DefId) (b : Content) : Prop :=
  ∃ d, l.definitions.get? id = some d ∧ b.kind = d.kind

theorem overlayFor_kind {d : Definition} {gathered later b : Content}
    (h : overlayFor d gathered later = .ok b) : b.kind = gathered.kind := by
  unfold overlayFor at h
  split at h
  · rename_i b' hb
    rw [← Except.ok.inj h, Content.kind_overlay hb]
  · cases h

theorem editFlat_gives (hreport : ∀ s e span, I s → I (s.reporting e span))
    {flat : List DefId → Resolving Content} {P : Kind → Prop} {id : DefId}
    (hflat : ∀ excluded, Gives I (flat excluded) fun b => P b.kind) (edits : List Edit)
    (excluded : List DefId) :
    Gives I (l.editFlat flat id edits excluded) fun b => P b.kind := by
  unfold editFlat
  split
  · exact hflat excluded
  · apply (Keeps.liftFault _).bind
    intro d _
    apply (Keeps.of_yields (excludeAll_lists hreport edits excluded)).bind
    intro fewer _
    apply (hflat fewer).bind
    intro base hbase
    apply (Keeps.reportAll hreport).bind
    intro _ _
    apply Gives.pure
    rw [Edit.kind_applyAll]
    exact hbase

theorem inherit_gives (hreport : ∀ s e span, I s → I (s.reporting e span)) {d : Definition}
    {flat : DefId → List DefId → Resolving Content} {e : Inheritance}
    (hflat : ∀ p excluded, l.parentOf d e = .ok p → Keeps I (flat p excluded))
    (excluded : List DefId) {gathered : Content} (hkind : gathered.kind = d.kind) :
    Gives I (l.inherit d excluded flat gathered e) fun b => b.kind = d.kind := by
  apply Gives.bind (P := fun p => l.parentOf d e = .ok p)
  · exact .lift fun _ h => h
  · intro p hp
    have hparent : Keeps I (l.editFlat (flat p) p e.edits excluded) :=
      editFlat_gives (P := fun _ => True) hreport (fun excluded => hflat p excluded hp) e.edits
        excluded
    apply (Keeps.liftProblem _).bind
    intro _ _
    split
    · exact .pure hkind
    · apply hparent.bind
      intro inherited _
      apply Gives.liftProblem
      intro b hb
      rw [overlayFor_kind hb, hkind]

theorem gather_gives (hreport : ∀ s e span, I s → I (s.reporting e span)) {d : Definition}
    {flat : DefId → List DefId → Resolving Content}
    (hflat : ∀ e ∈ d.edges, ∀ p excluded, l.parentOf d e = .ok p → Keeps I (flat p excluded))
    (excluded : List DefId) :
    Gives I (l.gather d excluded flat) fun b => b.kind = d.kind := by
  apply Gives.bind (P := fun gathered => gathered.kind = d.kind)
  · apply Gives.foldlM
    · intro gathered e he hkind
      exact inherit_gives hreport (hflat e he) excluded hkind
    · exact Content.kind_empty d.kind
  · intro gathered hkind
    apply Gives.liftProblem
    intro b hb
    rw [overlayFor_kind hb, hkind]

/-- What outlasts the walk down from the definitions in `G`, and what the walk gives. -/
structure Walks (l : Library) (I : Session → Prop) (G : DefId → Prop)
    (K : DefId → Content → Prop) : Prop where
  report : ∀ s e span, I s → I (s.reporting e span)
  inherits : ∀ id p, G id → l.Inherits id p → G p
  made : ∀ id b, l.HasKind id b → K id b
  recalled : ∀ s id b, I s → s.cache.get? id = some (.ok b) → K id b
  remember : ∀ s id b, I s → G id → K id b → I (s.remembering id (.ok b))
  fail : ∀ s id e, I s → G id → I (s.remembering id (.error e))

variable {K : DefId → Content → Prop}

theorem remembered_gives (h : l.Walks I G K) (excluded : List DefId) (id : DefId) :
    Gives I (remembered excluded id) fun r => ∀ b, r = some (.ok b) → K id b := by
  unfold remembered
  split
  · apply Yields.remembered
    intro s hs r hr b hb
    exact h.recalled s id b hs (hb ▸ Except.ok.inj hr)
  · exact .pure nofun

theorem descend_gives (h : l.Walks I G K) (path : List DefId) {id : DefId} (hid : G id)
    (excluded : List DefId) : Gives I (l.descend path id excluded) (K id) := by
  rw [descend]
  apply (remembered_gives h excluded id).bind
  intro known hknown
  cases known with
  | some known =>
    apply Gives.liftProblem
    intro b hb
    exact hknown b (congrArg some hb)
  | none =>
    by_cases hpath : id ∈ path
    · simp only [hpath, dif_pos]
      exact (Keeps.liftFault _).bind fun e _ => .refuse e
    · simp only [hpath, dif_neg, not_false_eq_true]
      split
      · exact .throw _
      · rename_i d hd
        apply (gather_gives h.report ?_ excluded).bind
        · intro body hkind
          have hbody := h.made id body ⟨d, hd, hkind⟩
          split
          · have hkeeps := Keeps.remember fun s hs => h.remember s id body hs hid hbody
            exact hkeeps.bind fun _ _ => .pure hbody
          · exact .pure hbody
        · intro e he p excluded hp
          have := Arena.unvisited_cons_lt hd hpath
          have hG := h.inherits id p hid ⟨d, hd, e, he, hp⟩
          exact .of_gives (descend_gives h (id :: path) hG excluded)
termination_by l.definitions.unvisited path

theorem content_gives (h : l.Walks I G K) {id : DefId} (hid : G id) :
    Gives I (l.content id) (K id) := by
  apply (remembered_gives h [] id).bind
  intro known hknown
  cases known with
  | some known =>
    apply Gives.liftProblem
    intro b hb
    exact hknown b (congrArg some hb)
  | none =>
    apply (descend_gives h [] hid []).attempt.bind
    intro found hfound
    cases found with
    | ok body => exact .pure (hfound body rfl)
    | error e =>
      have hkeeps := Keeps.remember fun s hs => h.fail s id e hs hid
      exact hkeeps.bind fun _ _ => .refuse e

theorem contentEdited_gives (h : l.Walks I G K) {P : Kind → Prop} {id : DefId} (hid : G id)
    (hP : ∀ b, K id b → P b.kind) (edits : List Edit) :
    Gives I (l.contentEdited id edits) fun b => P b.kind := by
  apply (Keeps.liftFault _).bind
  intro d _
  apply (Keeps.liftProblem _).bind
  intro _ _
  apply editFlat_gives h.report
  exact fun excluded => (descend_gives h [] hid excluded).mono hP

theorem Walks.respects (h : l.Walks I (fun _ => True) K) : l.Respects I fun _ _ _ => True where
  report := h.report
  content _ := .of_gives (content_gives h trivial)
  edited _ edits := contentEdited_gives (P := fun _ => True) h trivial (fun _ _ => trivial) edits

/-! ## What is remembered has the kind of its definition -/

/-- All content that is remembered has the kind of its definition. -/
def Kinded (l : Library) (s : Session) : Prop :=
  ∀ id b, s.cache.get? id = some (.ok b) → l.HasKind id b

theorem walks_kinded (l : Library) : l.Walks l.Kinded (fun _ => True) l.HasKind where
  report _ _ _ h := h
  inherits _ _ _ _ := trivial
  made _ _ h := h
  recalled s id b hs hb := hs id b hb
  remember s id b hs _ hb id' b' hget := by
    rw [Session.get?_remembering] at hget
    split at hget
    · rename_i hid
      obtain rfl : b = b' := Except.ok.inj (Option.some.inj hget)
      exact hid ▸ hb
    · exact hs id' b' hget
  fail s id e hs _ id' b' hget := by
    rw [Session.get?_remembering] at hget
    split at hget
    · cases hget
    · exact hs id' b' hget

theorem respects_kinded (l : Library) : l.Respects l.Kinded fun id _ b => l.HasKind id b where
  report := (walks_kinded l).report
  content := (walks_kinded l).respects.content
  edited id edits :=
    contentEdited_gives (P := fun k => ∃ d, l.definitions.get? id = some d ∧ k = d.kind)
      (walks_kinded l) trivial (fun _ h => h) edits

end Library
end Stencil
