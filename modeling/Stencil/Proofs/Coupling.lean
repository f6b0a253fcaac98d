import Stencil.Proofs.Session
import Stencil.Library.Content

/-! # Sessions that cannot be told apart

A resolution couples a relation between sessions if from related sessions it gives the same, and
leaves related ones. It is enough that its parts do.
-/
namespace Stencil

open Resolving

namespace Resolving

variable {α β : Type} {R : Session → Session → Prop}

/-- From related sessions the resolution gives the same, and leaves related ones. -/
def Couples (R : Session → Session → Prop) (x : Resolving α) : Prop :=
  ∀ s t, R s t → x.outcome s = x.outcome t ∧ R (x.after s) (x.after t)

namespace Couples

variable {x : Resolving α} {f : α → Resolving β}

theorem bind (hx : Couples R x) (hf : ∀ a, Couples R (f a)) : Couples R (x >>= f) := by
  intro s t hst
  obtain ⟨heq, hafter⟩ := hx s t hst
  rw [outcome, outcome, after, after, run_bind, run_bind, heq]
  cases x.outcome t with
  | error e => exact ⟨rfl, hafter⟩
  | ok a => exact hf a _ _ hafter

theorem pure (a : α) : Couples R (pure a) := fun _ _ h => ⟨rfl, h⟩

theorem throw (e : Failure) : Couples R (throw e : Resolving α) := fun _ _ h => ⟨rfl, h⟩

theorem liftFault (r : Except Fault α) : Couples R (liftM r : Resolving α) :=
  fun _ _ h => ⟨rfl, h⟩

theorem liftProblem (r : Except Problem α) : Couples R (liftM r : Resolving α) :=
  fun _ _ h => ⟨rfl, h⟩

theorem lift_bind {r : Except Failure α} (hf : ∀ a, r = .ok a → Couples R (f a)) :
    Couples R ((liftM r : Resolving α) >>= f) := by
  cases r with
  | error e => exact throw e
  | ok a => exact hf a rfl

theorem attempt (hx : Couples R x) : Couples R (attempt x) := by
  intro s t hst
  obtain ⟨heq, hafter⟩ := hx s t hst
  rw [outcome, outcome, after, after, run_attempt, run_attempt, heq]
  exact ⟨rfl, hafter⟩

theorem foldlM {f : β → α → Resolving β} {as : List α}
    (hf : ∀ b, ∀ a ∈ as, Couples R (f b a)) (b : β) : Couples R (as.foldlM f b) := by
  induction as generalizing b with
  | nil => exact pure b
  | cons a as ih =>
    rw [List.foldlM_cons]
    apply bind (hf b a List.mem_cons_self)
    exact fun b => ih (fun b a ha => hf b a (List.mem_cons_of_mem _ ha)) b

theorem mapM {f : α → Resolving β} (hf : ∀ a, Couples R (f a)) (as : List α) :
    Couples R (as.mapM f) := by
  induction as with
  | nil => exact pure []
  | cons a as ih =>
    rw [List.mapM_cons]
    apply bind (hf a)
    intro b
    exact bind ih fun bs => pure (b :: bs)

theorem reportAll (hreport : ∀ e span, Couples R (report e span)) (es : List Problem) :
    Couples R (reportAll es) := by
  induction es with
  | nil => exact pure ()
  | cons e es ih => exact bind (hreport e none) fun _ => ih

end Couples
end Resolving

namespace Library

variable {l : Library} {R : Session → Session → Prop}

theorem exclude_couples (hreport : ∀ e span, Couples R (report e span)) (d : Definition)
    (ancestors excluded : List DefId) (target : Name) :
    Couples R (l.exclude d ancestors excluded target) := by
  have warned (e : Problem) : Couples R (do report e none; return excluded) :=
    .bind (hreport e none) fun _ => .pure excluded
  apply Couples.bind (.liftFault _)
  intro found
  cases found with
  | error e => exact warned _
  | ok p =>
    change Couples R (if ancestors.contains p then Pure.pure (p :: excluded) else _)
    split
    · exact .pure _
    · exact warned _

theorem editFlat_couples (hreport : ∀ e span, Couples R (report e span))
    {flat : List DefId → Resolving Content} (hflat : ∀ excluded, Couples R (flat excluded))
    (id : DefId) (edits : List Edit) (excluded : List DefId) :
    Couples R (l.editFlat flat id edits excluded) := by
  unfold editFlat
  split
  · exact hflat excluded
  · apply Couples.bind (.liftFault _)
    intro d
    apply Couples.bind
    · unfold excludeAll
      dsimp only
      split
      · exact .pure _
      · apply Couples.bind (.liftFault _)
        intro ancestors
        exact .foldlM (fun excluded target _ => exclude_couples hreport d ancestors excluded target) _
    · intro fewer
      apply Couples.bind (hflat fewer)
      intro base
      exact .bind (.reportAll hreport _) fun _ => .pure _

theorem gather_couples (hreport : ∀ e span, Couples R (report e span)) {d : Definition}
    {flat : DefId → List DefId → Resolving Content}
    (hflat : ∀ e ∈ d.edges, ∀ p excluded, l.parentOf d e = .ok p → Couples R (flat p excluded))
    (excluded : List DefId) : Couples R (l.gather d excluded flat) := by
  apply Couples.bind
  · apply Couples.foldlM
    intro gathered e he
    apply Couples.lift_bind
    intro p hp
    apply Couples.bind (.liftProblem _)
    intro _
    split
    · exact .pure gathered
    · apply Couples.bind (editFlat_couples hreport (fun ex => hflat e he p ex hp) p e.edits excluded)
      exact fun inherited => .liftProblem _
  · exact fun gathered => .liftProblem _

/-! Content is told apart by nothing but what is remembered. -/

section

variable (hreport : ∀ e span, Couples R (report e span))
  (hremembered : ∀ id, Couples R (Resolving.remembered id))
  (hremember : ∀ id known, Couples R (remember id known))

include hreport hremembered hremember

theorem descend_couples (path : List DefId) (id : DefId) (excluded : List DefId) :
    Couples R (l.descend path id excluded) := by
  rw [descend]
  apply Couples.bind
  · unfold remembered
    split
    · exact hremembered id
    · exact .pure none
  · intro known
    cases known with
    | some known => exact .liftProblem known
    | none =>
      by_cases hpath : id ∈ path
      · simp only [hpath, dif_pos]
        exact (Couples.liftFault _).bind fun e => .throw _
      · simp only [hpath, dif_neg, not_false_eq_true]
        split
        · exact .throw _
        · rename_i d hd
          have := Arena.unvisited_cons_lt hd hpath
          apply (gather_couples hreport
            (fun _ _ p ex _ => descend_couples (id :: path) p ex) excluded).bind
          intro body
          split
          · exact (hremember id (.ok body)).bind fun _ => .pure body
          · exact .pure body
termination_by l.definitions.unvisited path

theorem content_couples (id : DefId) : Couples R (l.content id) := by
  apply (hremembered id).bind
  intro known
  cases known with
  | some known => exact .liftProblem known
  | none =>
    apply (descend_couples hreport hremembered hremember [] id []).attempt.bind
    intro found
    cases found with
    | ok body => exact .pure body
    | error e => exact (hremember id (.error e)).bind fun _ => .throw _

end

end Library
end Stencil
