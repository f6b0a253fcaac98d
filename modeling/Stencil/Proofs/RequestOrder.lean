import Stencil.Proofs.Flattening
import Stencil.Proofs.Requests

/-! # When the order of requests matters

The content of a definition is the same whatever was requested before, unless the walk down its
inheritance closes a circle. Where it does, what is remembered can hide the circle or tell of it
from another definition on, but two answers without a circle never differ.
-/
namespace Stencil.Compiling

open Library

variable {c : Compilation} {id : DefId} {d : Definition}

theorem kept_faithful (m : Cache) : Kept fun l => l.Faithful m :=
  fun l => l.respects_faithful m

theorem run_contentOf (id : DefId) (c : Compilation) :
    (contentOf id).run c =
      (match c.definitions.get? id with
        | none => recording none (refuse (.unresolved id.render))
        | some d => recording d.span (resolving fun env => env.library.content id)).run c := by
  rw [contentOf, run_bind]
  rfl

theorem outcome_contentOf_of_none (h : c.definitions.get? id = none) :
    (contentOf id).outcome c = .error (.refused (.unresolved id.render)) := by
  rw [outcome, run_contentOf, h]
  exact outcome_recording none _ c

theorem outcome_contentOf_of_some (h : c.definitions.get? id = some d) :
    (contentOf id).outcome c = (c.library.content id).outcome c.session := by
  rw [outcome, run_contentOf, h]
  exact outcome_recording d.span _ c

/-- Whatever was requested before, an answer is what the walk finds unless that is a circle, and
unless the answer is one it is what the definition unfolds to. -/
theorem contentOf_tracks (h : c.definitions.get? id = some d) (rs : List Request) :
    Tracks (c.library.walked c.session.cache [] id ∅)
      (fun n => c.library.unfolded c.session.cache n id ∅)
      ((contentOf id).outcome (Request.afterAll rs c)) := by
  obtain ⟨s, hs, hfaithful⟩ := Request.afterAll_resolves (kept_faithful c.session.cache) rs c
  have hout := outcome_contentOf_of_some (c := { c with session := s }) h
  rw [hs, hout]
  exact (content_tracks id s (hfaithful (Faithful.start c.library c.session))).1

/-- The content of a definition does not depend on what was requested before if the walk down its
inheritance closes no circle, and two answers differ only if one of them tells of a circle. -/
theorem contentOf_afterAll (c : Compilation) (id : DefId) (rs rs' : List Request) :
    (¬ IsCircular (c.library.walked c.session.cache [] id ∅) →
      (contentOf id).outcome (Request.afterAll rs c) = (contentOf id).outcome c) ∧
    ((contentOf id).outcome (Request.afterAll rs c) =
        (contentOf id).outcome (Request.afterAll rs' c) ∨
      IsCircular ((contentOf id).outcome (Request.afterAll rs c)) ∨
      IsCircular ((contentOf id).outcome (Request.afterAll rs' c))) := by
  cases hd : c.definitions.get? id with
  | none =>
    have hall (rs : List Request) : (contentOf id).outcome (Request.afterAll rs c) =
        .error (.refused (.unresolved id.render)) := by
      obtain ⟨s, hs, -⟩ := Request.afterAll_resolves (kept_faithful c.session.cache) rs c
      rw [hs]
      exact outcome_contentOf_of_none hd
    exact ⟨fun _ => (hall rs).trans (hall []).symm, .inl ((hall rs).trans (hall rs').symm)⟩
  | some d =>
    have hall := contentOf_tracks hd
    constructor
    · intro hwalk
      exact ((hall rs).settles hwalk).trans ((hall []).settles hwalk).symm
    · by_cases hrs : IsCircular ((contentOf id).outcome (Request.afterAll rs c))
      · exact .inr (.inl hrs)
      by_cases hrs' : IsCircular ((contentOf id).outcome (Request.afterAll rs' c))
      · exact .inr (.inr hrs')
      · exact .inl (((hall rs).unfolds hrs).unique ((hall rs').unfolds hrs'))

/-- Two style groups that inherit from each other; on the way back to the first the second is
taken out. -/
def ring : Compilation :=
  let style (name : String) : Identity := ⟨.custom, .style, name⟩
  let inherits (name : String) (edits : List Edit) : Inheritance :=
    ⟨.ofKind .style name, .explicit, edits, none⟩
  let body (name value : String) : Content := .style (.ofList [(name, .concrete value)])
  let register : Compiling Unit := do
    let _ ← addCustom (style "A") (body "color" "red") [inherits "B" []] .empty
    let _ ← addCustom (style "B") (body "width" "1px")
      [inherits "A" [.deleteInheritance (.ofKind .style "B")]] .empty
  (register.run (.initial .initial)).2

/-- The walk down from the second group of the ring closes no circle. -/
theorem contentOf_afterAll_ring :
    ¬ IsCircular (ring.library.walked ring.session.cache [] ⟨1⟩ ∅) ∧
    (contentOf ⟨1⟩).outcome (Request.afterAll [.contentOf ⟨0⟩, .contentOf ⟨1⟩] ring) =
      (contentOf ⟨1⟩).outcome ring := by
  have hwalk : ¬ IsCircular (ring.library.walked ring.session.cache [] ⟨1⟩ ∅) := by
    have hsize : (ring.library.walked ring.session.cache [] ⟨1⟩ ∅).map Content.size = .ok 2 := by
      decide +kernel
    rintro ⟨path, h⟩
    rw [h] at hsize
    cases hsize
  exact ⟨hwalk, (contentOf_afterAll ring ⟨1⟩ [.contentOf ⟨0⟩, .contentOf ⟨1⟩] []).1 hwalk⟩

/-- Asked for first, the content of the first group of the ring is a circle; asked for after the
second group, it has two properties. -/
theorem contentOf_depends_on_order :
    (contentOf ⟨0⟩).outcome ring = .error (.refused (.circular
      ["[Custom] @Style A", "[Custom] @Style B", "[Custom] @Style A"])) ∧
    ((contentOf ⟨0⟩).outcome (Request.afterAll [.contentOf ⟨1⟩] ring)).map Content.size = .ok 2 ∧
    (contentOf ⟨0⟩).outcome (Request.afterAll [.contentOf ⟨1⟩] ring) ≠
      (contentOf ⟨0⟩).outcome ring := by
  have hfirst : ((contentOf ⟨0⟩).outcome ring).map Content.size = .error (.refused (.circular
      ["[Custom] @Style A", "[Custom] @Style B", "[Custom] @Style A"])) := by
    decide +kernel
  have hlater : ((contentOf ⟨0⟩).outcome (Request.afterAll [.contentOf ⟨1⟩] ring)).map
      Content.size = .ok 2 := by
    decide +kernel
  refine ⟨?_, hlater, fun h => ?_⟩
  · cases hc : (contentOf ⟨0⟩).outcome ring with
    | ok b => rw [hc] at hfirst; cases hfirst
    | error e => rw [hc] at hfirst; cases hfirst; rfl
  · rw [h, hfirst] at hlater
    cases hlater

end Stencil.Compiling
