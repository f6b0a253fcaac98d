import Stencil.Proofs.Answering
import Stencil.Proofs.Import

/-! # What a definition inherits from

The search for the definitions that a definition inherits from goes by one list of those found and one
of those still to be taken up. Whatever is stored, and also where definitions inherit from each other in
a circle, what it gives is all that a chain of inheritances leads to, each once.
-/
namespace Stencil

theorem Except.mem_of_filterMapM_eq_ok {ε α β : Type} {f : α → Except ε (Option β)} {as : List α}
    {bs : List β} (h : as.filterMapM f = .ok bs) (b : β) :
    b ∈ bs ↔ ∃ a ∈ as, f a = .ok (some b) := by
  induction as generalizing bs with
  | nil =>
    obtain rfl := Except.ok.inj h
    simp
  | cons a as ih =>
    rw [List.filterMapM_cons] at h
    obtain ⟨r, hr, h⟩ := Except.bind_eq_ok h
    cases r with
    | none => simp [ih h, hr]
    | some b' =>
      obtain ⟨bs', hrest, h⟩ := Except.bind_eq_ok h
      obtain rfl := Except.ok.inj h
      simp [ih hrest, hr, eq_comm]

namespace Library

open Relation

variable {l : Library} {id : DefId} {ids : List DefId}

/-- The parents are what the inheritances mean, as far as they mean something. -/
theorem mem_of_parents (h : l.parents id = .ok ids) (p : DefId) : p ∈ ids ↔ l.Inherits id p := by
  obtain ⟨d, hd, h⟩ := Except.bind_eq_ok h
  have hget : l.definitions.get? id = some d := Arena.get?_of_find hd
  rw [Except.mem_of_filterMapM_eq_ok h]
  simp only [Inherits, hget, Option.some.injEq, exists_eq_left']
  apply exists_congr
  intro e
  apply and_congr_right
  intro _
  rcases l.parentOf d e with (e | f) | q <;>
    simp [Failure.settle, bind, Except.bind, pure, Except.pure]

/-- Once the search ends, nothing is left to be taken up. -/
theorem Collecting.of_collectAncestors {root : DefId} {stack order : List DefId}
    (h : l.Collecting root stack order)
    (hok : l.collectAncestors root stack order = .ok ids) : l.Collecting root [] ids := by
  match stack with
  | [] =>
    rw [collectAncestors] at hok
    exact Except.ok.inj hok ▸ h
  | current :: rest =>
    rw [collectAncestors] at hok
    obtain ⟨ps, hps, hok⟩ := Except.bind_eq_ok hok
    have hparents : ∀ p, p ∈ ps.reverse ↔ l.Inherits current p := by
      simpa using mem_of_parents hps
    split at hok
    · rename_i hstored
      have := collect_lt current rest hstored
      exact (h.step hparents).of_collectAncestors hok
    · cases hok
termination_by 2 * l.definitions.unvisited order + stack.length
decreasing_by simpa using this

theorem ancestors_of_not_holds (h : ¬ l.definitions.Holds id) :
    l.ancestors id = .error .outsideTable := by
  have hfind : l.find id = .error .outsideTable := by
    rw [find, Arena.find]
    split
    · rename_i hd
      exact absurd (Arena.holds_of_get? hd) h
    · rfl
  rw [ancestors, collectAncestors, parents, hfind]
  rfl

/-- What is found of the definitions that `id` inherits from are all those to which a chain of
inheritances leads from it, each once and without `id` itself. In a compilation that was reached they
are found for each of its definitions. -/
theorem ancestors_closure (l : Library) (id : DefId) :
    (∀ ids, l.ancestors id = .ok ids →
      ids.Nodup ∧ ∀ p, p ∈ ids ↔ p ≠ id ∧ TransGen l.Inherits id p) ∧
    (∀ c : Compilation, c.Reachable → c.library = l → l.definitions.Holds id →
      ∃ ids, l.ancestors id = .ok ids) ∧
    (¬ l.definitions.Holds id → l.ancestors id = .error .outsideTable) := by
  refine ⟨fun ids hids => ?_, ?_, ancestors_of_not_holds⟩
  · have hall := (Collecting.start id).of_collectAncestors hids
    exact ⟨(List.nodup_cons.1 hall.nodup).2, hall.mem_iff⟩
  · rintro c hc rfl hid
    obtain ⟨ids, hids, -⟩ := hc.intact.library.finds_ancestors hid
    exact ⟨ids, hids⟩

end Library

/-- A wheel inherits from a rim and the rim from the wheel, each also from a spoke; one more
inheritance of the rim means nothing. -/
def wheel : Compilation :=
  let style (name : String) (parents : List String) : Operation :=
    .addGroup ⟨.custom, .style, name⟩ (.empty .style)
      (parents.map fun parent => ⟨.ofKind .style parent, .explicit, [], none⟩) .empty none
  Operation.afterAll [style "Wheel" ["Rim", "Spoke"], style "Rim" ["Hub", "Wheel", "Spoke"],
    style "Spoke" []] (.initial .initial)

theorem ancestors_closure_wheel :
    wheel.Reachable ∧ wheel.library.definitions.Holds ⟨0⟩ ∧
    ∃ ids, wheel.library.ancestors ⟨0⟩ = .ok ids ∧ ids.Nodup ∧
      (∀ p, p ∈ ids ↔ p ≠ ⟨0⟩ ∧ Relation.TransGen wheel.library.Inherits ⟨0⟩ p) ∧
      ids = [⟨2⟩, ⟨1⟩] := by
  have hreach : wheel.Reachable := (Compilation.Reachable.initial .initial).afterAll _
  have hid : wheel.library.definitions.Holds ⟨0⟩ := by decide +kernel
  obtain ⟨hexact, hfound, -⟩ := wheel.library.ancestors_closure ⟨0⟩
  obtain ⟨ids, hids⟩ := hfound wheel hreach rfl hid
  obtain ⟨hnodup, hmem⟩ := hexact ids hids
  refine ⟨hreach, hid, ids, hids, hnodup, hmem, ?_⟩
  have hcomputed : wheel.library.ancestors ⟨0⟩ = .ok [⟨2⟩, ⟨1⟩] := by decide +kernel
  exact Except.ok.inj (hids.symm.trans hcomputed)

end Stencil
