import Stencil.Proofs.Answering
import Stencil.Proofs.Import

/-! # Walks and expansions end

The walk down the inheritance and the expansion of uses are recursive along a list of stored
definitions, to which each call adds one that is not on it yet. Such a recursion needs no bound of its
own: what it gives is settled by its equation on lists without repetition, and as many unfoldings as
there are definitions are enough.
-/
namespace Stencil

namespace Arena

variable {t : Table} {α β : Type} {a : Arena t α} {visited : List (Id t)}

/-- The ids are in the table and none is repeated. -/
structure Simple (a : Arena t α) (visited : List (Id t)) : Prop where
  nodup : visited.Nodup
  stored : ∀ id ∈ visited, a.Holds id

namespace Simple

theorem nil : a.Simple [] := ⟨.nil, nofun⟩

theorem cons (h : a.Simple visited) {id : Id t} (hid : a.Holds id) (hnew : id ∉ visited) :
    a.Simple (id :: visited) where
  nodup := List.nodup_cons.2 ⟨hnew, h.nodup⟩
  stored := by
    rintro q hq
    rcases List.mem_cons.1 hq with rfl | hq
    · exact hid
    · exact h.stored q hq

/-- A list without repetition is not longer than the table. -/
theorem length_le (h : a.Simple visited) : visited.length ≤ a.size := by
  have hindex : (visited.map Id.index).Nodup := by
    refine h.nodup.map_on ?_
    rintro ⟨i⟩ _ ⟨j⟩ _ rfl
    rfl
  have hsub : visited.map Id.index ⊆ List.range a.size := by
    intro i hi
    obtain ⟨id, hid, rfl⟩ := List.mem_map.1 hi
    exact List.mem_range.2 (h.stored id hid)
  simpa using (hindex.subperm hsub).length_le

end Simple

/-- The step looks at the recursion only behind one more id of the table that was not visited. -/
def Advances (a : Arena t α) (step : (List (Id t) → β) → List (Id t) → β) : Prop :=
  ∀ f g visited, (∀ id, a.Holds id → id ∉ visited → f (id :: visited) = g (id :: visited)) →
    step f visited = step g visited

/-- `f` satisfies the equation of the recursion wherever no id is repeated. -/
def Solves (a : Arena t α) (step : (List (Id t) → β) → List (Id t) → β) (f : List (Id t) → β) :
    Prop :=
  ∀ visited, a.Simple visited → f visited = step f visited

variable {step : (List (Id t) → β) → List (Id t) → β} {f g : List (Id t) → β}

/-- As many unfoldings as ids are left give what the recursion gives, whatever stands in place of
further ones. -/
theorem Advances.iterate_eq (h : a.Advances step) (hf : a.Solves step f) {n : Nat}
    (hvisited : a.Simple visited) (hn : a.size < visited.length + n) :
    step^[n] g visited = f visited := by
  induction n generalizing visited with
  | zero =>
    have := hvisited.length_le
    omega
  | succ n ih =>
    rw [Function.iterate_succ_apply', hf visited hvisited]
    apply h
    intro id hid hnew
    apply ih (hvisited.cons hid hnew)
    rw [List.length_cons]
    omega

/-- The recursion `f` with the equation `step` ends. Its equation on lists without repetition has one
solution, so no other list is ever visited; and whatever the list, an unfolding for each id that is not
on it and one more are all that is looked at. -/
structure Ends (a : Arena t α) (step : (List (Id t) → β) → List (Id t) → β) (f : List (Id t) → β) :
    Prop where
  solves : a.Solves step f
  unique : ∀ g, a.Solves step g → ∀ visited, a.Simple visited → g visited = f visited
  bounded : ∀ g n visited, a.Simple visited → a.size < visited.length + n →
    step^[n] g visited = f visited

theorem Advances.ends (h : a.Advances step) (hf : a.Solves step f) : a.Ends step f where
  solves := hf
  unique g hg visited hvisited := by
    rw [← h.iterate_eq hg (n := a.size + 1) (g := g) hvisited (by omega),
      h.iterate_eq hf hvisited (by omega)]
  bounded g n visited hvisited hn := h.iterate_eq hf hvisited hn

end Arena

/-! ## Inheritance -/

namespace Library

/-- One step of the walk down the inheritance; `f` gives what is found further down. -/
def descendStep (l : Library) (f : List DefId → DefId → List DefId → Resolving Content)
    (path : List DefId) (id : DefId) (excluded : List DefId) : Resolving Content := do
  match ← remembered excluded id with
  | some known => known
  | none =>
    if id ∈ path then Resolving.refuse (← l.cycle path id)
    else
      match l.definitions.get? id with
      | none => throw (.fault .outsideTable)
      | some d =>
        let body ← l.gather d excluded (f (id :: path))
        if excluded.isEmpty then Resolving.remember id (.ok body)
        return body

theorem descend_eq (l : Library) (path : List DefId) :
    l.descend path = l.descendStep l.descend path := by
  funext id excluded
  rw [descend, descendStep]
  congr 1
  funext known
  cases known with
  | some known => rfl
  | none =>
    by_cases hmem : id ∈ path
    · simp only [hmem, dif_pos, if_pos]
    · simp only [hmem, dif_neg, if_neg, not_false_eq_true]
      split <;> rename_i hd <;> simp only [hd]

theorem advances_descendStep (l : Library) : l.definitions.Advances l.descendStep := by
  intro f g path h
  funext id excluded
  unfold descendStep
  congr 1
  funext known
  cases known with
  | some known => rfl
  | none =>
    by_cases hmem : id ∈ path
    · simp only [hmem, if_pos]
    · simp only [hmem, if_neg, not_false_eq_true]
      cases hd : l.definitions.get? id with
      | none => rfl
      | some d => rw [h id (Arena.holds_of_get? hd) hmem]

theorem descend_ends (l : Library) : l.definitions.Ends l.descendStep l.descend :=
  l.advances_descendStep.ends fun path _ => l.descend_eq path

end Library

/-! ## Expansion -/

namespace Environment

/-- One step of the expansion of a use; `f` expands the uses inside it. -/
def buildStep (env : Environment) (site : UseSite)
    (f : List DefId → DefId → List Edit → Resolving Content) (expanding : List DefId) (id : DefId)
    (edits : List Edit) : Resolving Content := do
  if id ∈ expanding then Resolving.refuse (← env.library.cycle expanding id)
  else
    match env.library.definitions.get? id with
    | none => throw (.fault .outsideTable)
    | some d => env.assemble site id d edits (f (id :: expanding))

theorem build_eq (env : Environment) (site : UseSite) (expanding : List DefId) :
    env.build site expanding = env.buildStep site (env.build site) expanding := by
  funext id edits
  rw [build, buildStep]
  by_cases hmem : id ∈ expanding
  · simp only [hmem, dif_pos, if_pos]
  · simp only [hmem, dif_neg, if_neg, not_false_eq_true]
    split <;> rename_i hd <;> simp only [hd]

theorem advances_buildStep (env : Environment) (site : UseSite) :
    env.library.definitions.Advances (env.buildStep site) := by
  intro f g expanding h
  funext id edits
  unfold buildStep
  by_cases hmem : id ∈ expanding
  · simp only [hmem, if_pos]
  · simp only [hmem, if_neg, not_false_eq_true]
    cases hd : env.library.definitions.get? id with
    | none => rfl
    | some d => rw [h id (Arena.holds_of_get? hd) hmem]

theorem build_ends (env : Environment) (site : UseSite) :
    env.library.definitions.Ends (env.buildStep site) (env.build site) :=
  (env.advances_buildStep site).ends fun expanding _ => env.build_eq site expanding

end Environment

open Resolving

/-- Walks down the inheritance and expansions of uses end: they go by definitions without repetition,
and so by no more than there are. From a place of the compilation every question about content,
inheritance, instances and variables has an answer. -/
theorem Compilation.Reachable.resolution_ends {c : Compilation} (hc : c.Reachable) :
    c.definitions.Ends c.library.descendStep c.library.descend ∧
    (∀ site, c.definitions.Ends (c.environment.buildStep site) (c.environment.build site)) ∧
    (∀ visited, c.definitions.Simple visited → visited.length ≤ c.definitions.size) ∧
    (∀ id, c.definitions.Holds id →
      (∃ ids, c.library.ancestors id = .ok ids ∧ ids.Nodup ∧ ids.length ≤ c.definitions.size ∧
        ∀ p, p ∈ ids ↔ p ≠ id ∧ Relation.TransGen c.library.Inherits id p) ∧
      Safe (c.library.content id) (fun _ => True) ∧
      (∀ excluded, Safe (c.library.contentWithout id excluded) fun _ => True) ∧
      ∀ edits, Safe (c.library.contentEdited id edits) fun _ => True) ∧
    ∀ site, site.Within c.environment →
      (∀ n edits expected, Safe (c.environment.instanceOf site n edits expected) fun _ => True) ∧
      ∀ group key override,
        Safe (c.environment.variableValue site group key override) fun _ => True := by
  have hl := hc.intact.library
  refine ⟨c.library.descend_ends, c.environment.build_ends, fun _ h => h.length_le, ?_, ?_⟩
  · intro id hid
    refine ⟨?_, hl.content_safe hid, hl.contentWithout_safe hid, hl.contentEdited_safe hid⟩
    obtain ⟨ids, hids, hnodup, hmem⟩ := hl.finds_ancestors hid
    refine ⟨ids, hids, hnodup, ?_, hmem⟩
    refine Arena.Simple.length_le (a := c.definitions) ⟨hnodup, fun p hp => ?_⟩
    obtain ⟨q, -, hq⟩ := Relation.TransGen.tail'_iff.1 ((hmem p).1 hp).2
    exact hl.holds_of_inherits hq
  · intro site hsite
    exact ⟨Environment.instanceOf_safe hl hsite, Environment.variableValue_safe hl hsite⟩

/-- Two element groups that inherit from each other, and each of which uses the other with an edit that
puts a use of the first inside it. -/
def knot : Compilation :=
  let use (name : String) (edits : List Edit) : Node := .usage ⟨.ofKind .element name, edits, none⟩
  let group (name other : String) : Operation :=
    .addGroup ⟨.custom, .element, name⟩
      (.element [use other [.insert .atBottom none [use name []]]])
      [⟨.ofKind .element other, .explicit, [], none⟩] .empty none
  Operation.afterAll [group "A" "B", group "B" "A"] (.initial .initial)

/-- Three unfoldings are enough for the two groups. -/
theorem resolution_ends_knot :
    knot.Reachable ∧ knot.definitions.size = 2 ∧
    (∀ f, knot.library.descendStep^[3] f [] = knot.library.descend []) ∧
    (∀ f, (knot.environment.buildStep .global)^[3] f [] = knot.environment.build .global []) ∧
    ∀ p, p ∈ [(⟨1⟩ : DefId)] ↔ p ≠ ⟨0⟩ ∧ Relation.TransGen knot.library.Inherits ⟨0⟩ p := by
  have hreach : knot.Reachable := (Compilation.Reachable.initial .initial).afterAll _
  have hsize : knot.definitions.size = 2 := by decide +kernel
  have hancestors : knot.library.ancestors ⟨0⟩ = .ok [⟨1⟩] := by decide +kernel
  obtain ⟨hdescend, hbuild, -, hids, -⟩ := hreach.resolution_ends
  refine ⟨hreach, hsize, fun f => ?_, fun f => ?_, ?_⟩
  · exact hdescend.bounded f 3 [] .nil (by simp [hsize])
  · exact (hbuild .global).bounded f 3 [] .nil (by simp [hsize])
  · obtain ⟨⟨ids, hok, -, -, hmem⟩, -⟩ := hids ⟨0⟩ (by simp [Arena.Holds, hsize])
    rw [hancestors] at hok
    rw [Except.ok.inj hok]
    exact hmem

end Stencil
