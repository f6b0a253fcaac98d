import Stencil.Compilation.Register
import Stencil.Proofs.Composition
import Stencil.Proofs.Remembering

/-! # Content does not depend on what was asked before

Where no definition inherits from itself, the content of a definition is the fold over its
inheritance, whatever was asked of the library since nothing was remembered.
-/
namespace Stencil

open Resolving

/-- What can be asked of an environment. -/
inductive Query where
  | content (id : DefId)
  | contentWithout (id : DefId) (excluded : List DefId)
  | contentEdited (id : DefId) (edits : List Edit)
  | instanceOf (site : UseSite) (n : Name) (edits : List Edit) (expected : Category)
  | variableValue (site : UseSite) (group : Name) (key : String) (override : Option String)
  | fillIn (site : UseSite) (owner : NamespaceId) (text : String)

namespace Query

/-- The session after a query, whatever its answer. -/
def after (env : Environment) (q : Query) (s : Session) : Session :=
  match q with
  | content id => (env.library.content id).after s
  | contentWithout id excluded => (env.library.contentWithout id excluded).after s
  | contentEdited id edits => (env.library.contentEdited id edits).after s
  | instanceOf site n edits expected => (env.instanceOf site n edits expected).after s
  | variableValue site group key override => (env.variableValue site group key override).after s
  | fillIn site owner text => (env.fillIn site owner text).after s

/-- The session after one query after another. -/
def afterAll (env : Environment) (qs : List Query) (s : Session) : Session :=
  qs.foldl (fun s q => q.after env s) s

end Query

theorem Library.respects_faithful (l : Library) (m : Cache) :
    l.Respects (l.Faithful m) fun _ _ _ => True where
  report _ e span h := h.reporting e span
  content id := Keeps.of_yields (content_tracks id)
  edited id edits := Keeps.of_yields (contentEdited_tracks id edits)

namespace Query

variable {env : Environment} {I : Session → Prop} {s : Session}

/-- What content look-ups keep of the session, queries keep. -/
theorem after_keeps (hl : env.library.Respects I fun _ _ _ => True)
    (hwithout : ∀ id excluded, Keeps I (env.library.contentWithout id excluded)) (q : Query)
    (h : I s) : I (q.after env s) := by
  cases q with
  | content id => exact (hl.content id s h).2
  | contentWithout id excluded => exact (hwithout id excluded s h).2
  | contentEdited id edits => exact (hl.edited id edits s h).2
  | instanceOf site n edits expected =>
    exact (Environment.instanceOf_gives hl n edits expected s h).2
  | variableValue site group key override =>
    exact (Environment.variableValue_keeps hl group key override s h).2
  | fillIn site owner text => exact (Environment.fillIn_keeps hl owner text s h).2

theorem afterAll_keeps (hl : env.library.Respects I fun _ _ _ => True)
    (hwithout : ∀ id excluded, Keeps I (env.library.contentWithout id excluded)) (qs : List Query)
    (h : I s) : I (afterAll env qs s) := by
  induction qs generalizing s with
  | nil => exact h
  | cons q qs ih => exact ih (q.after_keeps hl hwithout h)

theorem afterAll_faithful {m : Cache} (qs : List Query) (h : env.library.Faithful m s) :
    env.library.Faithful m (afterAll env qs s) :=
  afterAll_keeps (env.library.respects_faithful m)
    (fun id excluded => .of_yields (Library.contentWithout_tracks id excluded)) qs h

end Query

namespace Library

variable {l : Library}

theorem walked_eq_flattened_root (h : l.Acyclic) (id : DefId) :
    l.walked .empty [] id = l.flattened h id := by
  funext excluded
  exact walked_eq_flattened h (by simp)

theorem not_isCircular_allowedEdited {flat : Finset DefId → Except Failure Content} {id : DefId}
    (h : ∀ excluded, ¬ IsCircular (flat excluded)) (edits : List Edit) :
    ¬ IsCircular (l.allowedEdited flat id edits) := by
  intro hc
  unfold allowedEdited at hc
  rcases hc.of_bind with hc | ⟨d, -, hc⟩
  · exact not_isCircular_fault _ hc
  rcases hc.of_bind with hc | ⟨u, -, hc⟩
  · exact not_isCircular_problem (fun _ => checkEdits_ne_circular) hc
  · exact not_isCircular_edited h edits hc

/-- Where no definition inherits from itself, every answer about content is the fold over the
inheritance: the content of a definition, its content less others, and its content after edits. -/
theorem content_eq_flattened (env : Environment) (h : env.library.Acyclic) (qs : List Query)
    (ds : Diagnostics) (id : DefId) (excluded : List DefId) (edits : List Edit) :
    (env.library.content id).outcome (Query.afterAll env qs ⟨.empty, ds⟩) =
      env.library.flattened h id ∅ ∧
    (env.library.contentWithout id excluded).outcome (Query.afterAll env qs ⟨.empty, ds⟩) =
      env.library.flattened h id excluded.toFinset ∧
    (env.library.contentEdited id edits).outcome (Query.afterAll env qs ⟨.empty, ds⟩) =
      env.library.allowedEdited (env.library.flattened h id) id edits := by
  have hs : env.library.Faithful .empty (Query.afterAll env qs ⟨.empty, ds⟩) :=
    Query.afterAll_faithful qs (Faithful.start env.library ⟨.empty, ds⟩)
  have hcircular := not_isCircular_flattened h id
  have hcontent := (content_tracks id _ hs).1.settles
  have hwithout := (contentWithout_tracks id excluded _ hs).1.settles
  have hedited := (contentEdited_tracks id edits _ hs).1.settles
  rw [walked_eq_flattened_root h id] at hcontent hwithout hedited
  refine ⟨hcontent (hcircular ∅), hwithout (hcircular _), hedited ?_⟩
  exact not_isCircular_allowedEdited hcircular edits

/-- A coat inherits from a plain garment twice, once through a lined one of which the plain part
is taken out. -/
def wardrobe : Compilation :=
  let style (name : String) : Identity := ⟨.custom, .style, name⟩
  let plain : Name := .ofKind .style "Plain"
  let lined : Name := .ofKind .style "Lined"
  let body (name value : String) : Content := .style (.ofList [(name, .concrete value)])
  let register : Compiling Unit := do
    let _ ← Compiling.addCustom (style "Plain") (body "color" "grey") [] .empty
    let _ ← Compiling.addCustom (style "Lined") (body "width" "2px")
      [⟨plain, .explicit, [.assign "color" "red"], none⟩] .empty
    let _ ← Compiling.addCustom (style "Coat") (body "margin" "0")
      [⟨lined, .explicit, [.deleteInheritance plain], none⟩, ⟨plain, .composition, [], none⟩] .empty
  (register.run (.initial .initial)).2

theorem content_eq_flattened_wardrobe :
    ∃ h : wardrobe.environment.library.Acyclic,
      (∃ b, wardrobe.environment.library.flattened h ⟨2⟩ ∅ = .ok b ∧ b.size = 3) ∧
      (wardrobe.environment.library.content ⟨2⟩).outcome
          (Query.afterAll wardrobe.environment [.content ⟨1⟩, .contentWithout ⟨2⟩ [⟨0⟩]]
            ⟨.empty, []⟩) =
        wardrobe.environment.library.flattened h ⟨2⟩ ∅ ∧
      (wardrobe.environment.library.contentWithout ⟨2⟩ [⟨1⟩]).outcome
          (Query.afterAll wardrobe.environment [.content ⟨1⟩, .contentWithout ⟨2⟩ [⟨0⟩]]
            ⟨.empty, []⟩) =
        wardrobe.environment.library.flattened h ⟨2⟩ [⟨1⟩].toFinset ∧
      (wardrobe.environment.library.contentEdited ⟨2⟩ [.assign "color" "blue"]).outcome
          (Query.afterAll wardrobe.environment [.content ⟨1⟩, .contentWithout ⟨2⟩ [⟨0⟩]]
            ⟨.empty, []⟩) =
        wardrobe.environment.library.allowedEdited
          (wardrobe.environment.library.flattened h ⟨2⟩) ⟨2⟩ [.assign "color" "blue"] := by
  have h : wardrobe.environment.library.Acyclic := acyclic_of_inheritsOlder (by decide +kernel)
  have hall := content_eq_flattened wardrobe.environment h [.content ⟨1⟩, .contentWithout ⟨2⟩ [⟨0⟩]]
    [] ⟨2⟩ [⟨1⟩] [.assign "color" "blue"]
  refine ⟨h, ?_, hall⟩
  have hsize : ((wardrobe.environment.library.content ⟨2⟩).outcome
      (Query.afterAll wardrobe.environment [.content ⟨1⟩, .contentWithout ⟨2⟩ [⟨0⟩]]
        ⟨.empty, []⟩)).map Content.size = .ok 3 := by
    decide +kernel
  rw [hall.1] at hsize
  cases hb : wardrobe.environment.library.flattened h ⟨2⟩ ∅ with
  | error f => rw [hb] at hsize; cases hsize
  | ok b => exact ⟨b, rfl, by rw [hb] at hsize; exact Except.ok.inj hsize⟩

end Library
end Stencil
