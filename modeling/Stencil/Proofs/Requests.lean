import Stencil.Compilation.Resolve
import Stencil.Proofs.Composition

/-! # Requests

Once the source text is registered, a compilation is only asked. A request changes nothing of it
but the session, and of that it keeps whatever content look-ups keep.
-/
namespace Stencil

namespace Compiling

variable {α β : Type}

/-- What a step gives. -/
def outcome (x : Compiling α) (c : Compilation) : Except Failure α := (x.run c).1

/-- The compilation that a step leaves. -/
def after (x : Compiling α) (c : Compilation) : Compilation := (x.run c).2

theorem run_bind (x : Compiling α) (f : α → Compiling β) (c : Compilation) :
    (x >>= f).run c =
      match x.outcome c with
      | .ok a => (f a).run (x.after c)
      | .error e => (.error e, x.after c) := by
  simp only [outcome, after, ExceptT.run, Bind.bind, ExceptT.bind, ExceptT.mk, StateT.bind,
    ExceptT.bindCont]
  rcases x c with ⟨e | a, c'⟩ <;> rfl

theorem run_tryCatch (x : Compiling α) (f : Failure → Compiling α) (c : Compilation) :
    (tryCatch x f).run c =
      match x.outcome c with
      | .ok a => (.ok a, x.after c)
      | .error e => (f e).run (x.after c) := by
  simp only [outcome, after, tryCatch, tryCatchThe, MonadExceptOf.tryCatch, ExceptT.run,
    ExceptT.tryCatch, ExceptT.mk, Bind.bind, StateT.bind]
  rcases x c with ⟨e | a, c'⟩ <;> rfl

/-- Recording an error does not change what a step gives. -/
theorem outcome_recording (span : Option Span) (x : Compiling α) (c : Compilation) :
    (recording span x).outcome c = x.outcome c := by
  rw [outcome, recording, run_tryCatch]
  rcases x.outcome c with (e | f) | a <;> rfl

theorem outcome_resolving (x : Environment → Resolving α) (c : Compilation) :
    (resolving x).outcome c = (x c.environment).outcome c.session := rfl

/-- `I` is an invariant that content look-ups keep in every library. -/
def Kept (I : Library → Session → Prop) : Prop :=
  ∀ l : Library, l.Respects (I l) fun _ _ _ => True

/-- Nothing but the session changes, and `I` holds of it afterwards if it did before. -/
def Resolves (I : Library → Session → Prop) (x : Compiling α) : Prop :=
  ∀ c, ∃ s, x.after c = { c with session := s } ∧ (I c.library c.session → I c.library s)

namespace Resolves

variable {I : Library → Session → Prop} {x : Compiling α} {f : α → Compiling β}

theorem of_after_eq (h : ∀ c, x.after c = c) : Resolves I x :=
  fun c => ⟨c.session, h c, fun hs => hs⟩

theorem pure (a : α) : Resolves I (pure a) := of_after_eq fun _ => rfl

theorem throw (e : Failure) : Resolves I (throw e : Compiling α) := of_after_eq fun _ => rfl

theorem get : Resolves I (get : Compiling Compilation) := of_after_eq fun _ => rfl

theorem lift (r : Except Failure α) : Resolves I (liftM r : Compiling α) := by
  cases r <;> exact of_after_eq fun _ => rfl

theorem bind (hx : Resolves I x) (hf : ∀ a, Resolves I (f a)) : Resolves I (x >>= f) := by
  intro c
  obtain ⟨s, hs, hIs⟩ := hx c
  rw [after, run_bind]
  cases x.outcome c with
  | error e => exact ⟨s, hs, hIs⟩
  | ok a =>
    obtain ⟨t, ht, hIt⟩ := hf a (x.after c)
    rw [hs] at ht hIt
    exact ⟨t, by rw [← ht, hs]; rfl, fun h => hIt (hIs h)⟩

theorem tryCatch {g : Failure → Compiling α} (hx : Resolves I x) (hg : ∀ e, Resolves I (g e)) :
    Resolves I (tryCatch x g) := by
  intro c
  obtain ⟨s, hs, hIs⟩ := hx c
  rw [after, run_tryCatch]
  cases x.outcome c with
  | ok a => exact ⟨s, hs, hIs⟩
  | error e =>
    obtain ⟨t, ht, hIt⟩ := hg e (x.after c)
    rw [hs] at ht hIt
    exact ⟨t, by rw [← ht, hs]; rfl, fun h => hIt (hIs h)⟩

theorem recording (hI : Kept I) (span : Option Span) (hx : Resolves I x) :
    Resolves I (recording span x) := by
  apply tryCatch hx
  intro failure
  cases failure with
  | fault f => exact throw _
  | refused e =>
    apply bind
    · exact fun c => ⟨c.session.reporting e span, rfl, (hI c.library).report _ e span⟩
    · exact fun _ => throw _

theorem resolving {x : Environment → Resolving α}
    (hx : ∀ env, Resolving.Keeps (I env.library) (x env)) : Resolves I (resolving x) :=
  fun c => ⟨(x c.environment).after c.session, rfl, fun h => (hx c.environment c.session h).2⟩

theorem parseName (token : String) : Resolves I (parseName token) := by
  unfold Compiling.parseName
  split
  · exact pure _
  · exact throw _

end Resolves

/-- The step leaves that view of the compilation as it was. -/
def Spares {γ : Type} (view : Compilation → γ) (x : Compiling α) : Prop :=
  ∀ c, view (x.after c) = view c

namespace Spares

variable {γ : Type} {view : Compilation → γ} {x : Compiling α} {f : α → Compiling β}

theorem pure (a : α) : Spares view (pure a) := fun _ => rfl

theorem throw (e : Failure) : Spares view (throw e : Compiling α) := fun _ => rfl

theorem liftFault (r : Except Fault α) : Spares view (liftM r : Compiling α) := fun _ => rfl

theorem modify {g : Compilation → Compilation} (h : ∀ c, view (g c) = view c) :
    Spares view (modify g : Compiling PUnit) := h

theorem bind (hx : Spares view x) (hf : ∀ a, Spares view (f a)) : Spares view (x >>= f) := by
  intro c
  rw [after, run_bind]
  cases x.outcome c with
  | error e => exact hx c
  | ok a => exact (hf a (x.after c)).trans (hx c)

/-- The rest of a step may depend on the compilation as it is at that point. -/
theorem get_bind {g : Compilation → Compiling β} (h : ∀ c, view ((g c).after c) = view c) :
    Spares view ((get : Compiling Compilation) >>= g) := h

theorem foldlM {g : β → α → Compiling β} {as : List α} (h : ∀ b, ∀ a ∈ as, Spares view (g b a))
    (b : β) : Spares view (as.foldlM g b) := by
  induction as generalizing b with
  | nil => exact pure b
  | cons a as ih =>
    rw [List.foldlM_cons]
    apply bind (h b a List.mem_cons_self)
    exact fun b => ih (fun b a ha => h b a (List.mem_cons_of_mem _ ha)) b

theorem forM {g : α → Compiling Unit} {as : List α} (h : ∀ a ∈ as, Spares view (g a)) :
    Spares view (as.forM g) := by
  induction as with
  | nil => exact pure ()
  | cons a as ih =>
    apply bind (h a List.mem_cons_self)
    exact fun _ => ih fun a ha => h a (List.mem_cons_of_mem _ ha)

end Spares
end Compiling

/-- What is asked of a compilation once the source text is registered. -/
inductive Request where
  | definitionFor (token : String) (expected : Category) (site : UseSite)
  | instanceOfName (n : Name) (edits : List Edit) (expected : Category) (site : UseSite)
    (span : Option Span)
  | instanceOfUsage (u : Usage) (expected : Category) (site : UseSite)
  | instanceFor (token : String) (expected : Category) (site : UseSite)
  | instanceOrEmpty (token : String) (expected : Category) (site : UseSite)
  | contentOf (id : DefId)
  | checkTag (tag : String) (site : UseSite)
  | variableValue (group key : String) (override : Option String) (site : UseSite)
  | fillIn (text : String) (site : UseSite)

namespace Request

/-- The compilation after a request, whatever its answer. -/
def after (r : Request) (c : Compilation) : Compilation :=
  match r with
  | definitionFor token expected site => (Compiling.definitionFor token expected site).after c
  | instanceOfName n edits expected site span =>
    (Compiling.instanceOfName n edits expected site span).after c
  | instanceOfUsage u expected site => (Compiling.instanceOfUsage u expected site).after c
  | instanceFor token expected site => (Compiling.instanceFor token expected site).after c
  | instanceOrEmpty token expected site => (Compiling.instanceOrEmpty token expected site).after c
  | contentOf id => (Compiling.contentOf id).after c
  | checkTag tag site => (Compiling.checkTag tag site).after c
  | variableValue group key override site =>
    (Compiling.variableValue group key override site).after c
  | fillIn text site => (Compiling.fillIn text site).after c

/-- The compilation after one request after another. -/
def afterAll (rs : List Request) (c : Compilation) : Compilation :=
  rs.foldl (fun c r => r.after c) c

end Request

namespace Request

open Compiling Environment

variable {I : Library → Session → Prop}

theorem instanceOfName_resolves (hI : Kept I) (n : Name) (edits : List Edit) (expected : Category)
    (site : UseSite) (span : Option Span) :
    Resolves I (Compiling.instanceOfName n edits expected site span) := by
  apply Resolves.recording hI
  apply Resolves.resolving
  intro env
  exact .of_gives (instanceOf_gives (hI env.library) n edits expected)

theorem instanceFor_resolves (hI : Kept I) (token : String) (expected : Category)
    (site : UseSite) : Resolves I (Compiling.instanceFor token expected site) := by
  apply Resolves.bind
  · exact .recording hI none (.parseName token)
  · intro n
    exact instanceOfName_resolves hI n [] expected site none

theorem contentOf_resolves (hI : Kept I) (id : DefId) : Resolves I (Compiling.contentOf id) := by
  apply Resolves.bind .get
  intro c
  split
  · exact .recording hI none (.throw _)
  · apply Resolves.recording hI
    exact .resolving fun env => (hI env.library).content id

/-- A request changes nothing but the session, and keeps of that what content look-ups keep. -/
theorem after_resolves (hI : Kept I) (r : Request) (c : Compilation) :
    ∃ s, r.after c = { c with session := s } ∧
      (I c.library c.session → I c.library s) := by
  cases r with
  | definitionFor token expected site =>
    apply Resolves.recording hI
    apply Resolves.bind (.parseName token)
    intro n
    exact .bind .get fun c => .lift _
  | instanceOfName n edits expected site span =>
    exact instanceOfName_resolves hI n edits expected site span c
  | instanceOfUsage u expected site =>
    exact instanceOfName_resolves hI u.name u.edits expected site u.span c
  | instanceFor token expected site => exact instanceFor_resolves hI token expected site c
  | instanceOrEmpty token expected site =>
    apply Resolves.tryCatch (instanceFor_resolves hI token expected site)
    intro failure
    cases failure with
    | refused e => exact .pure _
    | fault f => exact .throw _
  | contentOf id => exact contentOf_resolves hI id c
  | checkTag tag site =>
    apply Resolves.recording hI
    exact .bind .get fun c => .lift _
  | variableValue group key override site =>
    apply Resolves.recording hI
    apply Resolves.bind (.parseName group)
    intro n
    exact .resolving fun env => variableValue_keeps (hI env.library) n key override
  | fillIn text site =>
    apply Resolves.resolving
    exact fun env => fillIn_keeps (hI env.library) site.home text

theorem afterAll_resolves (hI : Kept I) (rs : List Request) (c : Compilation) :
    ∃ s, afterAll rs c = { c with session := s } ∧
      (I c.library c.session → I c.library s) := by
  induction rs generalizing c with
  | nil => exact ⟨c.session, rfl, fun h => h⟩
  | cons r rs ih =>
    obtain ⟨s, hs, hIs⟩ := r.after_resolves hI c
    obtain ⟨t, ht, hIt⟩ := ih (r.after c)
    rw [hs] at ht hIt
    refine ⟨t, ?_, fun h => hIt (hIs h)⟩
    rw [afterAll, List.foldl_cons, hs]
    exact ht

end Request
end Stencil
