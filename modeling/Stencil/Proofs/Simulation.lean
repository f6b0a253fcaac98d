import Mathlib.Data.List.Forall2
import Stencil.Proofs.Lookup
import Stencil.Proofs.Session

/-! # Two calls side by side

Two calls on different tables are compared by what they give. A strict comparison is also about errors:
then the second call fails as the first does. Otherwise it is only about what the first call gives, and
the second may give something where the first fails.
-/
namespace Stencil

section Judgements

variable {α β α' β' : Type} {strict : Prop}

/-- Both look-ups give something, and what they give is related. -/
def Pairs (R : α → α' → Prop) (x : Except Fault α) (y : Except Fault α') : Prop :=
  ∃ a b, x = .ok a ∧ y = .ok b ∧ R a b

namespace Pairs

variable {R : α → α' → Prop} {Q : β → β' → Prop} {x : Except Fault α} {y : Except Fault α'}

theorem pure {a : α} {b : α'} (h : R a b) : Pairs R (pure a) (pure b) := ⟨a, b, rfl, rfl, h⟩

theorem bind {f : α → Except Fault β} {g : α' → Except Fault β'} (hx : Pairs R x y)
    (hf : ∀ a b, R a b → Pairs Q (f a) (g b)) : Pairs Q (x >>= f) (y >>= g) := by
  obtain ⟨a, b, rfl, rfl, hab⟩ := hx
  exact hf a b hab

theorem mono {R' : α → α' → Prop} (h : Pairs R x y) (hR : ∀ a b, R a b → R' a b) :
    Pairs R' x y := by
  obtain ⟨a, b, hx, hy, hab⟩ := h
  exact ⟨a, b, hx, hy, hR a b hab⟩

theorem mapM {as : List α} {bs : List α'} (h : List.Forall₂ R as bs) {f : α → Except Fault β}
    {g : α' → Except Fault β'} (hf : ∀ a b, R a b → Pairs Q (f a) (g b)) :
    Pairs (List.Forall₂ Q) (as.mapM f) (bs.mapM g) := by
  induction h with
  | nil => exact pure .nil
  | cons hab _ ih =>
    rw [List.mapM_cons, List.mapM_cons]
    apply (hf _ _ hab).bind
    intro c d hcd
    apply ih.bind
    exact fun cs ds hcds => pure (.cons hcd hcds)

theorem findSomeM? {as : List α} {bs : List α'} (h : List.Forall₂ R as bs)
    {f : α → Except Fault (Option β)} {g : α' → Except Fault (Option β')}
    (hf : ∀ a b, R a b → Pairs (Option.Rel Q) (f a) (g b)) :
    Pairs (Option.Rel Q) (as.findSomeM? f) (bs.findSomeM? g) := by
  induction h with
  | nil => exact pure .none
  | cons hab _ ih =>
    apply (hf _ _ hab).bind
    intro r r' hr
    cases hr with
    | some hcd => exact pure (.some hcd)
    | none => exact ih

theorem findM? {as : List α} {bs : List α'} (h : List.Forall₂ R as bs)
    {f : α → Except Fault Bool} {g : α' → Except Fault Bool}
    (hf : ∀ a b, R a b → Pairs (· = ·) (f a) (g b)) :
    Pairs (Option.Rel R) (as.findM? f) (bs.findM? g) := by
  induction h with
  | nil => exact pure .none
  | cons hab _ ih =>
    apply (hf _ _ hab).bind
    rintro r _ rfl
    cases r with
    | true => exact pure (.some hab)
    | false => exact ih

end Pairs

theorem findSomeM?_append (as bs : List α) (f : α → Except Fault (Option β)) :
    (as ++ bs).findSomeM? f = (do
      match ← as.findSomeM? f with
      | some b => return some b
      | none => bs.findSomeM? f) := by
  induction as with
  | nil => rfl
  | cons a as ih =>
    rw [List.cons_append, List.findSomeM?, List.findSomeM?, ih]
    cases f a with
    | error e => rfl
    | ok r => cases r <;> rfl

/-- The second search goes on where the first ends. -/
theorem Pairs.findSomeM?_append {R : α → α' → Prop} {Q : β → β' → Prop} {as : List α}
    {bs rest : List α'} (h : List.Forall₂ R as bs) {f : α → Except Fault (Option β)}
    {g : α' → Except Fault (Option β')} {P : Option β' → Prop}
    (hf : ∀ a b, R a b → Pairs (Option.Rel Q) (f a) (g b)) (hrest : Finds (rest.findSomeM? g) P) :
    Pairs (fun r r' => Option.Rel Q r r' ∨ r = none ∧ P r') (as.findSomeM? f)
      ((bs ++ rest).findSomeM? g) := by
  obtain ⟨r, r', hr, hr', hrel⟩ := Pairs.findSomeM? h hf
  rw [Stencil.findSomeM?_append, hr, hr']
  cases hrel with
  | some hcd => exact .pure (.inl (.some hcd))
  | none =>
    obtain ⟨found, hfound, hP⟩ := hrest
    exact ⟨none, found, rfl, hfound, .inr ⟨rfl, hP⟩⟩

/-- If the first call gives something, the second gives something related. If errors count, it fails as
the first does. -/
def Carries (strict : Prop) (R : α → α' → Prop) (x : Except Failure α) (y : Except Failure α') :
    Prop :=
  match x with
  | .ok a => ∃ b, y = .ok b ∧ R a b
  | .error e => strict → y = .error e

namespace Carries

variable {R : α → α' → Prop} {Q : β → β' → Prop}

theorem bind {x : Except Failure α} {y : Except Failure α'} {f : α → Except Failure β}
    {g : α' → Except Failure β'} (hx : Carries strict R x y)
    (hf : ∀ a b, R a b → Carries strict Q (f a) (g b)) : Carries strict Q (x >>= f) (y >>= g) := by
  cases x with
  | error e =>
    intro hstrict
    rw [hx hstrict]
    rfl
  | ok a =>
    obtain ⟨b, rfl, hab⟩ := hx
    exact hf a b hab

theorem pure {a : α} {b : α'} (h : R a b) : Carries strict R (pure a) (pure b) := ⟨b, rfl, h⟩

theorem liftProblem (x : Except Problem α) :
    Carries strict (fun a b => a = b) (liftM x) (liftM x) := by
  cases x with
  | error e => exact fun _ => rfl
  | ok a => exact ⟨a, rfl, rfl⟩

theorem lift {x : Except Fault α} {y : Except Fault α'} (h : Pairs R x y) :
    Carries strict R (liftM x) (liftM y) := by
  obtain ⟨a, b, rfl, rfl, hab⟩ := h
  exact ⟨b, rfl, hab⟩

/-- Where the first call fails, only a strict comparison asks for more. -/
theorem of_fails {R : α → α → Prop} {x y : Except Failure α} (hx : ∀ a, x ≠ .ok a)
    (h : strict → y = x) : Carries strict R x y := by
  cases x with
  | error e => exact h
  | ok a => exact absurd rfl (hx a)

theorem ok {x : Except Failure α} {y : Except Failure α'} (h : Carries strict R x y) {a : α}
    (hx : x = .ok a) : ∃ b, y = .ok b ∧ R a b := by
  subst hx
  exact h

/-- Under a strict comparison the first call has given something if the second has. -/
theorem of_ok {x : Except Failure α} {y : Except Failure α'} (h : Carries strict R x y)
    (hstrict : strict) {b : α'} (hy : y = .ok b) : ∃ a, x = .ok a ∧ R a b := by
  cases x with
  | error e =>
    rw [h hstrict] at hy
    cases hy
  | ok a =>
    obtain ⟨b', hb', hab⟩ := h
    obtain rfl := Except.ok.inj (hb'.symm.trans hy)
    exact ⟨a, rfl, hab⟩

theorem eq {x y : Except Failure α} (h : Carries strict (fun a b => a = b) x y) (hstrict : strict) :
    x = y := by
  cases x with
  | error e => exact (h hstrict).symm
  | ok a =>
    obtain ⟨b, rfl, rfl⟩ := h
    rfl

end Carries
end Judgements

namespace Resolving

variable {α β α' β' : Type} {strict : Prop} {I : Session → Session → Prop}

/-- From related sessions: if the first resolution gives something, the second gives something
related, and the sessions stay related. If errors count, it fails as the first does. -/
def Simulates (strict : Prop) (I : Session → Session → Prop) (R : α → α' → Prop)
    (x : Resolving α) (y : Resolving α') : Prop :=
  ∀ s t, I s t →
    match x.outcome s with
    | .ok a => ∃ b, y.outcome t = .ok b ∧ R a b ∧ I (x.after s) (y.after t)
    | .error e => strict → y.outcome t = .error e

namespace Simulates

variable {R : α → α' → Prop} {Q : β → β' → Prop} {x : Resolving α} {y : Resolving α'}

theorem carries (h : Simulates strict I R x y) {s t : Session} (hst : I s t) :
    Carries strict R (x.outcome s) (y.outcome t) := by
  have hrun := h s t hst
  cases hx : x.outcome s with
  | error e =>
    rw [hx] at hrun
    exact hrun
  | ok a =>
    rw [hx] at hrun
    obtain ⟨b, hb, hab, -⟩ := hrun
    exact ⟨b, hb, hab⟩

theorem pure {a : α} {b : α'} (h : R a b) : Simulates strict I R (pure a) (pure b) :=
  fun _ _ hst => ⟨b, rfl, h, hst⟩

theorem throw (e : Failure) : Simulates strict I R (throw e) (throw e) :=
  fun _ _ _ _ => rfl

theorem bind {f : α → Resolving β} {g : α' → Resolving β'} (hx : Simulates strict I R x y)
    (hf : ∀ a b, R a b → Simulates strict I Q (f a) (g b)) :
    Simulates strict I Q (x >>= f) (y >>= g) := by
  intro s t hst
  have hrun := hx s t hst
  rw [outcome, outcome, after, after, run_bind, run_bind]
  cases hout : x.outcome s with
  | error e =>
    rw [hout] at hrun
    intro hstrict
    rw [hrun hstrict]
  | ok a =>
    rw [hout] at hrun
    obtain ⟨b, hb, hab, hI⟩ := hrun
    rw [hb]
    exact hf a b hab _ _ hI

theorem lift_bind {r : Except Failure α} {r' : Except Failure α'} {f : α → Resolving β}
    {g : α' → Resolving β'} (h : Carries strict R r r')
    (hf : ∀ a b, r = .ok a → R a b → Simulates strict I Q (f a) (g b)) :
    Simulates strict I Q ((liftM r : Resolving α) >>= f) ((liftM r' : Resolving α') >>= g) := by
  cases r with
  | error e =>
    intro s t _ hstrict
    rw [h hstrict]
    rfl
  | ok a =>
    obtain ⟨b, rfl, hab⟩ := h
    exact hf a b rfl hab

theorem liftFault {r : Except Fault α} {r' : Except Fault α'} (h : Pairs R r r') :
    Simulates strict I R (liftM r) (liftM r') := by
  obtain ⟨a, b, rfl, rfl, hab⟩ := h
  exact pure hab

theorem liftProblem (r : Except Problem α) :
    Simulates strict I (fun a b => a = b) (liftM r) (liftM r) := by
  cases r with
  | error e => exact throw _
  | ok a => exact pure rfl

theorem report (hI : ∀ s t, I s t → ∀ e e', I (s.reporting e none) (t.reporting e' none))
    (e e' : Problem) :
    Simulates strict I (fun _ _ => True) (report e none) (report e' none) :=
  fun s t hst => ⟨(), rfl, trivial, hI s t hst e e'⟩

theorem reportAll (hI : ∀ s t, I s t → ∀ e e', I (s.reporting e none) (t.reporting e' none))
    (es : List Problem) :
    Simulates strict I (fun _ _ => True) (reportAll es) (reportAll es) := by
  induction es with
  | nil => exact pure trivial
  | cons e es ih => exact bind (report hI e e) fun _ _ _ => ih

theorem foldlM {γ : Type} {f : α → γ → Resolving α} {g : α' → γ → Resolving α'} {cs : List γ}
    (hf : ∀ a b, R a b → ∀ c ∈ cs, Simulates strict I R (f a c) (g b c)) {a : α} {b : α'}
    (hab : R a b) : Simulates strict I R (cs.foldlM f a) (cs.foldlM g b) := by
  induction cs generalizing a b with
  | nil => exact pure hab
  | cons c cs ih =>
    rw [List.foldlM_cons, List.foldlM_cons]
    apply bind (hf a b hab c List.mem_cons_self)
    exact fun a b hab => ih (fun a b hab c hc => hf a b hab c (List.mem_cons_of_mem _ hc)) hab

end Simulates
end Resolving
end Stencil
