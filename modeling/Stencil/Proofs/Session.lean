import Stencil.Library.Session

/-! # What resolution keeps of its session

A resolution is judged by an invariant of the session and a condition on its result. The invariant
has to hold in whatever session the resolution leaves, also where it fails, because what it has
remembered and reported outlasts the failure.
-/
namespace Stencil

/-- The session after one more diagnostic. -/
def Session.reporting (s : Session) (e : Problem) (span : Option Span) : Session :=
  { s with diagnostics := s.diagnostics.report e span }

/-- The session after something was remembered of a definition. -/
def Session.remembering (s : Session) (id : DefId) (known : Except Problem Content) : Session :=
  { s with cache := s.cache.insert id known }

@[simp] theorem Session.get?_remembering (s : Session) (id id' : DefId)
    (known : Except Problem Content) :
    (s.remembering id known).cache.get? id' = if id = id' then some known else s.cache.get? id' :=
  s.cache.get?_insert id id' known

@[simp] theorem Session.diagnostics_remembering (s : Session) (id : DefId)
    (known : Except Problem Content) : (s.remembering id known).diagnostics = s.diagnostics := rfl

theorem Except.map_eq_ok {ε α β : Type} {f : α → β} {x : Except ε α} {b : β} :
    x.map f = .ok b ↔ ∃ a, x = .ok a ∧ f a = b := by
  cases x <;> simp [Except.map]

theorem Except.map_eq_error {ε α β : Type} {f : α → β} {x : Except ε α} {e : ε} :
    x.map f = .error e ↔ x = .error e := by
  cases x <;> simp [Except.map]

namespace Resolving

variable {α β : Type} {I : Session → Prop}

/-- What a resolution gives. -/
def outcome (x : Resolving α) (s : Session) : Except Failure α := (x.run s).1

/-- The session that a resolution leaves. -/
def after (x : Resolving α) (s : Session) : Session := (x.run s).2

/-- From a session that satisfies `I` the outcome satisfies `Q`, and `I` holds afterwards. -/
def Yields (I : Session → Prop) (x : Resolving α) (Q : Except Failure α → Prop) : Prop :=
  ∀ s, I s → Q (x.outcome s) ∧ I (x.after s)

theorem run_bind (x : Resolving α) (f : α → Resolving β) (s : Session) :
    (x >>= f).run s =
      match x.outcome s with
      | .ok a => (f a).run (x.after s)
      | .error e => (.error e, x.after s) := by
  simp only [outcome, after, ExceptT.run, bind, ExceptT.bind, ExceptT.mk, StateT.bind,
    ExceptT.bindCont]
  rcases x s with ⟨e | a, s'⟩ <;> rfl

theorem outcome_bind_eq_ok {x : Resolving α} {f : α → Resolving β} {s : Session} {b : β} :
    (x >>= f).outcome s = .ok b ↔
      ∃ a, x.outcome s = .ok a ∧ (f a).outcome (x.after s) = .ok b := by
  rw [outcome, run_bind]
  cases x.outcome s with
  | ok a => simp [outcome]
  | error e => simp

theorem run_attempt (x : Resolving α) (s : Session) :
    x.attempt.run s = ((Failure.settle (x.outcome s)).mapError .fault, x.after s) := by
  simp only [attempt, outcome, after, tryCatch, tryCatchThe, MonadExceptOf.tryCatch, ExceptT.run,
    ExceptT.tryCatch, ExceptT.mk, Functor.map, ExceptT.map, bind, StateT.bind]
  rcases x s with ⟨(e | f) | a, s'⟩ <;> rfl

theorem run_attempt_bind_of_ok {x : Resolving α} {k : Except Problem α → Resolving β}
    {s : Session} {a : α} (h : x.outcome s = .ok a) :
    (attempt x >>= k).run s = (k (.ok a)).run (x.after s) := by
  rw [run_bind, outcome, after, run_attempt, h]
  rfl

theorem run_attempt_bind_of_refused {x : Resolving α} {k : Except Problem α → Resolving β}
    {s : Session} {e : Problem} (h : x.outcome s = .error (.refused e)) :
    (attempt x >>= k).run s = (k (.error e)).run (x.after s) := by
  rw [run_bind, outcome, after, run_attempt, h]
  rfl

namespace Yields

variable {x : Resolving α} {f : α → Resolving β} {P Q : Except Failure α → Prop}
  {R : Except Failure β → Prop}

theorem mono (h : Yields I x P) (hPQ : ∀ r, P r → Q r) : Yields I x Q :=
  fun s hs => ⟨hPQ _ (h s hs).1, (h s hs).2⟩

theorem bind (hx : Yields I x P) (hok : ∀ a, P (.ok a) → Yields I (f a) R)
    (herror : ∀ e, P (.error e) → R (.error e)) : Yields I (x >>= f) R := by
  intro s hs
  obtain ⟨hP, hI⟩ := hx s hs
  rw [outcome, after, run_bind]
  cases h : x.outcome s with
  | ok a => exact hok a (h ▸ hP) _ hI
  | error e => exact ⟨herror e (h ▸ hP), hI⟩

theorem pure {a : α} (h : Q (.ok a)) : Yields I (pure a) Q := fun _ hs => ⟨h, hs⟩

theorem throw {e : Failure} (h : Q (.error e)) : Yields I (throw e) Q := fun _ hs => ⟨h, hs⟩

theorem refuse {e : Problem} (h : Q (.error (.refused e))) : Yields I (refuse e) Q := throw h

theorem lift {r : Except Failure α} (h : Q r) : Yields I (liftM r) Q := by
  cases r <;> exact fun _ hs => ⟨h, hs⟩

theorem liftFault {r : Except Fault α} (h : Q (r.mapError .fault)) : Yields I (liftM r) Q :=
  fun _ hs => ⟨h, hs⟩

theorem liftProblem {r : Except Problem α} (h : Q (r.mapError .refused)) :
    Yields I (liftM r) Q :=
  fun _ hs => ⟨h, hs⟩

theorem report {e : Problem} {span : Option Span} {Q : Except Failure Unit → Prop}
    (hI : ∀ s, I s → I (s.reporting e span)) (h : Q (.ok ())) : Yields I (report e span) Q :=
  fun s hs => ⟨h, hI s hs⟩

theorem reportAll {es : List Problem} {Q : Except Failure Unit → Prop}
    (hI : ∀ s e, I s → I (s.reporting e none)) (h : Q (.ok ())) : Yields I (reportAll es) Q := by
  induction es with
  | nil => exact pure h
  | cons e es ih =>
    exact bind (P := fun r => r = .ok ()) (report (fun s => hI s e) rfl) (fun _ _ => ih) nofun

theorem remembered {id : DefId} {Q : Except Failure (Option (Except Problem Content)) → Prop}
    (h : ∀ s, I s → Q (.ok (s.cache.get? id))) : Yields I (remembered id) Q :=
  fun s hs => ⟨h s hs, hs⟩

theorem remember {id : DefId} {known : Except Problem Content} {Q : Except Failure Unit → Prop}
    (hI : ∀ s, I s → I (s.remembering id known)) (h : Q (.ok ())) :
    Yields I (remember id known) Q :=
  fun s hs => ⟨h, hI s hs⟩

theorem attempt {Q : Except Failure (Except Problem α) → Prop} (hx : Yields I x P)
    (hok : ∀ a, P (.ok a) → Q (.ok (.ok a)))
    (hrefused : ∀ e, P (.error (.refused e)) → Q (.ok (.error e)))
    (hfault : ∀ f, P (.error (.fault f)) → Q (.error (.fault f))) : Yields I (attempt x) Q := by
  intro s hs
  obtain ⟨hP, hI⟩ := hx s hs
  rw [outcome, after, run_attempt]
  refine ⟨?_, hI⟩
  rcases h : x.outcome s with (e | f) | a
  · exact hrefused e (h ▸ hP)
  · exact hfault f (h ▸ hP)
  · exact hok a (h ▸ hP)

end Yields

/-- From a session that satisfies `I` any result satisfies `P`, and `I` holds afterwards. -/
def Gives (I : Session → Prop) (x : Resolving α) (P : α → Prop) : Prop :=
  Yields I x fun r => ∀ a, r = .ok a → P a

namespace Gives

variable {x : Resolving α} {f : α → Resolving β} {P : α → Prop} {Q : β → Prop}

theorem of_yields {R : Except Failure α → Prop} (h : Yields I x R) (hR : ∀ a, R (.ok a) → P a) :
    Gives I x P :=
  h.mono fun _ hr a ha => hR a (ha ▸ hr)

theorem mono {P' : α → Prop} (h : Gives I x P) (hP : ∀ a, P a → P' a) : Gives I x P' :=
  Yields.mono h fun _ hr a ha => hP a (hr a ha)

theorem bind (hx : Gives I x P) (hf : ∀ a, P a → Gives I (f a) Q) : Gives I (x >>= f) Q :=
  Yields.bind hx (fun a ha => hf a (ha a rfl)) nofun

theorem pure {a : α} (h : P a) : Gives I (pure a) P :=
  Yields.pure fun _ ha => Except.ok.inj ha ▸ h

theorem throw (e : Failure) : Gives I (throw e) P := Yields.throw nofun

theorem refuse (e : Problem) : Gives I (refuse e) P := throw _

theorem lift {r : Except Failure α} (h : ∀ a, r = .ok a → P a) : Gives I (liftM r) P :=
  Yields.lift h

theorem liftFault {r : Except Fault α} (h : ∀ a, r = .ok a → P a) : Gives I (liftM r) P := by
  apply Yields.liftFault
  cases r with
  | ok b => intro a ha; exact h a (congrArg Except.ok (Except.ok.inj ha))
  | error f => nofun

theorem liftProblem {r : Except Problem α} (h : ∀ a, r = .ok a → P a) : Gives I (liftM r) P := by
  apply Yields.liftProblem
  cases r with
  | ok b => intro a ha; exact h a (congrArg Except.ok (Except.ok.inj ha))
  | error e => nofun

theorem attempt (hx : Gives I x P) : Gives I (attempt x) fun r => ∀ a, r = .ok a → P a := by
  refine Yields.attempt hx ?_ ?_ ?_
  · intro a ha r hr b hb
    cases hr
    exact ha b (congrArg Except.ok (Except.ok.inj hb))
  · intro e _ r hr b hb
    cases hr
    cases hb
  · nofun

/-- What each step keeps, a fold over a list keeps. -/
theorem foldlM {f : β → α → Resolving β} {as : List α}
    (hf : ∀ b, ∀ a ∈ as, Q b → Gives I (f b a) Q) {b : β} (hb : Q b) :
    Gives I (as.foldlM f b) Q := by
  induction as generalizing b with
  | nil => exact pure hb
  | cons a as ih =>
    rw [List.foldlM_cons]
    apply bind (hf b a List.mem_cons_self hb)
    intro b hb
    exact ih (fun b a ha => hf b a (List.mem_cons_of_mem _ ha)) hb

end Gives

/-- `I` holds afterwards if it holds before. -/
abbrev Keeps (I : Session → Prop) (x : Resolving α) : Prop := Gives I x fun _ => True

namespace Keeps

variable {x : Resolving α} {f : α → Resolving β}

theorem of_gives {P : α → Prop} (h : Gives I x P) : Keeps I x := h.mono fun _ _ => trivial

theorem of_yields {P : Except Failure α → Prop} (h : Yields I x P) : Keeps I x :=
  Gives.of_yields h fun _ _ => trivial

theorem lift (r : Except Failure α) : Keeps I (liftM r) := Gives.lift fun _ _ => trivial

theorem liftFault (r : Except Fault α) : Keeps I (liftM r) := Gives.liftFault fun _ _ => trivial

theorem liftProblem (r : Except Problem α) : Keeps I (liftM r) :=
  Gives.liftProblem fun _ _ => trivial

theorem report {e : Problem} {span : Option Span}
    (hI : ∀ s e span, I s → I (s.reporting e span)) : Keeps I (report e span) :=
  Yields.report (fun s => hI s e span) fun _ _ => trivial

theorem reportAll {es : List Problem}
    (hI : ∀ s e span, I s → I (s.reporting e span)) : Keeps I (reportAll es) :=
  Yields.reportAll (fun s e => hI s e none) fun _ _ => trivial

theorem remember {id : DefId} {known : Except Problem Content}
    (hI : ∀ s, I s → I (s.remembering id known)) : Keeps I (remember id known) :=
  Yields.remember hI fun _ _ => trivial

theorem attempt (hx : Keeps I x) : Keeps I (attempt x) := of_gives (Gives.attempt hx)

theorem mapM (hf : ∀ a, Keeps I (f a)) (as : List α) : Keeps I (as.mapM f) := by
  induction as with
  | nil => exact .pure trivial
  | cons a as ih =>
    rw [List.mapM_cons]
    apply (hf a).bind
    intro b _
    apply ih.bind
    exact fun bs _ => .pure trivial

end Keeps
end Resolving
end Stencil
