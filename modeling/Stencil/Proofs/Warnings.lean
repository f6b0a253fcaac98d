import Stencil.Proofs.Composition
import Stencil.Proofs.Lookup

/-! # Warnings and errors

While content is worked out, what is wrong ends the call, and only warnings are reported. Expansion is
the other way round: what is wrong with a use is reported, and the call goes on without it. So a call for
an instance that is refused has reported warnings only, because nothing is refused once expansion has
begun.
-/
namespace Stencil

/-- Diagnostics were added, all of them warnings. -/
def Diagnostics.Warned (ds ds' : Diagnostics) : Prop :=
  ∃ warnings, ds' = ds ++ warnings ∧ ∀ w ∈ warnings, w.isWarning = true

namespace Diagnostics.Warned

variable {ds ds' ds'' : Diagnostics}

theorem refl (ds : Diagnostics) : Warned ds ds := ⟨[], by simp, by simp⟩

theorem trans (h : Warned ds ds') (h' : Warned ds' ds'') : Warned ds ds'' := by
  obtain ⟨ws, rfl, hws⟩ := h
  obtain ⟨ws', rfl, hws'⟩ := h'
  refine ⟨ws ++ ws', List.append_assoc .., fun w hw => ?_⟩
  exact (List.mem_append.1 hw).elim (hws w) (hws' w)

theorem report {e : Problem} (span : Option Span) (he : e.severity = .warning)
    (h : Warned ds ds') : Warned ds (ds'.report e span) :=
  h.trans ⟨[.ofError e span], rfl, by simp [Diagnostic.isWarning, Diagnostic.ofError, he]⟩

theorem le (h : Warned ds ds') : ds <+: ds' := by
  obtain ⟨ws, rfl, -⟩ := h
  exact List.prefix_append ds ws

end Diagnostics.Warned

/-- A failure that counts as an error. -/
def Failure.Severe : Failure → Prop
  | .refused e => e.severity = .error
  | .fault _ => True

/-- A failure that no source text causes. -/
def Failure.IsFault : Failure → Prop
  | .refused _ => False
  | .fault _ => True

/-- Every failure of the call satisfies `E`. -/
def FailsWith {α : Type} (E : Failure → Prop) (r : Except Failure α) : Prop :=
  ∀ e, r = .error e → E e

namespace FailsWith

variable {α β : Type} {E : Failure → Prop}

theorem ok (a : α) : FailsWith E (.ok a) := nofun

theorem error {e : Failure} (h : E e) : FailsWith E (.error e : Except Failure α) := by
  rintro _ ⟨⟩
  exact h

theorem bind {x : Except Failure α} {f : α → Except Failure β} (hx : FailsWith E x)
    (hf : ∀ a, x = .ok a → FailsWith E (f a)) : FailsWith E (x >>= f) := by
  cases x with
  | error e => exact error (hx e rfl)
  | ok a => exact hf a rfl

theorem lift_bind {r : Except Fault α} {f : α → Except Failure β} (hE : ∀ f, E (.fault f))
    (hf : ∀ a, r = .ok a → FailsWith E (f a)) :
    FailsWith E ((liftM r : Except Failure α) >>= f) := by
  cases r with
  | error f => exact error (hE f)
  | ok a => exact hf a rfl

theorem liftProblem {r : Except Problem α} (h : ∀ e, r = .error e → E (.refused e)) :
    FailsWith E (liftM r : Except Failure α) := by
  cases r with
  | error e => exact error (h e rfl)
  | ok a => exact ok a

end FailsWith

namespace Resolving

variable {α β : Type} {I : Session → Prop} {E : Failure → Prop}

/-- `I` is kept, and every failure satisfies `E`. -/
abbrev Fails (I : Session → Prop) (E : Failure → Prop) (x : Resolving α) : Prop :=
  Yields I x (FailsWith E)

namespace Fails

variable {x : Resolving α} {f : α → Resolving β}

theorem pure (a : α) : Fails I E (pure a) := Yields.pure (.ok a)

theorem throw {e : Failure} (h : E e) : Fails I E (throw e : Resolving α) := Yields.throw (.error h)

theorem bind (hx : Fails I E x) (hf : ∀ a, Fails I E (f a)) : Fails I E (x >>= f) :=
  Yields.bind hx (fun a _ => hf a) fun e he => .error (he e rfl)

theorem liftFault_bind (hE : ∀ f, E (.fault f)) {r : Except Fault α}
    (hf : ∀ a, r = .ok a → Fails I E (f a)) : Fails I E ((liftM r : Resolving α) >>= f) := by
  cases r with
  | error f => exact throw (hE f)
  | ok a => exact hf a rfl

theorem lift_bind {r : Except Failure α} (hr : FailsWith E r)
    (hf : ∀ a, r = .ok a → Fails I E (f a)) : Fails I E ((liftM r : Resolving α) >>= f) := by
  cases r with
  | error e => exact throw (hr e rfl)
  | ok a => exact hf a rfl

theorem liftProblem {r : Except Problem α} (h : ∀ e, r = .error e → E (.refused e)) :
    Fails I E (liftM r) :=
  Yields.liftProblem (.liftProblem h)

theorem reportAll {es : List Problem} (hI : ∀ e ∈ es, ∀ s, I s → I (s.reporting e none)) :
    Fails I E (reportAll es) := by
  induction es with
  | nil => exact pure ()
  | cons e es ih =>
    apply bind (Yields.report (hI e List.mem_cons_self) (.ok ()))
    exact fun _ => ih fun e he => hI e (List.mem_cons_of_mem _ he)

theorem attempt (hE : ∀ f, E (.fault f)) (hx : Keeps I x) : Fails I E (attempt x) :=
  Yields.attempt hx (fun _ _ => .ok _) (fun _ _ => .ok _) fun f _ => .error (hE f)

/-- What a resolution was refused for is known to satisfy `E` afterwards. -/
theorem attempt_bind {f : Except Problem α → Resolving β} (hE : ∀ f, E (.fault f))
    (hx : Fails I E x) (hok : ∀ a, Fails I E (f (.ok a)))
    (herror : ∀ e, E (.refused e) → Fails I E (f (.error e))) :
    Fails I E (Resolving.attempt x >>= f) := by
  intro s hs
  obtain ⟨hfails, hI⟩ := hx s hs
  rcases h : x.outcome s with (e | f) | a
  · rw [outcome, after, run_attempt_bind_of_refused h]
    exact herror e (hfails _ h) _ hI
  · rw [outcome, after, run_bind, outcome, after, run_attempt, h]
    exact ⟨.error (hE f), hI⟩
  · rw [outcome, after, run_attempt_bind_of_ok h]
    exact hok a _ hI

theorem foldlM {f : β → α → Resolving β} {as : List α} (hf : ∀ b, ∀ a ∈ as, Fails I E (f b a))
    (b : β) : Fails I E (as.foldlM f b) := by
  induction as generalizing b with
  | nil => exact pure b
  | cons a as ih =>
    rw [List.foldlM_cons]
    apply bind (hf b a List.mem_cons_self)
    exact fun b => ih (fun b a ha => hf b a (List.mem_cons_of_mem _ ha)) b

theorem mapM (hf : ∀ a, Fails I E (f a)) (as : List α) : Fails I E (as.mapM f) := by
  induction as with
  | nil => exact pure []
  | cons a as ih =>
    rw [List.mapM_cons]
    apply bind (hf a)
    intro b
    apply bind ih
    exact fun bs => pure _

end Fails
end Resolving

open Resolving

/-! ## What a name, a rule or an edit is refused for -/

theorem Name.severity_combine {n : Name} {expected : Category} {e : Problem}
    (h : n.combine expected = .error e) : e.severity = .error := by
  have hpart {α : Type} [DecidableEq α] {keyword : α → String} {said wanted : Option α}
      (h : n.combinePart keyword said wanted = .error e) : e.severity = .error := by
    unfold combinePart at h
    split at h
    · split at h
      · cases h
      · cases h
        rfl
    · cases h
  unfold combine at h
  cases horigin : n.combinePart Origin.keyword n.origin expected.origin with
  | error e' =>
    rw [horigin] at h
    cases h
    exact hpart horigin
  | ok origin =>
    rw [horigin] at h
    cases hkind : n.combinePart Kind.keyword n.kind expected.kind with
    | error e' =>
      simp only [hkind] at h
      cases h
      exact hpart hkind
    | ok kind =>
      simp only [hkind] at h
      cases h

namespace Library

variable {l : Library} {n : Name} {start : NamespaceId}

theorem severity_ambiguous {ids : List DefId} {e : Problem} (h : l.ambiguous n ids = .ok e) :
    e.severity = .error := by
  obtain ⟨titles, -, h⟩ := Except.bind_eq_ok h
  cases h
  rfl

theorem severity_missing {c : Category} {e : Problem} (h : l.missing start n c = .ok e) :
    e.severity = .error := by
  unfold missing at h
  split at h
  · cases h
    rfl
  · obtain ⟨found, -, h⟩ := Except.bind_eq_ok h
    split at h
    · cases h
      rfl
    · obtain ⟨d, -, h⟩ := Except.bind_eq_ok h
      cases h
      rfl

theorem resolve_severe (l : Library) (start : NamespaceId) (n : Name) (expected : Category) :
    FailsWith Failure.Severe (l.resolve start n expected) := by
  refine .bind (.liftProblem fun e he => Name.severity_combine he) fun c _ => ?_
  refine .lift_bind (fun _ => trivial) fun found _ => ?_
  cases found with
  | found id => exact .ok id
  | ambiguous ids => exact .lift_bind (fun _ => trivial) fun e he => .error (severity_ambiguous he)
  | notFound => exact .lift_bind (fun _ => trivial) fun e he => .error (severity_missing he)

theorem checkEdits_severe {d : Definition} {edits : List Edit} {e : Problem}
    (h : checkEdits d edits = .error e) : e.severity = .error := by
  unfold checkEdits at h
  split at h
  · cases h
  · cases h
    rfl

theorem overlayFor_severe {d : Definition} {gathered later : Content} {e : Problem}
    (h : overlayFor d gathered later = .error e) : e.severity = .error := by
  unfold overlayFor at h
  split at h
  · cases h
  · cases h
    rfl

end Library

theorem Edit.severity_of_mem_applyAll {base : Nat} {target : String} {edits : List Edit}
    {b : Content} {w : Problem} (h : w ∈ (applyAll base target edits b).2) :
    w.severity = .warning := by
  induction edits generalizing b with
  | nil => cases h
  | cons e edits ih =>
    rw [applyAll] at h
    split at h
    · exact ih h
    · rcases List.mem_cons.1 h with rfl | h
      · rfl
      · exact ih h

theorem Content.severity_of_mem_dropUnfilled {target : String} {b : Content} {w : Problem}
    (h : w ∈ (b.dropUnfilled target).2) : w.severity = .warning := by
  cases b with
  | style s =>
    obtain ⟨name, -, rfl⟩ := List.mem_map.1 h
    rfl
  | element nodes => cases h
  | var v => cases h

/-! ## Content -/

/-- Errors that are remembered count as errors. -/
def Session.Severe (s : Session) : Prop :=
  ∀ id e, s.cache.get? id = some (.error e) → e.severity = .error

theorem Session.Severe.remembering {s : Session} (h : s.Severe) {id : DefId}
    {known : Except Problem Content} (hknown : ∀ e, known = .error e → e.severity = .error) :
    (s.remembering id known).Severe := by
  intro id' e he
  rw [Session.get?_remembering] at he
  split at he
  · exact hknown e (Option.some.inj he)
  · exact h id' e he

/-- Since there were the diagnostics `ds`, only warnings were reported, and errors remembered. -/
structure Session.Warned (ds : Diagnostics) (s : Session) : Prop where
  diagnostics : ds.Warned s.diagnostics
  severe : s.Severe

namespace Session.Warned

variable {ds : Diagnostics} {s : Session}

theorem reporting (h : s.Warned ds) {e : Problem} (span : Option Span) (he : e.severity = .warning) :
    (s.reporting e span).Warned ds :=
  ⟨h.diagnostics.report span he, h.severe⟩

theorem remembering (h : s.Warned ds) {id : DefId} {known : Except Problem Content}
    (hknown : ∀ e, known = .error e → e.severity = .error) : (s.remembering id known).Warned ds :=
  ⟨h.diagnostics, h.severe.remembering hknown⟩

end Session.Warned

/-- Only warnings are reported, and what the resolution is refused for counts as an error. -/
abbrev Resolving.Warns {α : Type} (x : Resolving α) : Prop :=
  ∀ ds, Fails (Session.Warned ds) Failure.Severe x

namespace Library

variable {l : Library} {d : Definition} {id : DefId}

theorem exclude_warns (ancestors excluded : List DefId) (target : Name) :
    Warns (l.exclude d ancestors excluded target) := by
  intro ds
  have hwarn : Fails (Session.Warned ds) Failure.Severe (do
      report (.dangling ("delete " ++ target.render) d.identity.render) none
      return excluded) :=
    .bind (Yields.report (fun _ hs => hs.reporting none rfl) (.ok ())) fun _ => .pure _
  refine .liftFault_bind (fun _ => trivial) fun r _ => ?_
  cases r with
  | error e => exact hwarn
  | ok p =>
    change Fails _ _ (if _ then _ else _)
    split
    · exact .pure _
    · exact hwarn

theorem excludeAll_warns (edits : List Edit) (excluded : List DefId) :
    Warns (l.excludeAll id d edits excluded) := by
  intro ds
  unfold excludeAll
  dsimp only
  split
  · exact .pure _
  · refine .liftFault_bind (fun _ => trivial) fun ancestors _ => ?_
    exact .foldlM (fun excluded target _ => exclude_warns ancestors excluded target ds) _

theorem editFlat_warns {flat : List DefId → Resolving Content} (hflat : ∀ ex, Warns (flat ex))
    (edits : List Edit) (excluded : List DefId) : Warns (l.editFlat flat id edits excluded) := by
  intro ds
  unfold editFlat
  split
  · exact hflat excluded ds
  · refine .liftFault_bind (fun _ => trivial) fun d _ => ?_
    refine .bind (excludeAll_warns edits excluded ds) fun fewer => ?_
    refine .bind (hflat fewer ds) fun base => ?_
    refine .bind (.reportAll fun w hw _ hs => ?_) fun _ => .pure _
    exact hs.reporting none (Edit.severity_of_mem_applyAll hw)

theorem inherit_warns {flat : DefId → List DefId → Resolving Content} {e : Inheritance}
    (hflat : ∀ p ex, l.parentOf d e = .ok p → Warns (flat p ex)) (excluded : List DefId)
    (gathered : Content) : Warns (l.inherit d excluded flat gathered e) := by
  intro ds
  refine .lift_bind (l.resolve_severe _ _ _) fun p hp => ?_
  refine .bind (.liftProblem fun _ => checkEdits_severe) fun _ => ?_
  split
  · exact .pure _
  · refine .bind (editFlat_warns (fun ex => hflat p ex hp) e.edits excluded ds) fun inherited => ?_
    exact .liftProblem fun _ => overlayFor_severe

theorem gather_warns {flat : DefId → List DefId → Resolving Content}
    (hflat : ∀ p ex, Warns (flat p ex)) (excluded : List DefId) :
    Warns (l.gather d excluded flat) := by
  intro ds
  refine .bind (.foldlM (fun gathered e _ => ?_) _) fun gathered => ?_
  · exact inherit_warns (fun p ex _ => hflat p ex) excluded gathered ds
  · exact .liftProblem fun _ => overlayFor_severe

theorem severity_cycle {path : List DefId} {e : Problem} (h : l.cycle path id = .ok e) :
    e.severity = .error := by
  obtain ⟨ds, -, h⟩ := Except.bind_eq_ok h
  cases h
  rfl

theorem remembered_bind {ds : Diagnostics} (excluded : List DefId) {α : Type}
    {f : Option (Except Problem Content) → Resolving α}
    (hf : ∀ known, (∀ e, known = some (.error e) → e.severity = .error) →
      Fails (Session.Warned ds) Failure.Severe (f known)) :
    Fails (Session.Warned ds) Failure.Severe (remembered excluded id >>= f) := by
  unfold remembered
  split
  · exact fun s hs => hf (s.cache.get? id) (hs.severe id) s hs
  · exact hf none nofun

theorem descend_warns (path : List DefId) (id : DefId) (excluded : List DefId) :
    Warns (l.descend path id excluded) := by
  intro ds
  rw [descend]
  refine remembered_bind excluded fun known hknown => ?_
  cases known with
  | some known => exact .liftProblem fun e he => hknown e (congrArg some he)
  | none =>
    by_cases hpath : id ∈ path
    · simp only [hpath, dif_pos]
      exact .liftFault_bind (fun _ => trivial) fun e he => .throw (severity_cycle he)
    · simp only [hpath, dif_neg, not_false_eq_true]
      split
      · exact .throw trivial
      · rename_i d hd
        refine .bind (gather_warns (fun p ex => ?_) excluded ds) fun body => ?_
        · -- Each step down leaves one definition fewer that is not on the path.
          have := Arena.unvisited_cons_lt hd hpath
          exact descend_warns (id :: path) p ex
        · split
          · refine .bind (Yields.remember (fun s hs => hs.remembering fun e he => by cases he) (.ok ())) fun _ => ?_
            exact .pure _
          · exact .pure _
termination_by l.definitions.unvisited path

theorem content_warns (id : DefId) : Warns (l.content id) := by
  intro ds
  refine remembered_bind [] fun known hknown => ?_
  cases known with
  | some known => exact .liftProblem fun e he => hknown e (congrArg some he)
  | none =>
    refine .attempt_bind (fun _ => trivial) (descend_warns [] id [] ds) .pure fun e he => ?_
    refine .bind (Yields.remember (fun s hs => hs.remembering ?_) (.ok ())) fun _ => .throw he
    rintro _ ⟨⟩
    exact he

theorem contentEdited_warns (id : DefId) (edits : List Edit) : Warns (l.contentEdited id edits) := by
  intro ds
  refine .liftFault_bind (fun _ => trivial) fun d _ => ?_
  refine .bind (.liftProblem fun _ => checkEdits_severe) fun _ => ?_
  exact editFlat_warns (fun ex => descend_warns [] id ex) edits [] ds

end Library

/-! ## Rules and variables -/

mutual

theorem Node.forTags_failsWith {E : Failure → Prop} {check : String → Except Failure Unit}
    (h : ∀ tag, FailsWith E (check tag)) (n : Node) : FailsWith E (n.forTags check) := by
  match n with
  | .text t => exact .ok ()
  | .usage u => exact .ok ()
  | .element ⟨tag, _, _, children⟩ =>
    rw [Node.forTags]
    exact .bind (h tag) fun _ _ => Node.forTagsIn_failsWith h children

theorem Node.forTagsIn_failsWith {E : Failure → Prop} {check : String → Except Failure Unit}
    (h : ∀ tag, FailsWith E (check tag)) (ns : List Node) :
    FailsWith E (Node.forTagsIn check ns) := by
  match ns with
  | [] => exact .ok ()
  | n :: ns =>
    rw [Node.forTagsIn]
    exact .bind (Node.forTags_failsWith h n) fun _ _ => Node.forTagsIn_failsWith h ns

end

theorem Content.forTags_failsWith {E : Failure → Prop} {check : String → Except Failure Unit}
    (h : ∀ tag, FailsWith E (check tag)) (b : Content) : FailsWith E (b.forTags check) := by
  cases b with
  | element nodes => exact Node.forTagsIn_failsWith h nodes
  | style s => exact .ok ()
  | var v => exact .ok ()

namespace Environment

variable {env : Environment} {site : UseSite}

theorem checkUse_severe (target : Use) : FailsWith Failure.Severe (env.checkUse site target) := by
  refine .lift_bind (fun _ => trivial) fun found _ => ?_
  cases found with
  | none => exact .ok ()
  | some r => exact .error rfl

theorem checkUseOf_severe (id : DefId) : FailsWith Failure.Severe (env.checkUseOf site id) :=
  .lift_bind (fun _ => trivial) fun _ _ => checkUse_severe _

theorem resolveUse_severe (n : Name) (expected : Category) :
    FailsWith Failure.Severe (env.resolveUse site n expected) :=
  .bind (env.library.resolve_severe _ _ _) fun id _ =>
    .bind (checkUseOf_severe id) fun _ _ => .ok id

theorem valueIn_warns (id : DefId) (group : Name) (key : String) (override : Option String) :
    Warns (env.valueIn id group key override) := by
  intro ds
  refine .bind (Library.content_warns id ds) fun body => ?_
  split
  · exact .throw rfl
  · exact .pure _

theorem variableValue_warns (group : Name) (key : String) (override : Option String) :
    Warns (env.variableValue site group key override) :=
  fun ds => .lift_bind (resolveUse_severe group _) fun id _ => valueIn_warns id group key override ds

end Environment

/-! ## Expansion -/

/-- The diagnostics `ds` are still there, and errors that are remembered count as errors. -/
structure Session.Reported (ds : Diagnostics) (s : Session) : Prop where
  le : ds <+: s.diagnostics
  severe : s.Severe

theorem Session.Reported.reporting {ds : Diagnostics} (s : Session) (e : Problem)
    (span : Option Span) (h : s.Reported ds) : (s.reporting e span).Reported ds :=
  ⟨h.le.trans (List.prefix_append _ _), h.severe⟩

theorem Resolving.Warns.keeps {α : Type} {x : Resolving α} (h : Warns x) (ds : Diagnostics) :
    Keeps (Session.Reported ds) x := by
  intro s hs
  have hwarned := (h s.diagnostics s ⟨.refl _, hs.severe⟩).2
  exact ⟨fun _ _ => trivial, hs.le.trans hwarned.diagnostics.le, hwarned.severe⟩

theorem Library.respects_reported (l : Library) (ds : Diagnostics) :
    l.Respects (Session.Reported ds) fun _ _ _ => True where
  report := Session.Reported.reporting
  content id := (content_warns id).keeps ds
  edited id edits := (contentEdited_warns id edits).keeps ds

namespace Expansion

variable {x : Expansion} {I : Session → Prop} {E : Failure → Prop}

theorem inlineLine_fails (hcontent : ∀ k u, Fails I E (x.content k u))
    (hvalue : ∀ t, Fails I E (x.value t)) (done : List StyleLine) (line : StyleLine) :
    Fails I E (x.inlineLine done line) := by
  cases line with
  | property name value => exact .bind (hvalue value) fun _ => .pure _
  | usage u =>
    refine .bind (hcontent .style u) fun r => ?_
    split <;> exact .pure _

mutual

theorem inlineNode_fails (hcontent : ∀ k u, Fails I E (x.content k u))
    (hvalue : ∀ t, Fails I E (x.value t)) (n : Node) : Fails I E (x.inlineNode n) := by
  match n with
  | .text t =>
    rw [inlineNode]
    exact .pure _
  | .usage u =>
    rw [inlineNode]
    refine .bind (hcontent .element u) fun r => ?_
    split <;> exact .pure _
  | .element ⟨tag, attributes, style, children⟩ =>
    rw [inlineNode]
    refine .bind (.foldlM (fun done line _ => inlineLine_fails hcontent hvalue done line) _) ?_
    intro style
    exact .bind (inlineNodes_fails hcontent hvalue children) fun _ => .pure _

theorem inlineNodes_fails (hcontent : ∀ k u, Fails I E (x.content k u))
    (hvalue : ∀ t, Fails I E (x.value t)) (ns : List Node) : Fails I E (x.inlineNodes ns) := by
  match ns with
  | [] =>
    rw [inlineNodes]
    exact .pure _
  | n :: ns =>
    rw [inlineNodes]
    refine .bind (inlineNode_fails hcontent hvalue n) fun front => ?_
    exact .bind (inlineNodes_fails hcontent hvalue ns) fun _ => .pure _

end

theorem inlineContent_fails (hcontent : ∀ k u, Fails I E (x.content k u))
    (hvalue : ∀ t, Fails I E (x.value t)) (b : Content) : Fails I E (x.inlineContent b) := by
  cases b with
  | element nodes => exact .bind (inlineNodes_fails hcontent hvalue nodes) fun _ => .pure _
  | style s =>
    refine .bind (.foldlM (fun s e _ => ?_) _) fun _ => .pure _
    obtain ⟨name, value⟩ := e
    cases value with
    | concrete text => exact .bind (hvalue text) fun _ => .pure _
    | placeholder => exact .pure _
  | var v => exact .pure _

end Expansion

namespace Environment

variable {env : Environment} {site : UseSite} {ds : Diagnostics}

theorem referenceValue_fails (owner : NamespaceId) (r : Reference) :
    Fails (Session.Reported ds) Failure.IsFault (env.referenceValue site owner r) := by
  refine .liftFault_bind (fun _ => trivial) fun found _ => ?_
  cases found with
  | error e => exact .pure _
  | ok id =>
    have hvalue : Keeps (Session.Reported ds) (do
        env.checkUseOf site id
        env.valueIn id (.ofKind .var r.group) r.key r.override) :=
      (Keeps.lift _).bind fun _ _ => (valueIn_warns id _ _ _).keeps ds
    refine .bind (.attempt (fun _ => trivial) hvalue) fun result => ?_
    cases result with
    | ok value => exact .pure _
    | error e =>
      exact .bind (Yields.report (fun s => .reporting s e none) (.ok ())) fun _ => .pure _

theorem fillIn_fails (owner : NamespaceId) (text : String) :
    Fails (Session.Reported ds) Failure.IsFault (env.fillIn site owner text) := by
  refine .bind (.mapM (fun piece => ?_) _) fun _ => .pure _
  cases piece with
  | plain text => exact .pure _
  | reference r source =>
    refine .bind (referenceValue_fails owner r) fun value => ?_
    cases value <;> exact .pure _

theorem usageContent_fails (owner : NamespaceId) {build : DefId → List Edit → Resolving Content}
    (hbuild : ∀ id edits, Keeps (Session.Reported ds) (build id edits)) (k : Kind) (u : Usage) :
    Fails (Session.Reported ds) Failure.IsFault (env.usageContent site owner build k u) := by
  have hused : Keeps (Session.Reported ds) (do
      let id ← env.library.resolve owner u.name (.ofKind k)
      env.checkUseOf site id
      build id u.edits) :=
    (Keeps.lift _).bind fun id _ => (Keeps.lift _).bind fun _ _ => hbuild id u.edits
  refine .bind (.attempt (fun _ => trivial) hused) fun result => ?_
  cases result with
  | ok body => exact .pure _
  | error e =>
    exact .bind (Yields.report (fun s => .reporting s e u.span) (.ok ())) fun _ => .pure _

end Environment

/-! ## Instances -/

/-- What the resolution is refused for counts as an error, and before that only warnings are reported. -/
def Resolving.Refuses {α : Type} (x : Resolving α) : Prop :=
  ∀ s e, s.Severe → x.outcome s = .error (.refused e) →
    e.severity = .error ∧ s.diagnostics.Warned (x.after s).diagnostics

namespace Resolving.Refuses

variable {α β : Type} {x : Resolving α} {f : α → Resolving β}

theorem of_warns (h : Warns x) : Refuses x := by
  intro s e hs he
  obtain ⟨hfails, hwarned⟩ := h s.diagnostics s ⟨.refl _, hs⟩
  exact ⟨hfails _ he, hwarned.diagnostics⟩

/-- What is never refused has no refusal to account for. -/
theorem of_isFault (h : ∀ ds, Fails (Session.Reported ds) Failure.IsFault x) : Refuses x := by
  intro s e hs he
  exact absurd ((h s.diagnostics s ⟨List.prefix_rfl, hs⟩).1 _ he) id

/-- As long as only warnings are reported, the rest may begin. -/
theorem bind (hx : Warns x) (hf : ∀ a, Refuses (f a)) : Refuses (x >>= f) := by
  intro s e hs he
  obtain ⟨hfails, hwarned⟩ := hx s.diagnostics s ⟨.refl _, hs⟩
  rw [outcome, run_bind] at he
  rw [after, run_bind]
  cases h : x.outcome s with
  | error e' =>
    rw [h] at he
    cases he
    exact ⟨hfails _ h, hwarned.diagnostics⟩
  | ok a =>
    rw [h] at he
    obtain ⟨hsevere, hwarned'⟩ := hf a (x.after s) e hwarned.severe he
    exact ⟨hsevere, hwarned.diagnostics.trans hwarned'⟩

/-- A rest that is never refused adds nothing to what is refused. -/
theorem bind_isFault (hx : Refuses x) (hf : ∀ a, Fails (fun _ => True) Failure.IsFault (f a)) :
    Refuses (x >>= f) := by
  intro s e hs he
  rw [outcome, run_bind] at he
  rw [after, run_bind]
  cases h : x.outcome s with
  | error e' =>
    rw [h] at he
    cases he
    exact hx s e hs h
  | ok a =>
    rw [h] at he
    exact absurd ((hf a _ trivial).1 _ he) id

end Resolving.Refuses

namespace Environment

variable {env : Environment} {site : UseSite}

theorem finish_refuses (d : Definition) {build : DefId → List Edit → Resolving Content}
    (hbuild : ∀ ds id edits, Keeps (Session.Reported ds) (build id edits)) (raw : Content) :
    Refuses (env.finish site d build raw) := by
  refine .bind (fun ds => .reportAll fun w hw _ hs => ?_) fun _ => ?_
  · exact hs.reporting none (Content.severity_of_mem_dropUnfilled hw)
  · refine .bind (fun ds => Yields.lift (Content.forTags_failsWith (fun tag => ?_) _)) fun _ => ?_
    · exact checkUse_severe (.element tag)
    · -- From here on what is wrong is reported, so nothing is refused any more.
      refine .of_isFault fun ds => Expansion.inlineContent_fails ?_ ?_ _
      · exact usageContent_fails d.home (hbuild ds)
      · exact fillIn_fails d.home

theorem build_refuses (expanding : List DefId) (id : DefId) (edits : List Edit) :
    Refuses (env.build site expanding id edits) := by
  rw [build]
  by_cases hid : id ∈ expanding
  · simp only [hid, dif_pos]
    refine .of_warns fun ds => .liftFault_bind (fun _ => trivial) fun e he => ?_
    exact .throw (Library.severity_cycle he)
  · simp only [hid, dif_neg, not_false_eq_true]
    split
    · exact .of_warns fun ds => .throw trivial
    · rename_i d hd
      rw [assemble_eq]
      refine .bind (Library.contentEdited_warns id edits) fun raw => ?_
      refine finish_refuses d (fun ds used edits => ?_) raw
      exact .of_gives (build_gives (env.library.respects_reported ds) (id :: expanding) used edits)

theorem instanceOf_refuses (n : Name) (edits : List Edit) (expected : Category) :
    Refuses (env.instanceOf site n edits expected) := by
  refine .bind (fun ds => Yields.lift (resolveUse_severe n expected)) fun id => ?_
  refine .bind_isFault (build_refuses [] id edits) fun body => ?_
  exact .liftFault_bind (fun _ => trivial) fun d _ => .pure _

end Environment

end Stencil
