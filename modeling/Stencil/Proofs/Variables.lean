import Stencil.Proofs.Coupling
import Stencil.Proofs.Integrity
import Stencil.Proofs.Occurrences
import Stencil.Proofs.Strategies

/-! # Variables in a text and variables that are asked for

In a text the group of a reference is the name of a variable group, and any definition of that name would
do; who asks for a variable names any group, and a variable group is expected. Both come to the same
definition. The two then differ in nothing but what they say and report of a failure, and no content
depends on that.
-/
namespace Stencil

open Resolving

/-! ## Refusals put aside -/

/-- What a call gives, or nothing if it was refused. -/
def Failure.forgive {α : Type} : Except Failure α → Except Failure (Option α)
  | .ok a => .ok (some a)
  | .error (.refused _) => .ok none
  | .error (.fault f) => .error (.fault f)

namespace Compiling

variable {α : Type}

/-- What a step gives, or nothing if it is refused. -/
def optional (x : Compiling α) : Compiling (Option α) :=
  tryCatch (some <$> x) fun
    | .refused _ => return none
    | .fault f => throw (.fault f)

theorem run_optional (x : Compiling α) (c : Compilation) :
    (optional x).run c = (Failure.forgive (x.outcome c), x.after c) := by
  have hsome : (some <$> x).run c = ((x.outcome c).map some, x.after c) := by
    rw [← bind_pure_comp, run_bind]
    cases x.outcome c <;> rfl
  rw [optional, run_tryCatch, outcome, after, hsome]
  rcases x.outcome c with (e | f) | a <;> rfl

/-- The value of a variable that a reference names, or nothing if there is none for it. -/
def valueOf (site : UseSite) (r : Reference) : Compiling (Option String) :=
  optional (variableValue r.group r.key r.override site)

end Compiling

namespace Resolving

variable {α β : Type}

theorem outcome_map (f : α → β) (x : Resolving α) (s : Session) :
    (f <$> x).outcome s = (x.outcome s).map f := by
  rw [outcome, ← bind_pure_comp, run_bind]
  cases x.outcome s <;> rfl

/-- The two sessions remember the same, whatever they report. -/
def SameMemory (s t : Session) : Prop := s.cache = t.cache

/-- The resolutions give the same, except for what they are refused with, and remember the same. -/
def Tallies (x y : Resolving α) : Prop :=
  ∀ s t, SameMemory s t → Failure.forgive (x.outcome s) = Failure.forgive (y.outcome t) ∧
    SameMemory (x.after s) (y.after t)

namespace Tallies

theorem of_couples {x : Resolving α} (h : Couples SameMemory x) : Tallies x x := fun s t hst =>
  ⟨congrArg _ (h s t hst).1, (h s t hst).2⟩

theorem refuse (e e' : Problem) : Tallies (refuse e : Resolving α) (Resolving.refuse e') :=
  fun _ _ hst => ⟨rfl, hst⟩

theorem bind {x : Resolving α} {f g : α → Resolving β} (hx : Couples SameMemory x)
    (hf : ∀ a, Tallies (f a) (g a)) : Tallies (x >>= f) (x >>= g) := by
  intro s t hst
  obtain ⟨heq, hafter⟩ := hx s t hst
  rw [outcome, outcome, after, after, run_bind, run_bind, heq]
  cases x.outcome t with
  | error e => exact ⟨rfl, hafter⟩
  | ok a => exact hf a _ _ hafter

end Tallies
end Resolving

/-! ## One reference -/

theorem Reference.isName_of_mem_findAll {text : String} {x : Reference × Nat × Nat}
    (h : x ∈ findAll text) : Text.isName x.1.group.toList = true := by
  obtain ⟨_, _, _, hstands⟩ := stands_of_mem_located false text.toList [] rfl x h
  exact hstands.group

theorem Library.content_remembers (l : Library) (id : DefId) : Couples SameMemory (l.content id) := by
  apply l.content_couples
  · exact fun _ _ _ _ hst => ⟨rfl, hst⟩
  · exact fun id _ _ hst => ⟨congrArg (fun m => Except.ok (OrderedMap.get? m id)) hst, hst⟩
  · exact fun id known _ _ hst => ⟨rfl, congrArg (OrderedMap.insert · id known) hst⟩

/-- A name that is no more than the name of a definition. -/
def Name.bare (name : String) : Name := ⟨none, none, [], name⟩

/-- A kind that is said of a definition and a kind that is expected of it select the same. -/
theorem Library.resolve_ofKind {l : Library} {start : NamespaceId} {kind : Kind} {name : String}
    {id : DefId} : l.resolve start (.ofKind kind name) .any = .ok id ↔
      l.resolve start (.bare name) (.ofKind kind) = .ok id := by
  rw [resolve_eq_ok_iff, resolve_eq_ok_iff]
  exact Iff.rfl

theorem Name.parse_bare {name : String} (h : Text.isName name.toList = true) :
    Name.parse name = .ok (.bare name) := by
  have hproper : (Name.bare name).Proper := by
    intro s hs
    rw [List.mem_singleton.1 hs]
    exact h
  have hrender : (Name.bare name).render = name := by
    change " ".intercalate [".".intercalate [name]] = name
    rw [String.intercalate_singleton, String.intercalate_singleton]
  exact hrender ▸ parse_render hproper

namespace Environment

variable {env : Environment} {site : UseSite}

theorem valueIn_tallies (id : DefId) (n n' : Name) (key : String) (override : Option String) :
    Tallies (env.valueIn id n key override) (env.valueIn id n' key override) := by
  apply Tallies.bind (env.library.content_remembers id)
  intro body
  split
  · exact .refuse _ _
  · exact .of_couples (.pure _)

variable (site) in
theorem used_tallies (id : DefId) (n n' : Name) (key : String) (override : Option String) :
    Tallies (do env.checkUseOf site id; env.valueIn id n key override)
      (do env.checkUseOf site id; env.valueIn id n' key override) := by
  apply Tallies.bind
  · intro s t hst
    cases env.checkUseOf site id <;> exact ⟨rfl, hst⟩
  · exact fun _ => valueIn_tallies id n n' key override

theorem variableValue_of_resolve {n : Name} {id : DefId}
    (h : env.library.resolve site.home n (.ofKind .var) = .ok id) (key : String)
    (override : Option String) :
    env.variableValue site n key override =
      (do env.checkUseOf site id; env.valueIn id n key override) := by
  rw [variableValue, resolveUse, h]
  simp only [bind, Except.bind]
  cases env.checkUseOf site id <;> rfl

variable (site) in
/-- A reference to a variable group gives what the use of the group gives. -/
theorem referenceValue_of_resolve {owner : NamespaceId} {r : Reference} {id : DefId}
    (h : env.library.resolve owner (.ofKind .var r.group) .any = .ok id) (s : Session) :
    let used : Resolving String := do
      env.checkUseOf site id
      env.valueIn id (.ofKind .var r.group) r.key r.override
    (env.referenceValue site owner r).outcome s = Failure.forgive (used.outcome s) ∧
      SameMemory ((env.referenceValue site owner r).after s) (used.after s) := by
  intro used
  obtain ⟨k, hvalue, hok, herror⟩ : ∃ k : Except Problem String → Resolving (Option String),
      env.referenceValue site owner r = attempt used >>= k ∧ (∀ v, k (.ok v) = return some v) ∧
        ∀ e, k (.error e) = (do report e none; return none) := by
    rw [referenceValue, h]
    exact ⟨_, rfl, fun _ => rfl, fun _ => rfl⟩
  rw [hvalue, outcome, after]
  cases hused : used.outcome s with
  | ok v =>
    rw [run_attempt_bind_of_ok hused, hok]
    exact ⟨rfl, rfl⟩
  | error e =>
    cases e with
    | refused e =>
      rw [run_attempt_bind_of_refused hused, herror]
      exact ⟨rfl, rfl⟩
    | fault f =>
      rw [run_bind, outcome, after, run_attempt, hused]
      exact ⟨rfl, rfl⟩

/-- A reference in a text gives what asking for its variable gives. -/
theorem referenceValue_forgives (hl : env.library.Closed) (hsite : site.Within env) (r : Reference)
    {s t : Session} (hst : SameMemory s t) :
    (env.referenceValue site site.home r).outcome s =
        Failure.forgive ((env.variableValue site (.bare r.group) r.key r.override).outcome t) ∧
      SameMemory ((env.referenceValue site site.home r).after s)
        ((env.variableValue site (.bare r.group) r.key r.override).after t) := by
  rcases answers_resolve hl hsite.home (.ofKind .var r.group) .any with ⟨id, hid, -⟩ | ⟨e, he⟩
  · obtain ⟨hgives, hafter⟩ := referenceValue_of_resolve site hid s
    obtain ⟨hsame, hmemory⟩ :=
      used_tallies site id (.ofKind .var r.group) (.bare r.group) r.key r.override s t hst
    rw [variableValue_of_resolve (Library.resolve_ofKind.1 hid)]
    exact ⟨hgives.trans hsame, hafter.trans hmemory⟩
  · rcases answers_resolve hl hsite.home (.bare r.group) (.ofKind .var) with ⟨id, hid, -⟩ | ⟨e', he'⟩
    · rw [Library.resolve_ofKind.2 hid] at he
      cases he
    · rw [referenceValue, variableValue, resolveUse, he, he']
      exact ⟨rfl, hst⟩

end Environment

/-! ## A whole text -/

namespace Compilation

/-- The compilation resolves in that environment and remembers what the session remembers. -/
structure Shares (env : Environment) (s : Session) (c : Compilation) : Prop where
  environment : c.environment = env
  memory : SameMemory s c.session

end Compilation

namespace Compiling

variable {α β : Type} {env : Environment} {site : UseSite} {c : Compilation}

/-- The resolution and the step give the same, and afterwards the same is remembered. -/
def Follows (env : Environment) (x : Resolving α) (y : Compiling α) : Prop :=
  ∀ s c, c.Shares env s → ∃ a, x.outcome s = .ok a ∧ y.outcome c = .ok a ∧
    (y.after c).Shares env (x.after s)

namespace Follows

theorem pure (a : α) : Follows env (pure a) (pure a) := fun _ _ h => ⟨a, rfl, rfl, h⟩

theorem bind {x : Resolving α} {y : Compiling α} {f : α → Resolving β} {g : α → Compiling β}
    (hx : Follows env x y) (hf : ∀ a, Follows env (f a) (g a)) :
    Follows env (x >>= f) (y >>= g) := by
  intro s c h
  obtain ⟨a, hxa, hya, hafter⟩ := hx s c h
  rw [Resolving.outcome, outcome, Resolving.after, after, Resolving.run_bind, run_bind, hxa, hya]
  exact hf a _ _ hafter

theorem filterMapM {γ : Type} {f : γ → Resolving (Option α)} {g : γ → Compiling (Option α)}
    {as : List γ} (h : ∀ a ∈ as, Follows env (f a) (g a)) :
    Follows env (as.filterMapM f) (as.filterMapM g) := by
  induction as with
  | nil => exact pure []
  | cons a as ih =>
    rw [List.filterMapM_cons, List.filterMapM_cons]
    apply (h a List.mem_cons_self).bind
    intro b?
    have hrest := ih fun a ha => h a (List.mem_cons_of_mem _ ha)
    cases b? with
    | none => exact hrest
    | some b => exact hrest.bind fun bs => pure (b :: bs)

end Follows

theorem after_recording_resolving (x : Environment → Resolving α) (c : Compilation) :
    ((recording none (resolving x)).after c).Shares c.environment ((x c.environment).after c.session) := by
  rw [after, recording, run_tryCatch, outcome_resolving]
  rcases (x c.environment).outcome c.session with (e | f) | a <;> exact ⟨rfl, rfl⟩

theorem variableValue_of_isName {group : String} (h : Text.isName group.toList = true)
    (key : String) (override : Option String) (site : UseSite) :
    variableValue group key override site = recording none
      (resolving fun env => env.variableValue site (.bare group) key override) := by
  rw [variableValue, Compiling.parseName, Name.parse_bare h]
  rfl

theorem referenceValue_follows (hl : env.library.Closed) (hsite : site.Within env) {r : Reference}
    (hgroup : Text.isName r.group.toList = true) :
    Follows env (env.referenceValue site site.home r) (valueOf site r) := by
  rintro s c ⟨rfl, hmemory⟩
  obtain ⟨hgives, hafter⟩ := Environment.referenceValue_forgives hl hsite r hmemory
  have hkept := after_recording_resolving
    (fun env => env.variableValue site (.bare r.group) r.key r.override) c
  have hanswers := (Environment.variableValue_safe hl hsite (.bare r.group) r.key r.override
    c.session trivial).1
  rw [hgives, valueOf, outcome, after, run_optional, variableValue_of_isName hgroup, outcome_recording,
    outcome_resolving]
  rcases hanswers with ⟨v, hv, -⟩ | ⟨e, he⟩
  · rw [hv]
    exact ⟨some v, rfl, rfl, hkept.environment, hafter.trans hkept.memory⟩
  · rw [he]
    exact ⟨none, rfl, rfl, hkept.environment, hafter.trans hkept.memory⟩

end Compiling

/-- What is put into a text is what each of its references gives when its variable is asked for, one after
the other; where that is refused, the reference stays as it is written. -/
theorem Compilation.Reachable.fillIn_by_values {c : Compilation} (hc : c.Reachable) {site : UseSite}
    (hsite : site.Within c.environment) (text : String) :
    ∃ changes result,
      ((Reference.findAll text).filterMapM (Reference.change (Compiling.valueOf site))).outcome c =
        .ok changes ∧
      (Compiling.fillIn text site).outcome c = .ok result ∧
      result.toByteArray = Reference.spliced text.toByteArray 0 changes := by
  have hfollows : Compiling.Follows c.environment
      ((Reference.findAll text).filterMapM
        (Reference.change (c.environment.referenceValue site site.home)))
      ((Reference.findAll text).filterMapM (Reference.change (Compiling.valueOf site))) := by
    apply Compiling.Follows.filterMapM
    intro x hx
    apply (Compiling.referenceValue_follows hc.intact.toClosed.library hsite
      (Reference.isName_of_mem_findAll hx)).bind
    exact fun _ => .pure _
  obtain ⟨changes, hchanges, hvalues, -⟩ := hfollows c.session c ⟨rfl, rfl⟩
  have hsplice := congrArg (Resolving.outcome · c.session)
    (Reference.toByteArray_replaceAll (c.environment.referenceValue site site.home) text)
  simp only [Resolving.outcome_map, hchanges] at hsplice
  obtain ⟨result, hresult, hbytes⟩ := Except.map_eq_ok.1 hsplice
  exact ⟨changes, result, hvalues, hresult, hbytes⟩

/-- Tones with an alias, and inks that may not be used. -/
def studio : Compilation :=
  Operation.afterAll
    [.addGroup ⟨.template, .var, "Tones"⟩ (.var (.ofList [("gap", "4px"), ("edge", "2px")])) [] .empty none,
      .addGroup ⟨.custom, .var, "Ink"⟩ (.var (.ofList [("dark", "#111")])) [] .empty none,
      .nameDefinition "T" "Tones" none,
      .addRule (.name "Ink") .global none]
    (.initial .initial)

/-- A variable is put in under the alias and with a value of its own; where there is no such group, no
such key or a denial, the reference stays. -/
theorem fillIn_by_values_studio :
    studio.Reachable ∧ UseSite.global.Within studio.environment ∧
      ∃ changes result,
        ((Reference.findAll "T(gap) rgb(gap) Ink(dark) Tones(top) Tones(edge = π)").filterMapM
          (Reference.change (Compiling.valueOf .global))).outcome studio = .ok changes ∧
        (Compiling.fillIn "T(gap) rgb(gap) Ink(dark) Tones(top) Tones(edge = π)" .global).outcome
          studio = .ok result ∧
        result.toByteArray = Reference.spliced
          "T(gap) rgb(gap) Ink(dark) Tones(top) Tones(edge = π)".toByteArray 0 changes ∧
        changes = [(0, 6, "4px"), (37, 53, "π")] ∧
        result = "4px rgb(gap) Ink(dark) Tones(top) π" := by
  have hreach : studio.Reachable := (Compilation.Reachable.initial .initial).afterAll _
  have hsite : UseSite.global.Within studio.environment := ⟨by decide +kernel, by decide +kernel⟩
  obtain ⟨changes, result, hvalues, hresult, hbytes⟩ :=
    hreach.fillIn_by_values hsite "T(gap) rgb(gap) Ink(dark) Tones(top) Tones(edge = π)"
  have hchanges : ((Reference.findAll "T(gap) rgb(gap) Ink(dark) Tones(top) Tones(edge = π)").filterMapM
      (Reference.change (Compiling.valueOf .global))).outcome studio =
        .ok [(0, 6, "4px"), (37, 53, "π")] := by decide +kernel
  have hfilled : (Compiling.fillIn "T(gap) rgb(gap) Ink(dark) Tones(top) Tones(edge = π)"
      .global).outcome studio = .ok "4px rgb(gap) Ink(dark) Tones(top) π" := by decide +kernel
  exact ⟨hreach, hsite, changes, result, hvalues, hresult, hbytes,
    Except.ok.inj (hvalues.symm.trans hchanges), Except.ok.inj (hresult.symm.trans hfilled)⟩

end Stencil
