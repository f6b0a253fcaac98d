import Stencil.Instance.Build
import Stencil.Proofs.Expansion

/-! # What instances are made of

An instance is made from the edited content of its definition and from the instances of the
definitions used in it. `K` tells which content the edits of a definition may give. What every
content look-up keeps of the session, building an instance keeps.
-/
namespace Stencil

open Resolving

namespace Environment

variable {env : Environment} {site : UseSite} {id : DefId} {edits : List Edit}

/-- No rule denies the use at the site. -/
def Allows (env : Environment) (site : UseSite) (target : Use) : Prop :=
  Rule.denying env.rules env.scopes env.library.namespaces site target = .ok none

theorem checkUse_eq_ok {target : Use} :
    env.checkUse site target = .ok () ↔ env.Allows site target := by
  unfold checkUse Rule.check Allows
  cases Rule.denying env.rules env.scopes env.library.namespaces site target with
  | error f => exact ⟨nofun, nofun⟩
  | ok found =>
    cases found with
    | none => exact ⟨fun _ => rfl, fun _ => rfl⟩
    | some r => exact ⟨nofun, nofun⟩

/-- The definition is there and no rule denies it at the site. -/
def AllowsDefinition (env : Environment) (site : UseSite) (id : DefId) : Prop :=
  ∃ d, env.library.definitions.get? id = some d ∧ env.Allows site (.definition d.identity)

theorem checkUseOf_eq_ok : env.checkUseOf site id = .ok () ↔ env.AllowsDefinition site id := by
  unfold checkUseOf AllowsDefinition Library.find Arena.find
  cases hd : env.library.definitions.get? id with
  | none =>
    constructor
    · intro h
      cases h
    · rintro ⟨d, h, -⟩
      cases h
  | some d =>
    simp only [Option.some.injEq, exists_eq_left']
    exact checkUse_eq_ok

/-- The body is an instance of `id` with the edits at the site: its raw content has only tags that
are allowed there, and `U` tells which definition each use in it was found to mean, that this
definition is allowed, and which instance of it took the place of the use. -/
inductive Composed (env : Environment) (K : DefId → List Edit → Content → Prop)
    (site : UseSite) : DefId → List Edit → Content → Prop
  | intro {id : DefId} {edits : List Edit} {d : Definition} {raw body : Content}
    {U : Kind → Usage → DefId → Content → Prop}
    (hd : env.library.definitions.get? id = some d)
    (hraw : K id edits raw)
    (htags : (raw.dropUnfilled d.identity.render).1.forTags
      (fun tag => env.checkUse site (.element tag)) = .ok ())
    (hbody : (raw.dropUnfilled d.identity.render).1.Inlines
      (fun k u c => ∃ used, U k u used c) body)
    (hmeans : ∀ k u used c, U k u used c →
      env.library.resolve d.home u.name (.ofKind k) = .ok used)
    (hallowed : ∀ k u used c, U k u used c → env.AllowsDefinition site used)
    (hused : ∀ k u used c, U k u used c → Composed env K site used u.edits c) :
    Composed env K site id edits body

end Environment

/-- What content look-ups keep of the session and give. -/
structure Library.Respects (l : Library) (I : Session → Prop)
    (K : DefId → List Edit → Content → Prop) : Prop where
  report : ∀ s e span, I s → I (s.reporting e span)
  content : ∀ id, Keeps I (l.content id)
  edited : ∀ id edits, Gives I (l.contentEdited id edits) (K id edits)

namespace Environment

variable {env : Environment} {site : UseSite} {I : Session → Prop}
  {K : DefId → List Edit → Content → Prop}

theorem valueIn_keeps (h : env.library.Respects I K) (id : DefId) (group : Name) (key : String)
    (override : Option String) : Keeps I (env.valueIn id group key override) := by
  apply (h.content id).bind
  intro body _
  split
  · exact .refuse _
  · exact .pure trivial

theorem referenceValue_keeps (h : env.library.Respects I K) (owner : NamespaceId)
    (r : Reference) : Keeps I (env.referenceValue site owner r) := by
  apply (Keeps.liftFault _).bind
  intro found _
  cases found with
  | error e => exact .pure trivial
  | ok id =>
    have hvalue : Keeps I (do
        env.checkUseOf site id
        env.valueIn id (.ofKind .var r.group) r.key r.override) := by
      apply (Keeps.lift _).bind
      exact fun _ _ => valueIn_keeps h id _ _ _
    apply hvalue.attempt.bind
    intro result _
    cases result with
    | ok value => exact .pure trivial
    | error e => exact (Keeps.report h.report).bind fun _ _ => .pure trivial

theorem fillIn_keeps (h : env.library.Respects I K) (owner : NamespaceId) (text : String) :
    Keeps I (env.fillIn site owner text) := by
  apply Gives.bind
  · apply Keeps.mapM
    intro piece
    cases piece with
    | plain text => exact .pure trivial
    | reference r source =>
      apply (referenceValue_keeps h owner r).bind
      intro value _
      cases value <;> exact .pure trivial
  · exact fun _ _ => .pure trivial

theorem usageContent_gives (h : env.library.Respects I K) (owner : NamespaceId)
    {build : DefId → List Edit → Resolving Content} {B : DefId → List Edit → Content → Prop}
    (hbuild : ∀ id edits, Gives I (build id edits) (B id edits)) (k : Kind) (u : Usage) :
    Gives I (env.usageContent site owner build k u) fun r => ∀ c, r = some c →
      ∃ used, env.library.resolve owner u.name (.ofKind k) = .ok used ∧
        env.AllowsDefinition site used ∧ B used u.edits c := by
  have hused : Gives I (do
      let id ← env.library.resolve owner u.name (.ofKind k)
      env.checkUseOf site id
      build id u.edits) fun c => ∃ used,
        env.library.resolve owner u.name (.ofKind k) = .ok used ∧
          env.AllowsDefinition site used ∧ B used u.edits c := by
    apply Gives.bind (.lift fun _ h => h)
    intro used hused
    apply Gives.bind (.lift fun _ h => h)
    intro _ hallowed
    exact (hbuild used u.edits).mono fun c hc => ⟨used, hused, checkUseOf_eq_ok.1 hallowed, hc⟩
  apply hused.attempt.bind
  intro result hresult
  cases result with
  | ok body => exact .pure fun c hc => hresult c (congrArg Except.ok (Option.some.inj hc))
  | error e => exact (Keeps.report h.report).bind fun _ _ => .pure nofun

/-- What is done with the edited content of a definition. -/
def finish (env : Environment) (site : UseSite) (d : Definition)
    (build : DefId → List Edit → Resolving Content) (raw : Content) : Resolving Content := do
  Resolving.reportAll (raw.dropUnfilled d.identity.render).2
  (raw.dropUnfilled d.identity.render).1.forTags fun tag => env.checkUse site (.element tag)
  (env.expansion site d.home build).inlineContent (raw.dropUnfilled d.identity.render).1

theorem assemble_eq (env : Environment) (site : UseSite) (id : DefId) (d : Definition)
    (edits : List Edit) (build : DefId → List Edit → Resolving Content) :
    env.assemble site id d edits build =
      env.library.contentEdited id edits >>= env.finish site d build := rfl

theorem finish_gives (h : env.library.Respects I K) (d : Definition)
    {build : DefId → List Edit → Resolving Content} {B : DefId → List Edit → Content → Prop}
    (hbuild : ∀ id edits, Gives I (build id edits) (B id edits)) (raw : Content) :
    Gives I (env.finish site d build raw) fun body =>
      (raw.dropUnfilled d.identity.render).1.forTags
        (fun tag => env.checkUse site (.element tag)) = .ok () ∧
      (raw.dropUnfilled d.identity.render).1.Inlines (fun k u c => ∃ used,
        env.library.resolve d.home u.name (.ofKind k) = .ok used ∧
          env.AllowsDefinition site used ∧ B used u.edits c) body := by
  apply (Keeps.reportAll h.report).bind
  intro _ _
  apply Gives.bind (.lift fun _ h => h)
  intro _ htags
  apply (Expansion.inlineContent_gives (usageContent_gives h d.home hbuild)
    (fillIn_keeps h d.home) _).mono
  exact fun body hbody => ⟨htags, hbody⟩

theorem assemble_gives (h : env.library.Respects I K) {id : DefId} {d : Definition}
    (hd : env.library.definitions.get? id = some d) (edits : List Edit)
    {build : DefId → List Edit → Resolving Content}
    (hbuild : ∀ used edits, Gives I (build used edits) (env.Composed K site used edits)) :
    Gives I (env.assemble site id d edits build) (env.Composed K site id edits) := by
  rw [assemble_eq]
  apply (h.edited id edits).bind
  intro raw hraw
  apply (finish_gives h d hbuild raw).mono
  rintro body ⟨htags, hbody⟩
  exact .intro (U := fun k u used c => env.library.resolve d.home u.name (.ofKind k) = .ok used ∧
    env.AllowsDefinition site used ∧ env.Composed K site used u.edits c) hd hraw htags hbody
    (fun _ _ _ _ h => h.1) (fun _ _ _ _ h => h.2.1) fun _ _ _ _ h => h.2.2

/-- Whatever instance is built is composed of instances, and the session keeps what content
look-ups keep of it. -/
theorem build_gives (h : env.library.Respects I K) (expanding : List DefId) (id : DefId)
    (edits : List Edit) :
    Gives I (env.build site expanding id edits) (env.Composed K site id edits) := by
  rw [build]
  by_cases hid : id ∈ expanding
  · simp only [hid, dif_pos]
    exact (Keeps.liftFault _).bind fun e _ => .refuse e
  · simp only [hid, dif_neg, not_false_eq_true]
    split
    · exact .throw _
    · rename_i d hd
      apply assemble_gives h hd edits
      intro used edits
      have := Arena.unvisited_cons_lt hd hid
      exact build_gives h (id :: expanding) used edits
termination_by env.library.definitions.unvisited expanding

theorem resolveUse_eq_ok {n : Name} {expected : Category} {id : DefId}
    (h : env.resolveUse site n expected = .ok id) :
    env.library.resolve site.home n expected = .ok id ∧ env.AllowsDefinition site id := by
  unfold resolveUse at h
  cases hr : env.library.resolve site.home n expected with
  | error f => rw [hr] at h; cases h
  | ok found =>
    rw [hr] at h
    cases hc : env.checkUseOf site found with
    | error f => simp [bind, Except.bind, hc] at h
    | ok u =>
      obtain rfl : found = id := by simpa [bind, Except.bind, hc, pure, Except.pure] using h
      exact ⟨rfl, checkUseOf_eq_ok.1 hc⟩

/-- The instance of a name is composed of instances, and its definition is the one that the name
means at the site and is allowed there. -/
theorem instanceOf_gives (h : env.library.Respects I K) (n : Name) (edits : List Edit)
    (expected : Category) :
    Gives I (env.instanceOf site n edits expected) fun inst => ∃ id d,
      inst.definition = some id ∧ inst.identity = some d.identity ∧
      env.library.definitions.get? id = some d ∧
      env.library.resolve site.home n expected = .ok id ∧ env.AllowsDefinition site id ∧
      env.Composed K site id edits inst.body := by
  apply Gives.bind (P := fun id => env.library.resolve site.home n expected = .ok id ∧
    env.AllowsDefinition site id)
  · exact .lift fun id hid => resolveUse_eq_ok hid
  · intro id hid
    apply (build_gives h [] id edits).bind
    intro body hbody
    apply Gives.bind (P := fun d => env.library.definitions.get? id = some d)
    · apply Gives.liftFault
      intro d hd
      unfold Library.find Arena.find at hd
      split at hd
      · rename_i hget
        rw [hget, Except.ok.inj hd]
      · cases hd
    · intro d hd
      exact .pure ⟨id, d, rfl, rfl, hd, hid.1, hid.2, hbody⟩

theorem variableValue_keeps (h : env.library.Respects I K) (group : Name) (key : String)
    (override : Option String) : Keeps I (env.variableValue site group key override) := by
  apply (Keeps.lift _).bind
  exact fun id _ => valueIn_keeps h id group key override

end Environment
end Stencil
