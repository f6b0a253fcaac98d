import Stencil.Proofs.Answering
import Stencil.Proofs.Hygiene
import Stencil.Proofs.Reachable

/-! # What the place of a use decides

An instance is built from definitions, and names in a definition mean what they mean where it is
written. Of the place where the instance is used only the rules are asked, and they say nothing but yes or
no. So two runs for one definition at two places go in step until a rule denies something at one of them,
and that is told: the denial is given back, or it is recorded.
-/
namespace Stencil

/-- The call was not refused by a rule. -/
def Undenied {α : Type} (r : Except Failure α) : Prop :=
  ∀ target rule, r ≠ .error (.refused (.denied target rule))

/-- No denial was added to the diagnostics. -/
def Diagnostics.Undenied (ds ds' : Diagnostics) : Prop :=
  ∀ d ∈ ds'.drop ds.length, ∀ target rule, d.error ≠ some (.denied target rule)

theorem Diagnostics.Undenied.mono {ds ds' ds'' ds''' : Diagnostics} (h : Undenied ds ds''')
    (hbefore : ds <+: ds') (hafter : ds'' <+: ds''') : Undenied ds' ds'' := by
  intro d hd
  apply h d
  exact (hafter.drop ds.length).subset ((List.drop_sublist_drop_left _ hbefore.length_le).subset hd)

namespace Undenied

variable {α β : Type} {r : Except Failure α} {f : α → Except Failure β}

theorem of_bind (h : Undenied (r >>= f)) :
    Undenied r ∧ ∀ a, r = .ok a → Undenied (f a) := by
  constructor
  · rintro target rule rfl
    exact h target rule rfl
  · rintro a rfl
    exact h

end Undenied

/-! ## Two runs in step -/

/-- Two calls that give the same unless one of them is refused by a rule. -/
def Agree {α : Type} (r r' : Except Failure α) : Prop := Undenied r → Undenied r' → r = r'

theorem Agree.bind {α β : Type} {r r' : Except Failure α} {f g : α → Except Failure β}
    (h : Agree r r') (hf : ∀ a, Agree (f a) (g a)) : Agree (r >>= f) (r' >>= g) := by
  intro hr hr'
  obtain rfl := h hr.of_bind.1 hr'.of_bind.1
  cases r with
  | error e => rfl
  | ok a => exact hf a (hr.of_bind.2 a rfl) (hr'.of_bind.2 a rfl)

theorem Agree.refl {α : Type} (r : Except Failure α) : Agree r r := fun _ _ => rfl

mutual

theorem Node.forTags_agree {check check' : String → Except Failure Unit}
    (h : ∀ tag, Agree (check tag) (check' tag)) (n : Node) :
    Agree (n.forTags check) (n.forTags check') := by
  match n with
  | .text _ => exact .refl _
  | .usage _ => exact .refl _
  | .element ⟨tag, _, _, children⟩ =>
    rw [Node.forTags, Node.forTags]
    exact (h tag).bind fun _ => Node.forTagsIn_agree h children

theorem Node.forTagsIn_agree {check check' : String → Except Failure Unit}
    (h : ∀ tag, Agree (check tag) (check' tag)) (ns : List Node) :
    Agree (Node.forTagsIn check ns) (Node.forTagsIn check' ns) := by
  match ns with
  | [] => exact .refl _
  | n :: ns =>
    rw [Node.forTagsIn, Node.forTagsIn]
    exact (Node.forTags_agree h n).bind fun _ => Node.forTagsIn_agree h ns

end

theorem Content.forTags_agree {check check' : String → Except Failure Unit}
    (h : ∀ tag, Agree (check tag) (check' tag)) (b : Content) :
    Agree (b.forTags check) (b.forTags check') := by
  cases b with
  | element nodes => exact Node.forTagsIn_agree h nodes
  | style s => exact .refl _
  | var v => exact .refl _

namespace Resolving

variable {α β : Type}

/-- The resolution was not refused by a rule, and did not record that something in it was. -/
structure Unhindered (x : Resolving α) (s : Session) : Prop where
  given : Undenied (x.outcome s)
  recorded : s.diagnostics.Undenied (x.after s).diagnostics

theorem Unhindered.of_bind {x : Resolving α} {f : α → Resolving β} {s : Session}
    (h : Unhindered (x >>= f) s) (hx : Grows x) (hf : ∀ a, Grows (f a)) :
    Unhindered x s ∧ ∀ a, x.outcome s = .ok a → Unhindered (f a) (x.after s) := by
  obtain ⟨hgiven, hrecorded⟩ := h
  rw [outcome, run_bind] at hgiven
  rw [after, run_bind] at hrecorded
  cases hout : x.outcome s with
  | error e =>
    rw [hout] at hgiven hrecorded
    refine ⟨⟨?_, hrecorded⟩, by simp⟩
    rintro target rule heq
    cases hout.symm.trans heq
    exact hgiven target rule rfl
  | ok a =>
    rw [hout] at hgiven hrecorded
    refine ⟨⟨?_, hrecorded.mono List.prefix_rfl ((hf a).le _)⟩, ?_⟩
    · rintro target rule heq
      cases hout.symm.trans heq
    · rintro a' heq
      cases heq
      exact ⟨hgiven, hrecorded.mono (hx.le s) List.prefix_rfl⟩

/-- Two resolutions that run alike unless a rule hinders one of them. No diagnostic is taken back. -/
structure InStep (x y : Resolving α) : Prop where
  left : Grows x
  right : Grows y
  run_eq : ∀ s, Unhindered x s → Unhindered y s → x.run s = y.run s

namespace InStep

variable {x y : Resolving α} {f g : α → Resolving β}

theorem refl (h : Grows x) : InStep x x := ⟨h, h, fun _ _ _ => rfl⟩

theorem pure (a : α) : InStep (pure a) (pure a) := refl fun _ => .pure trivial

theorem lift {r r' : Except Failure α} (h : Agree r r') :
    InStep (liftM r : Resolving α) (liftM r') where
  left _ := .lift r
  right _ := .lift r'
  run_eq s hr hr' := by
    have hgiven : Undenied r := by cases r <;> exact hr.given
    have hgiven' : Undenied r' := by cases r' <;> exact hr'.given
    rw [h hgiven hgiven']

theorem bind (hx : InStep x y) (hf : ∀ a, InStep (f a) (g a)) : InStep (x >>= f) (y >>= g) where
  left ds := (hx.left ds).bind fun a _ => (hf a).left ds
  right ds := (hx.right ds).bind fun a _ => (hf a).right ds
  run_eq s h h' := by
    obtain ⟨hfirst, hrest⟩ := h.of_bind hx.left fun a => (hf a).left
    obtain ⟨hfirst', hrest'⟩ := h'.of_bind hx.right fun a => (hf a).right
    have hrun := hx.run_eq s hfirst hfirst'
    have hout : x.outcome s = y.outcome s := congrArg Prod.fst hrun
    have hafter : x.after s = y.after s := congrArg Prod.snd hrun
    rw [run_bind, run_bind, ← hout, ← hafter]
    cases hxs : x.outcome s with
    | error e => rfl
    | ok a => exact (hf a).run_eq _ (hrest a hxs) (hafter ▸ hrest' a (hout ▸ hxs))

theorem foldlM {f g : β → α → Resolving β} (hf : ∀ b a, InStep (f b a) (g b a)) (as : List α)
    (b : β) : InStep (as.foldlM f b) (as.foldlM g b) := by
  induction as generalizing b with
  | nil => exact pure b
  | cons a as ih =>
    rw [List.foldlM_cons, List.foldlM_cons]
    exact (hf b a).bind fun b => ih b

theorem mapM (hf : ∀ a, InStep (f a) (g a)) (as : List α) : InStep (as.mapM f) (as.mapM g) := by
  induction as with
  | nil => exact pure []
  | cons a as ih =>
    rw [List.mapM_cons, List.mapM_cons]
    apply (hf a).bind
    intro b
    apply ih.bind
    exact fun bs => pure (b :: bs)

/-- A denial that is caught is recorded, so what follows it need not be in step. -/
theorem orReport (h : InStep x y) (span : Option Span)
    {k : Except Problem α → Resolving (Option α)} (hok : ∀ a, k (.ok a) = Pure.pure (some a))
    (herror : ∀ e, k (.error e) = do report e span; return none) :
    InStep (attempt x >>= k) (attempt y >>= k) := by
  have hk (r : Except Problem α) : Grows (k r) := by
    intro ds
    cases r with
    | ok a =>
      rw [hok]
      exact .pure trivial
    | error e =>
      rw [herror]
      exact (Keeps.report fun s e span => reporting_grows ds s e span).bind fun _ _ => .pure trivial
  have hfirst {z : Resolving α} {s : Session} (hz : Grows z) (hfree : Unhindered (attempt z >>= k) s) :
      Unhindered z s := by
    obtain ⟨hattempt, hrest⟩ := hfree.of_bind (fun ds => (hz ds).attempt) hk
    have hafter : (attempt z).after s = z.after s := by rw [after, run_attempt]
    refine ⟨fun target rule hdenied => ?_, by rw [← hafter]; exact hattempt.recorded⟩
    -- The denial is the last diagnostic now.
    have hcaught : (attempt z).outcome s = .ok (.error (.denied target rule)) := by
      rw [outcome, run_attempt, hdenied]
      rfl
    have hreported := (hrest _ hcaught).recorded
    rw [herror, hafter] at hreported
    refine hreported (.ofError (.denied target rule) span) ?_ target rule rfl
    change _ ∈ List.drop _ ((z.after s).diagnostics ++ [_])
    simp
  exact
    { left := fun ds => (h.left ds).attempt.bind fun r _ => hk r ds
      right := fun ds => (h.right ds).attempt.bind fun r _ => hk r ds
      run_eq := fun s hx hy => by
        have hrun := h.run_eq s (hfirst h.left hx) (hfirst h.right hy)
        have hout : x.outcome s = y.outcome s := congrArg Prod.fst hrun
        have hafter : x.after s = y.after s := congrArg Prod.snd hrun
        rw [run_bind, run_bind, outcome, outcome, after, after, run_attempt, run_attempt, hout,
          hafter] }

end InStep
end Resolving

open Resolving

namespace Expansion

variable {x y : Expansion}

theorem inlineLine_inStep (hcontent : ∀ k u, InStep (x.content k u) (y.content k u))
    (hvalue : ∀ t, InStep (x.value t) (y.value t)) (done : List StyleLine) (line : StyleLine) :
    InStep (x.inlineLine done line) (y.inlineLine done line) := by
  cases line with
  | property name value => exact (hvalue value).bind fun _ => .pure _
  | usage u =>
    apply (hcontent .style u).bind
    intro r
    split <;> exact .pure _

mutual

theorem inlineNode_inStep (hcontent : ∀ k u, InStep (x.content k u) (y.content k u))
    (hvalue : ∀ t, InStep (x.value t) (y.value t)) (n : Node) :
    InStep (x.inlineNode n) (y.inlineNode n) := by
  match n with
  | .text t =>
    rw [inlineNode, inlineNode]
    exact .pure _
  | .usage u =>
    rw [inlineNode, inlineNode]
    apply (hcontent .element u).bind
    intro r
    split <;> exact .pure _
  | .element ⟨tag, attributes, style, children⟩ =>
    rw [inlineNode, inlineNode]
    apply (InStep.foldlM (inlineLine_inStep hcontent hvalue) style []).bind
    intro style
    apply (inlineNodes_inStep hcontent hvalue children).bind
    exact fun children => .pure _

theorem inlineNodes_inStep (hcontent : ∀ k u, InStep (x.content k u) (y.content k u))
    (hvalue : ∀ t, InStep (x.value t) (y.value t)) (ns : List Node) :
    InStep (x.inlineNodes ns) (y.inlineNodes ns) := by
  match ns with
  | [] =>
    rw [inlineNodes, inlineNodes]
    exact .pure _
  | n :: ns =>
    rw [inlineNodes, inlineNodes]
    apply (inlineNode_inStep hcontent hvalue n).bind
    intro front
    apply (inlineNodes_inStep hcontent hvalue ns).bind
    exact fun back => .pure _

end

theorem inlineContent_inStep (hcontent : ∀ k u, InStep (x.content k u) (y.content k u))
    (hvalue : ∀ t, InStep (x.value t) (y.value t)) (b : Content) :
    InStep (x.inlineContent b) (y.inlineContent b) := by
  cases b with
  | element nodes => exact (inlineNodes_inStep hcontent hvalue nodes).bind fun _ => .pure _
  | style s =>
    apply InStep.bind
    · apply InStep.foldlM
      rintro filled ⟨name, value⟩
      cases value with
      | concrete text => exact (hvalue text).bind fun _ => .pure _
      | placeholder => exact .pure _
    · exact fun _ => .pure _
  | var v => exact .pure _

end Expansion

namespace Environment

variable {env : Environment} {site site' : UseSite}

theorem contentEdited_grows (id : DefId) (edits : List Edit) :
    Grows (env.library.contentEdited id edits) :=
  fun ds => (env.library.walks_growing ds).respects.edited id edits

theorem valueIn_grows (id : DefId) (group : Name) (key : String) (override : Option String) :
    Grows (env.valueIn id group key override) :=
  fun ds => valueIn_keeps (env.library.walks_growing ds).respects id group key override

/-- At a place in the tables a rule is the only reason why something may not be used. -/
theorem checkUse_agree (hsite : site.Within env) (hsite' : site'.Within env) (target : Use) :
    Agree (env.checkUse site target) (env.checkUse site' target) := by
  have hallowed {site : UseSite} (hsite : site.Within env) (h : Undenied (env.checkUse site target)) :
      env.checkUse site target = .ok () := by
    obtain ⟨found, hfound, -⟩ := finds_denying hsite target
    cases found with
    | none => exact checkUse_eq_ok.2 hfound
    | some r =>
      refine absurd ?_ (h target.render r.denial.render)
      rw [checkUse, Rule.check, hfound]
      rfl
  intro h h'
  rw [hallowed hsite h, hallowed hsite' h']

theorem checkUseOf_agree (hsite : site.Within env) (hsite' : site'.Within env) (id : DefId) :
    Agree (env.checkUseOf site id) (env.checkUseOf site' id) :=
  (Agree.refl _).bind fun _ => checkUse_agree hsite hsite' _

theorem referenceValue_inStep (hsite : site.Within env) (hsite' : site'.Within env)
    (owner : NamespaceId) (r : Reference) :
    InStep (env.referenceValue site owner r) (env.referenceValue site' owner r) := by
  apply (InStep.refl fun _ => .liftFault _).bind
  intro found
  cases found with
  | error e => exact .pure _
  | ok id =>
    refine InStep.orReport (.bind (.lift (checkUseOf_agree hsite hsite' id)) fun _ => ?_) none
      (fun _ => rfl) fun _ => rfl
    exact .refl (valueIn_grows id _ _ _)

theorem fillIn_inStep (hsite : site.Within env) (hsite' : site'.Within env) (owner : NamespaceId)
    (text : String) : InStep (env.fillIn site owner text) (env.fillIn site' owner text) := by
  apply InStep.bind
  · apply InStep.mapM
    intro piece
    cases piece with
    | plain text => exact .pure _
    | reference r source =>
      apply (referenceValue_inStep hsite hsite' owner r).bind
      intro value
      cases value <;> exact .pure _
  · exact fun _ => .pure _

theorem usageContent_inStep (hsite : site.Within env) (hsite' : site'.Within env)
    (owner : NamespaceId) {build build' : DefId → List Edit → Resolving Content}
    (hbuild : ∀ id edits, InStep (build id edits) (build' id edits)) (k : Kind) (u : Usage) :
    InStep (env.usageContent site owner build k u) (env.usageContent site' owner build' k u) := by
  refine InStep.orReport ?_ u.span (fun _ => rfl) fun _ => rfl
  apply (InStep.refl fun _ => .lift _).bind
  intro id
  apply (InStep.lift (checkUseOf_agree hsite hsite' id)).bind
  exact fun _ => hbuild id u.edits

theorem assemble_inStep (hsite : site.Within env) (hsite' : site'.Within env) (id : DefId)
    (d : Definition) (edits : List Edit) {build build' : DefId → List Edit → Resolving Content}
    (hbuild : ∀ id edits, InStep (build id edits) (build' id edits)) :
    InStep (env.assemble site id d edits build) (env.assemble site' id d edits build') := by
  rw [assemble_eq, assemble_eq]
  apply (InStep.refl (contentEdited_grows id edits)).bind
  intro raw
  apply (InStep.refl fun ds => .reportAll (reporting_grows ds)).bind
  intro _
  apply (InStep.lift (Content.forTags_agree (fun tag => checkUse_agree hsite hsite' _) _)).bind
  intro _
  exact Expansion.inlineContent_inStep (usageContent_inStep hsite hsite' d.home hbuild)
    (fillIn_inStep hsite hsite' d.home) _

/-- One definition is instantiated at two places in step. -/
theorem build_inStep (hsite : site.Within env) (hsite' : site'.Within env)
    (expanding : List DefId) (id : DefId) (edits : List Edit) :
    InStep (env.build site expanding id edits) (env.build site' expanding id edits) := by
  rw [build, build]
  by_cases hid : id ∈ expanding
  · simp only [hid, dif_pos]
    exact .refl fun _ => (Keeps.liftFault _).bind fun e _ => .refuse e
  · simp only [hid, dif_neg, not_false_eq_true]
    split
    · exact .refl fun _ => .throw _
    · rename_i d hd
      apply assemble_inStep hsite hsite' id d edits
      intro used edits
      have := Arena.unvisited_cons_lt hd hid
      exact build_inStep hsite hsite' (id :: expanding) used edits
termination_by env.library.definitions.unvisited expanding

theorem instanceOf_inStep (hsite : site.Within env) (hsite' : site'.Within env) {n : Name}
    {expected : Category} {id : DefId} (hid : env.library.resolve site.home n expected = .ok id)
    (hid' : env.library.resolve site'.home n expected = .ok id) (edits : List Edit) :
    InStep (env.instanceOf site n edits expected) (env.instanceOf site' n edits expected) := by
  have huse : Agree (env.resolveUse site n expected) (env.resolveUse site' n expected) := by
    rw [resolveUse, resolveUse, hid, hid']
    exact (checkUseOf_agree hsite hsite' id).bind fun _ => .refl _
  apply (InStep.lift huse).bind
  intro id
  apply (build_inStep hsite hsite' [] id edits).bind
  intro body
  exact (InStep.refl fun _ => .liftFault _).bind fun d => .pure _

end Environment

namespace Compiling

/-- No rule denied anything in the call: it gave no denial back and recorded none. -/
structure Unhindered {α : Type} (x : Compiling α) (c : Compilation) : Prop where
  given : Undenied (x.outcome c)
  recorded : c.diagnostics.Undenied (x.after c).diagnostics

variable {α : Type} {c : Compilation} {span : Option Span}

theorem run_resolving (x : Environment → Resolving α) (c : Compilation) :
    (resolving x).run c =
      (((x c.environment).run c.session).1,
        { c with session := ((x c.environment).run c.session).2 }) := rfl

theorem diagnostics_recording_resolving (x : Environment → Resolving α) :
    ((x c.environment).after c.session).diagnostics <+:
      ((recording span (resolving x)).after c).diagnostics := by
  rw [recording, after, run_tryCatch, outcome_resolving]
  rcases (x c.environment).outcome c.session with (e | f) | a
  · exact List.prefix_append _ _
  · exact List.prefix_rfl
  · exact List.prefix_rfl

theorem Unhindered.of_recording {x : Environment → Resolving α}
    (h : Unhindered (recording span (resolving x)) c) :
    Resolving.Unhindered (x c.environment) c.session where
  given := by
    have hgiven := h.given
    rw [outcome_recording, outcome_resolving] at hgiven
    exact hgiven
  recorded := h.recorded.mono List.prefix_rfl (diagnostics_recording_resolving x)

/-- A name that means the same definition at two places has the same instance at both and leaves the
compilation the same, diagnostics included, unless a rule denies something in one of the calls. -/
theorem instanceOfName_placed (c : Compilation) {site site' : UseSite}
    (hsite : site.Within c.environment) (hsite' : site'.Within c.environment) {n : Name}
    {expected : Category} {id : DefId} (hid : c.library.resolve site.home n expected = .ok id)
    (hid' : c.library.resolve site'.home n expected = .ok id) (edits : List Edit)
    (span : Option Span) (h : Unhindered (instanceOfName n edits expected site span) c)
    (h' : Unhindered (instanceOfName n edits expected site' span) c) :
    (instanceOfName n edits expected site span).outcome c =
        (instanceOfName n edits expected site' span).outcome c ∧
      (instanceOfName n edits expected site span).after c =
        (instanceOfName n edits expected site' span).after c := by
  have hrun := (Environment.instanceOf_inStep hsite hsite' hid hid' edits).run_eq c.session
    h.of_recording h'.of_recording
  have hresolving : (resolving fun env => env.instanceOf site n edits expected).run c =
      (resolving fun env => env.instanceOf site' n edits expected).run c := by
    rw [run_resolving, run_resolving, hrun]
  have hboth : (instanceOfName n edits expected site span).run c =
      (instanceOfName n edits expected site' span).run c := by
    rw [instanceOfName, instanceOfName, recording, recording, run_tryCatch, run_tryCatch, outcome,
      outcome, after, after, hresolving]
  exact ⟨congrArg Prod.fst hboth, congrArg Prod.snd hboth⟩

/-- An arbor with a seat and a vine. There is a vine only in the garden, where gates are denied and
there is another seat as well. -/
def orchard : Compilation :=
  let element (name : String) (nodes : List Node) : Operation :=
    .addGroup ⟨.custom, .element, name⟩ (.element nodes) [] .empty none
  let tag (name : String) : Node := .element ⟨name, .empty, [], []⟩
  let use (name : String) : Node := .usage ⟨.ofKind .element name, [], none⟩
  Operation.afterAll
    [element "Seat" [tag "p"], element "Arbor" [use "Seat", use "Vine", tag "div"],
      .openNamespacePath ["garden"], element "Vine" [tag "ul"], element "Seat" [tag "ol"],
      .addRule (.name "Gate") .global none]
    (.initial .initial)

/-- Whether it is shown in the garden or outside, the arbor has the seat from outside and no vine. -/
theorem instanceOfName_placed_orchard :
    let arbor (site : UseSite) := instanceOfName (.ofKind .element "Arbor") [] .any site none
    orchard.Reachable ∧ UseSite.global.Within orchard.environment ∧
      UseSite.Within orchard.environment ⟨⟨1⟩, ⟨1⟩⟩ ∧
      Unhindered (arbor .global) orchard ∧ Unhindered (arbor ⟨⟨1⟩, ⟨1⟩⟩) orchard ∧
      ((arbor .global).outcome orchard).map (fun i => i.body.tags?) = .ok (some ["p", "div"]) ∧
      (arbor .global).outcome orchard = (arbor ⟨⟨1⟩, ⟨1⟩⟩).outcome orchard ∧
      (arbor .global).after orchard = (arbor ⟨⟨1⟩, ⟨1⟩⟩).after orchard := by
  intro arbor
  have htags (site : UseSite) (h : site = .global ∨ site = ⟨⟨1⟩, ⟨1⟩⟩) :
      ((arbor site).outcome orchard).map (fun i => i.body.tags?) = .ok (some ["p", "div"]) := by
    rcases h with rfl | rfl <;> decide +kernel
  have hunhindered (site : UseSite) (h : site = .global ∨ site = ⟨⟨1⟩, ⟨1⟩⟩) :
      Unhindered (arbor site) orchard := by
    refine ⟨fun target rule hdenied => ?_, ?_⟩
    · have hmapped := htags site h
      rw [hdenied] at hmapped
      cases hmapped
    · have hdiagnostics : ((arbor site).after orchard).diagnostics =
          [.ofError (.unresolved "@Element Vine") none] := by
        rcases h with rfl | rfl <;> decide +kernel
      rw [hdiagnostics]
      intro d hd target rule hdenied
      obtain rfl := List.mem_singleton.1 (List.mem_of_mem_drop hd)
      cases hdenied
  have hreach : orchard.Reachable := (Compilation.Reachable.initial .initial).afterAll _
  have hglobal : UseSite.global.Within orchard.environment := ⟨by decide +kernel, by decide +kernel⟩
  have hgarden : UseSite.Within orchard.environment ⟨⟨1⟩, ⟨1⟩⟩ :=
    ⟨by decide +kernel, by decide +kernel⟩
  have hid : orchard.library.resolve UseSite.global.home (.ofKind .element "Arbor") .any = .ok ⟨1⟩ := by
    decide +kernel
  have hid' : orchard.library.resolve ⟨1⟩ (.ofKind .element "Arbor") .any = .ok ⟨1⟩ := by
    decide +kernel
  have hsame := instanceOfName_placed orchard hglobal hgarden hid hid' [] none
    (hunhindered _ (.inl rfl)) (hunhindered _ (.inr rfl))
  exact ⟨hreach, hglobal, hgarden, hunhindered _ (.inl rfl), hunhindered _ (.inr rfl),
    htags _ (.inl rfl), hsame⟩

end Compiling
end Stencil
