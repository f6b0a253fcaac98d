import Stencil.Proofs.Emission
import Stencil.Proofs.Hygiene
import Stencil.Proofs.Mismatch
import Stencil.Proofs.Recording

/-! # Every use is accounted for

While content is expanded, a use is replaced by the instance that was built for it, or it is left out. Then
its instance was refused, and that is reported at the place of the use. What is refused has reported
warnings only, so there is one error for each use that is left out, whatever was found wrong before.
-/
namespace Stencil

open Resolving

/-! ## What expansion makes of content, session by session -/

section

variable (value : String → Resolving String) (R : Kind → Usage → Session → Content → Session → Prop)
  (D : Kind → Usage → Session → Session → Prop)

/-- One more line of a style block behind those already expanded. `R` tells what replaces a use and what
that makes of the session, `D` what leaving it out does. -/
inductive LineExpands (done : List StyleLine) :
    StyleLine → Session → List StyleLine → Session → Prop
  | property {name text filled : String} {s t : Session}
    (h : (value text).run s = (.ok filled, t)) :
    LineExpands done (.property name text) s (Element.putProperty name filled done) t
  | replaced {u : Usage} {p : StyleContent} {s t : Session} (h : R .style u s (.style p) t) :
    LineExpands done (.usage u) s (Expansion.putProperties p done) t
  | dropped {u : Usage} {s t : Session} (h : D .style u s t) :
    LineExpands done (.usage u) s done t

/-- The lines of a style block behind those already expanded. -/
inductive LinesExpand :
    List StyleLine → List StyleLine → Session → List StyleLine → Session → Prop
  | nil (done : List StyleLine) (s : Session) : LinesExpand done [] s done s
  | cons {done more result lines : List StyleLine} {line : StyleLine} {s r t : Session}
    (hline : LineExpands value R D done line s more r)
    (hlines : LinesExpand more lines r result t) : LinesExpand done (line :: lines) s result t

mutual

inductive NodeExpands : Node → Session → List Node → Session → Prop
  | text (text : String) (s : Session) : NodeExpands (.text text) s [.text text] s
  | replaced {u : Usage} {nodes : List Node} {s t : Session} (h : R .element u s (.element nodes) t) :
    NodeExpands (.usage u) s nodes t
  | dropped {u : Usage} {s t : Session} (h : D .element u s t) : NodeExpands (.usage u) s [] t
  | element {tag : String} {attributes : OrderedMap String String}
    {style style' : List StyleLine} {children children' : List Node} {s r t : Session}
    (hstyle : LinesExpand value R D [] style s style' r)
    (hchildren : NodesExpand children r children' t) :
    NodeExpands (.element ⟨tag, attributes, style, children⟩) s
      [.element ⟨tag, attributes, style', children'⟩] t

inductive NodesExpand : List Node → Session → List Node → Session → Prop
  | nil (s : Session) : NodesExpand [] s [] s
  | cons {n : Node} {ns front back : List Node} {s r t : Session} (hnode : NodeExpands n s front r)
    (hnodes : NodesExpand ns r back t) : NodesExpand (n :: ns) s (front ++ back) t

end

inductive Content.Expands : Content → Session → Content → Session → Prop
  | element {nodes nodes' : List Node} {s t : Session} (h : NodesExpand value R D nodes s nodes' t) :
    Expands (.element nodes) s (.element nodes') t
  | style {p filled : StyleContent} {s t : Session} (h : p.Fills filled) :
    Expands (.style p) s (.style filled) t
  | var (v : VarContent) (s : Session) : Expands (.var v) s (.var v) s

end

/-! ## Texts and elements keep their order -/

/-- A text or an element, without what is in the element. -/
inductive Mark where
  | text (text : String)
  | element (tag : String) (attributes : OrderedMap String String)

mutual

/-- The texts and elements in a node and below it, in the order in which they begin. -/
def Node.marks : Node → List Mark
  | .text t => [.text t]
  | .usage _ => []
  | .element ⟨tag, attributes, _, children⟩ => .element tag attributes :: Node.marksIn children

def Node.marksIn : List Node → List Mark
  | [] => []
  | n :: ns => n.marks ++ Node.marksIn ns

end

def Content.marks : Content → List Mark
  | .element nodes => Node.marksIn nodes
  | _ => []

theorem Node.marksIn_append (ns ms : List Node) :
    Node.marksIn (ns ++ ms) = Node.marksIn ns ++ Node.marksIn ms := by
  induction ns with
  | nil => rfl
  | cons n ns ih => rw [List.cons_append, marksIn, marksIn, ih, List.append_assoc]

section

variable {value : String → Resolving String} {R : Kind → Usage → Session → Content → Session → Prop}
  {D : Kind → Usage → Session → Session → Prop}

mutual

theorem NodeExpands.marks_sublist {n : Node} {ms : List Node} {s t : Session}
    (h : NodeExpands value R D n s ms t) : n.marks.Sublist (Node.marksIn ms) := by
  cases h with
  | text text s => simp [Node.marks, Node.marksIn]
  | replaced h => exact List.nil_sublist _
  | dropped h => exact List.nil_sublist _
  | element hstyle hchildren =>
    simpa [Node.marks, Node.marksIn] using hchildren.marks_sublist

theorem NodesExpand.marks_sublist {ns ms : List Node} {s t : Session}
    (h : NodesExpand value R D ns s ms t) : (Node.marksIn ns).Sublist (Node.marksIn ms) := by
  cases h with
  | nil s => exact List.Sublist.refl _
  | cons hnode hnodes =>
    rw [Node.marksIn, Node.marksIn_append]
    exact hnode.marks_sublist.append hnodes.marks_sublist

end

/-- No text and no element is lost, and they keep their order. -/
theorem Content.Expands.marks_sublist {b r : Content} {s t : Session}
    (h : b.Expands value R D s r t) : b.marks.Sublist r.marks := by
  cases h with
  | element hnodes => exact hnodes.marks_sublist
  | style hfills => exact List.Sublist.refl _
  | var v s => exact List.Sublist.refl _

end

/-! ## Results with the sessions around them -/

namespace Resolving

variable {α β : Type} {I : Session → Prop} {ds : Diagnostics}

/-- From a session that satisfies `I` the resolution keeps `I` and takes no diagnostic back. A result is
related by `P` to the sessions before and after it, if all diagnostics are among `ds` then. -/
def Traces (I : Session → Prop) (ds : Diagnostics) (x : Resolving α)
    (P : Session → α → Session → Prop) : Prop :=
  ∀ s, I s → I (x.after s) ∧ s.diagnostics <+: (x.after s).diagnostics ∧
    ∀ a, x.outcome s = .ok a → (x.after s).diagnostics <+: ds → P s a (x.after s)

namespace Traces

variable {x : Resolving α} {f : α → Resolving β} {P P' : Session → α → Session → Prop}
  {Q : α → Session → β → Session → Prop}

theorem mono (h : Traces I ds x P) (hP : ∀ s a t, P s a t → P' s a t) : Traces I ds x P' := by
  intro s hs
  obtain ⟨hI, hle, hx⟩ := h s hs
  exact ⟨hI, hle, fun a ha hds => hP s a _ (hx a ha hds)⟩

theorem pure (a : α) : Traces I ds (pure a) fun s b t => t = s ∧ b = a :=
  fun _ hs => ⟨hs, List.prefix_rfl, fun _ hb _ => ⟨rfl, (Except.ok.inj hb).symm⟩⟩

theorem throw (e : Failure) : Traces I ds (throw e) P := fun _ hs => ⟨hs, List.prefix_rfl, nofun⟩

theorem of_keeps (ds : Diagnostics) (hI : Keeps I x) (hx : Grows x) :
    Traces I ds x fun s a t => x.run s = (.ok a, t) :=
  fun s hs => ⟨(hI s hs).2, hx.le s, fun _ ha _ => Prod.ext ha rfl⟩

theorem of_gives {S : α → Prop} (h : Gives I x S) (hx : Grows x) :
    Traces I ds x fun _ a _ => S a :=
  fun s hs => ⟨(h s hs).2, hx.le s, fun a ha _ => (h s hs).1 a ha⟩

theorem lift (r : Except Failure α) : Traces I ds (liftM r) fun s a t => t = s ∧ r = .ok a := by
  cases r with
  | error e => exact throw e
  | ok a =>
    apply (pure a).mono
    rintro s _ t ⟨rfl, rfl⟩
    exact ⟨rfl, rfl⟩

theorem and (h : Traces I ds x P) (h' : Traces I ds x P') :
    Traces I ds x fun s a t => P s a t ∧ P' s a t :=
  fun s hs => ⟨(h s hs).1, (h s hs).2.1,
    fun a ha hds => ⟨(h s hs).2.2 a ha hds, (h' s hs).2.2 a ha hds⟩⟩

theorem started (h : Traces I ds x P) : Traces I ds x fun s a t => I s ∧ P s a t :=
  fun s hs => ⟨(h s hs).1, (h s hs).2.1, fun a ha hds => ⟨hs, (h s hs).2.2 a ha hds⟩⟩

theorem bind (hx : Traces I ds x P) (hf : ∀ a, Traces I ds (f a) (Q a)) :
    Traces I ds (x >>= f) fun s b t => ∃ a r, P s a r ∧ Q a r b t := by
  intro s hs
  obtain ⟨hI, hle, hP⟩ := hx s hs
  rw [after, outcome, run_bind]
  cases hout : x.outcome s with
  | error e => exact ⟨hI, hle, by simp⟩
  | ok a =>
    obtain ⟨hI', hle', hQ⟩ := hf a _ hI
    exact ⟨hI', hle.trans hle', fun b hb hds => ⟨a, _, hP a hout (hle'.trans hds), hQ b hb hds⟩⟩

/-- What is refused has reported warnings only, and is then reported itself. -/
theorem orReport (h : Traces I ds x P) (hx : Refuses x) (hsevere : ∀ s, I s → s.Severe)
    (hreport : ∀ s e span, I s → I (s.reporting e span)) (span : Option Span)
    {k : Except Problem α → Resolving (Option α)} (hok : ∀ a, k (.ok a) = Pure.pure (some a))
    (herror : ∀ e, k (.error e) = do report e span; return none) :
    Traces I ds (attempt x >>= k) fun s o t =>
      match o with
      | some a => P s a t
      | none => t.diagnostics <+: ds ∧ ∃ e r, x.run s = (.error (.refused e), r) ∧
          s.diagnostics.Warned r.diagnostics ∧ e.severity = .error ∧ t = r.reporting e span := by
  intro s hs
  obtain ⟨hI, hle, hP⟩ := h s hs
  rcases hout : x.outcome s with (e | f) | a
  · obtain ⟨herr, hwarned⟩ := hx s e (hsevere s hs) hout
    rw [after, outcome, run_attempt_bind_of_refused hout, herror]
    refine ⟨hreport _ e span hI, hle.trans (List.prefix_append _ _), fun o ho hds => ?_⟩
    obtain rfl := Except.ok.inj ho
    exact ⟨hds, e, x.after s, Prod.ext hout rfl, hwarned, herr, rfl⟩
  · have hrun : (attempt x >>= k).run s = (.error (.fault f), x.after s) := by
      rw [run_bind, outcome, after, run_attempt, hout]
      rfl
    rw [after, outcome, hrun]
    exact ⟨hI, hle, by simp⟩
  · rw [after, outcome, run_attempt_bind_of_ok hout, hok]
    refine ⟨hI, hle, fun o ho hds => ?_⟩
    obtain rfl := Except.ok.inj ho
    exact hP a hout hds

end Traces
end Resolving

namespace Expansion

variable {x : Expansion} {I : Session → Prop} {ds : Diagnostics}
  {R : Kind → Usage → Session → Content → Session → Prop} {D : Kind → Usage → Session → Session → Prop}

/-- What became of a use for a kind of group: content of that kind that replaces it, or nothing. -/
def Settles (R : Kind → Usage → Session → Content → Session → Prop)
    (D : Kind → Usage → Session → Session → Prop) (k : Kind) (u : Usage) (s : Session)
    (r : Option Content) (t : Session) : Prop :=
  match r with
  | some b => b.kind = k ∧ R k u s b t
  | none => D k u s t

/-- The lines of a style block with what became of a use behind them. -/
def linesWith (done : List StyleLine) : Option Content → List StyleLine
  | some (.style p) => putProperties p done
  | _ => done

/-- The nodes that stand where a use was. -/
def nodesFor : Option Content → List Node
  | some (.element nodes) => nodes
  | _ => []

theorem inlineLine_traces (hcontent : ∀ k u, Traces I ds (x.content k u) (Settles R D k u))
    (hvalue : ∀ v, Traces I ds (x.value v) fun s a t => (x.value v).run s = (.ok a, t))
    (done : List StyleLine) (line : StyleLine) :
    Traces I ds (x.inlineLine done line) (LineExpands x.value R D done line) := by
  cases line with
  | property name text =>
    apply ((hvalue text).bind fun filled => .pure _).mono
    rintro s _ t ⟨filled, r, h, rfl, rfl⟩
    exact .property h
  | usage u =>
    have hused : Traces I ds (x.inlineLine done (.usage u)) fun s b t => ∃ r s',
        Settles R D .style u s r s' ∧ t = s' ∧ b = linesWith done r := by
      apply (hcontent .style u).bind
      rintro (_ | (p | nodes | v)) <;> exact .pure _
    apply hused.mono
    rintro s b t ⟨r, s', h, rfl, rfl⟩
    rcases r with _ | (p | nodes | v)
    · exact .dropped h
    · exact .replaced h.2
    · cases h.1
    · cases h.1

theorem inlineLines_traces (hcontent : ∀ k u, Traces I ds (x.content k u) (Settles R D k u))
    (hvalue : ∀ v, Traces I ds (x.value v) fun s a t => (x.value v).run s = (.ok a, t))
    (done lines : List StyleLine) :
    Traces I ds (lines.foldlM x.inlineLine done) (LinesExpand x.value R D done lines) := by
  induction lines generalizing done with
  | nil =>
    apply (Traces.pure done).mono
    rintro s _ _ ⟨rfl, rfl⟩
    exact .nil _ _
  | cons line lines ih =>
    rw [List.foldlM_cons]
    apply ((inlineLine_traces hcontent hvalue done line).bind ih).mono
    rintro s b t ⟨more, r, hline, hlines⟩
    exact .cons hline hlines

mutual

theorem inlineNode_traces (hcontent : ∀ k u, Traces I ds (x.content k u) (Settles R D k u))
    (hvalue : ∀ v, Traces I ds (x.value v) fun s a t => (x.value v).run s = (.ok a, t)) (n : Node) :
    Traces I ds (x.inlineNode n) (NodeExpands x.value R D n) := by
  match n with
  | .text text =>
    rw [inlineNode]
    apply (Traces.pure _).mono
    rintro s _ _ ⟨rfl, rfl⟩
    exact .text text _
  | .usage u =>
    have hused : Traces I ds (x.inlineNode (.usage u)) fun s b t => ∃ r s',
        Settles R D .element u s r s' ∧ t = s' ∧ b = nodesFor r := by
      rw [inlineNode]
      apply (hcontent .element u).bind
      rintro (_ | (p | nodes | v)) <;> exact .pure _
    apply hused.mono
    rintro s b t ⟨r, s', h, rfl, rfl⟩
    rcases r with _ | (p | nodes | v)
    · exact .dropped h
    · cases h.1
    · exact .replaced h.2
    · cases h.1
  | .element ⟨tag, attributes, style, children⟩ =>
    rw [inlineNode]
    apply ((inlineLines_traces hcontent hvalue [] style).bind fun style' =>
      (inlineNodes_traces hcontent hvalue children).bind fun children' => .pure _).mono
    rintro s _ _ ⟨style', r, hstyle, children', t, hchildren, rfl, rfl⟩
    exact .element hstyle hchildren

theorem inlineNodes_traces (hcontent : ∀ k u, Traces I ds (x.content k u) (Settles R D k u))
    (hvalue : ∀ v, Traces I ds (x.value v) fun s a t => (x.value v).run s = (.ok a, t))
    (ns : List Node) : Traces I ds (x.inlineNodes ns) (NodesExpand x.value R D ns) := by
  match ns with
  | [] =>
    rw [inlineNodes]
    apply (Traces.pure _).mono
    rintro s _ _ ⟨rfl, rfl⟩
    exact .nil _
  | n :: ns =>
    rw [inlineNodes]
    apply ((inlineNode_traces hcontent hvalue n).bind fun front =>
      (inlineNodes_traces hcontent hvalue ns).bind fun back => .pure _).mono
    rintro s _ _ ⟨front, r, hfront, back, t, hback, rfl, rfl⟩
    exact .cons hfront hback

end

/-- Expanded content is what expansion makes of the content. -/
theorem inlineContent_traces (hcontent : ∀ k u, Traces I ds (x.content k u) (Settles R D k u))
    (hkeeps : ∀ v, Keeps I (x.value v)) (hgrows : ∀ v, Grows (x.value v)) (b : Content) :
    Traces I ds (x.inlineContent b) (b.Expands x.value R D) := by
  cases b with
  | element nodes =>
    have hvalue (v : String) := Traces.of_keeps ds (hkeeps v) (hgrows v)
    apply ((inlineNodes_traces hcontent hvalue nodes).bind fun nodes' => .pure _).mono
    rintro s _ _ ⟨nodes', t, h, rfl, rfl⟩
    exact .element h
  | style p =>
    have hfilled : Traces I ds (x.fillProperties p) fun _ filled _ => p.Fills filled :=
      .of_gives (fillProperties_gives hkeeps p)
        fun ds => .of_gives (fillProperties_gives (fun v => hgrows v ds) p)
    apply (hfilled.bind fun filled => .pure _).mono
    rintro s _ _ ⟨filled, t, h, rfl, rfl⟩
    exact .style h
  | var v =>
    apply (Traces.pure _).mono
    rintro s _ _ ⟨rfl, rfl⟩
    exact .var v _

end Expansion

/-! ## What becomes of a use -/

namespace Environment

/-- The instance of a use inside a definition of the namespace `owner`. -/
def nested (env : Environment) (site : UseSite) (owner : NamespaceId)
    (build : DefId → List Edit → Resolving Content) (kind : Kind) (u : Usage) : Resolving Content := do
  let id ← env.library.resolve owner u.name (.ofKind kind)
  env.checkUseOf site id
  build id u.edits

/-- The use is replaced by the instance that was built for it. Its name means `used`, and that is allowed
at the site. -/
structure Replaces (env : Environment) (site : UseSite) (owner : NamespaceId)
    (build : DefId → List Edit → Resolving Content) (kind : Kind) (u : Usage) (used : DefId)
    (s : Session) (b : Content) (t : Session) : Prop where
  means : env.library.resolve owner u.name (.ofKind kind) = .ok used
  allowed : env.AllowsDefinition site used
  built : (build used u.edits).run s = (.ok b, t)

/-- The use is left out. Its instance was refused, until then only warnings were reported, and now an
error is reported at the place of the use. -/
def Drops (env : Environment) (site : UseSite) (owner : NamespaceId)
    (build : DefId → List Edit → Resolving Content) (kind : Kind) (u : Usage) (s t : Session) : Prop :=
  ∃ e r, (env.nested site owner build kind u).run s = (.error (.refused e), r) ∧
    s.diagnostics.Warned r.diagnostics ∧ e.severity = .error ∧ t = r.reporting e u.span

/-- Every use is accounted for in the body, an instance of `id` with the edits inside of the instances
being expanded: what is expanded is the edited content of the definition, `R` tells which instance
replaced a use, in which every use is accounted for in turn, and a use is left out only if `drops` holds.
Texts and elements keep their order. -/
inductive Accounted (env : Environment) (site : UseSite) (drops : Prop) :
    List DefId → DefId → List Edit → Session → Content → Session → Prop
  | intro {expanding : List DefId} {id : DefId} {edits : List Edit} {d : Definition}
    {raw body : Content} {s r t : Session}
    {R : Kind → Usage → DefId → Session → Content → Session → Prop}
    (hd : env.library.definitions.get? id = some d)
    (hraw : (env.library.contentEdited id edits).run s = (.ok raw, r))
    (hbody : (raw.dropUnfilled d.identity.render).1.Expands (env.fillIn site d.home)
      (fun k u s b t => ∃ used, R k u used s b t)
      (fun k u s t =>
        drops ∧ env.Drops site d.home (env.build site (id :: expanding)) k u s t)
      ((reportAll (raw.dropUnfilled d.identity.render).2).after r) body t)
    (horder : (raw.dropUnfilled d.identity.render).1.marks.Sublist body.marks)
    (hreplaced : ∀ k u used s b t, R k u used s b t →
      env.Replaces site d.home (env.build site (id :: expanding)) k u used s b t)
    (hnested : ∀ k u used s b t, R k u used s b t →
      Accounted env site drops (id :: expanding) used u.edits s b t) :
    Accounted env site drops expanding id edits s body t

end Environment

/-- Since there were the diagnostics `before` none was taken back, and what is remembered has the kind of
its definition or counts as an error. -/
structure Session.Orderly (l : Library) (before : Diagnostics) (s : Session) : Prop where
  reported : s.Reported before
  kinded : l.Kinded s

theorem Library.respects_orderly (l : Library) (before : Diagnostics) :
    l.Respects (Session.Orderly l before) fun id _ b => l.HasKind id b where
  report s e span h := ⟨.reporting s e span h.reported, h.kinded⟩
  content id s h := ⟨fun _ _ => trivial, ((l.respects_reported before).content id s h.reported).2,
    (l.respects_kinded.content id s h.kinded).2⟩
  edited id edits s h := ⟨(l.respects_kinded.edited id edits s h.kinded).1,
    ((l.respects_reported before).edited id edits s h.reported).2,
    (l.respects_kinded.edited id edits s h.kinded).2⟩

namespace Environment

variable {env : Environment} {site : UseSite} {before ds : Diagnostics} {drops : Prop}

theorem nested_refuses (owner : NamespaceId) {build : DefId → List Edit → Resolving Content}
    (hbuild : ∀ used edits, Refuses (build used edits)) (k : Kind) (u : Usage) :
    Refuses (env.nested site owner build k u) := by
  refine .bind (fun ds => Yields.lift (env.library.resolve_severe _ _ _)) fun used => ?_
  exact .bind (fun ds => Yields.lift (checkUseOf_severe used)) fun _ => hbuild used u.edits

/-- How instances are built for what is used: each session by session as `B` says, of the kind of its
definition, and refused with warnings only. -/
structure Builds (env : Environment) (before ds : Diagnostics)
    (build : DefId → List Edit → Resolving Content)
    (B : DefId → List Edit → Session → Content → Session → Prop) : Prop where
  traces : ∀ used edits, Traces (Session.Orderly env.library before) ds (build used edits)
    fun s b t => (build used edits).run s = (.ok b, t) ∧ env.library.HasKind used b ∧
      B used edits s b t
  refuses : ∀ used edits, Refuses (build used edits)

section

variable {build : DefId → List Edit → Resolving Content}
  {B : DefId → List Edit → Session → Content → Session → Prop} {owner : NamespaceId}

theorem Builds.nested_traces (h : env.Builds before ds build B) (k : Kind) (u : Usage) :
    Traces (Session.Orderly env.library before) ds (env.nested site owner build k u)
      fun s b t => ∃ used, env.library.HasKind used b ∧
        env.Replaces site owner build k u used s b t ∧ B used u.edits s b t := by
  apply ((Traces.lift (env.library.resolve owner u.name (.ofKind k))).bind fun used =>
    (Traces.lift (env.checkUseOf site used)).bind fun _ => h.traces used u.edits).mono
  rintro s b t ⟨used, r, ⟨rfl, hmeans⟩, _, r, ⟨rfl, hallowed⟩, hbuilt, hkind, hB⟩
  exact ⟨used, hkind, ⟨hmeans, checkUseOf_eq_ok.1 hallowed, hbuilt⟩, hB⟩

/-- A use is replaced by the instance that was built for it, or an error is reported for it. -/
theorem Builds.usageContent_traces (h : env.Builds before ds build B)
    (hdrops : ∀ d ∈ ds.drop before.length, d.isError = true → drops)
    (hkinds : ∀ n k used, env.library.resolve owner n (.ofKind k) = .ok used →
      ∃ d, env.library.definitions.get? used = some d ∧ d.kind = k) (k : Kind) (u : Usage) :
    Traces (Session.Orderly env.library before) ds (env.usageContent site owner build k u)
      (Expansion.Settles
        (fun k u s b t => ∃ used, env.Replaces site owner build k u used s b t ∧
          B used u.edits s b t)
        (fun k u s t => drops ∧ env.Drops site owner build k u s t) k u) := by
  apply ((h.nested_traces k u).orReport (nested_refuses owner h.refuses k u)
    (fun s hs => hs.reported.severe) (env.library.respects_orderly before).report u.span
    (fun _ => rfl) fun _ => rfl).started.mono
  rintro s (_ | b) t ⟨hs, hr⟩
  · obtain ⟨hds, e, r, hrefused, hwarned, hsevere, rfl⟩ := hr
    refine ⟨hdrops (.ofError e u.span) ?_ ?_, e, r, hrefused, hwarned, hsevere, rfl⟩
    · -- The error is the last diagnostic of that session, and all of those stay.
      have hlength := (hs.reported.le.trans hwarned.le).length_le
      refine (hds.drop before.length).subset ?_
      change _ ∈ List.drop _ (r.diagnostics ++ [_])
      simp [List.drop_append_of_le_length hlength]
    · simp [Diagnostic.isError, Diagnostic.ofError, hsevere]
  · obtain ⟨used, ⟨d, hd, hkind⟩, hreplaces, hB⟩ := hr
    obtain ⟨d', hd', rfl⟩ := hkinds u.name k used hreplaces.means
    obtain rfl := Option.some.inj (hd.symm.trans hd')
    exact ⟨hkind, used, hreplaces, hB⟩

/-- What is finished accounts for every use in it. -/
theorem Builds.finish_traces (h : env.Builds before ds build B) {d : Definition}
    (hdrops : ∀ d ∈ ds.drop before.length, d.isError = true → drops)
    (hkinds : ∀ n k used, env.library.resolve d.home n (.ofKind k) = .ok used →
      ∃ d', env.library.definitions.get? used = some d' ∧ d'.kind = k) (raw : Content) :
    Traces (Session.Orderly env.library before) ds (env.finish site d build raw) fun s body t =>
      (raw.dropUnfilled d.identity.render).1.Expands (env.fillIn site d.home)
        (fun k u s b t => ∃ used, env.Replaces site d.home build k u used s b t ∧ B used u.edits s b t)
        (fun k u s t => drops ∧ env.Drops site d.home build k u s t)
        ((reportAll (raw.dropUnfilled d.identity.render).2).after s) body t := by
  have hrespects := env.library.respects_orderly before
  have hgrows (ds : Diagnostics) := (env.library.walks_growing ds).respects
  have hreport : Keeps (Session.Orderly env.library before)
      (reportAll (raw.dropUnfilled d.identity.render).2) := .reportAll hrespects.report
  have hwarnings := Traces.of_keeps ds hreport fun ds => .reportAll (reporting_grows ds)
  apply (hwarnings.bind fun _ => (Traces.lift _).bind fun _ =>
    Expansion.inlineContent_traces (h.usageContent_traces hdrops hkinds)
      (fun v => fillIn_keeps hrespects d.home v) (fun v ds => fillIn_keeps (hgrows ds) d.home v) _).mono
  rintro s body t ⟨_, r, hreported, _, _, ⟨rfl, -⟩, hbody⟩
  rw [after, hreported]
  exact hbody

end

theorem build_hasKind (env : Environment) (site : UseSite) (before : Diagnostics)
    (expanding : List DefId) (id : DefId) (edits : List Edit) :
    Gives (Session.Orderly env.library before) (env.build site expanding id edits)
      (env.library.HasKind id) :=
  (build_gives (env.library.respects_orderly before) expanding id edits).mono
    fun _ h => h.kind_eq fun _ _ _ hraw => hraw

theorem build_grows (env : Environment) (site : UseSite) (expanding : List DefId) (id : DefId)
    (edits : List Edit) :
    Grows (env.build site expanding id edits) :=
  fun ds => .of_gives (build_gives (env.library.walks_growing ds).respects expanding id edits)

/-- Every use is accounted for in an instance that is built. -/
theorem build_traces (hdrops : ∀ d ∈ ds.drop before.length, d.isError = true → drops)
    (hdiscerning : env.library.Discerning) (expanding : List DefId) (id : DefId) (edits : List Edit) :
    Traces (Session.Orderly env.library before) ds (env.build site expanding id edits)
      (env.Accounted site drops expanding id edits) := by
  rw [build]
  by_cases hid : id ∈ expanding
  · simp only [hid, dif_pos]
    apply (Traces.bind (P := fun _ _ _ => True) (Q := fun _ _ _ _ => False) ?_ fun _ => .throw _).mono
    · rintro s b t ⟨_, _, -, h⟩
      exact h.elim
    · exact .of_gives (.liftFault fun _ _ => trivial) fun _ => .liftFault _
  · simp only [hid, dif_neg, not_false_eq_true]
    split
    · exact .throw _
    · rename_i d hd
      have hbuilds : env.Builds before ds (env.build site (id :: expanding))
          (env.Accounted site drops (id :: expanding)) := by
        refine ⟨fun used edits => ?_, build_refuses (id :: expanding)⟩
        have := Arena.unvisited_cons_lt hd hid
        have hkind := build_hasKind env site before (id :: expanding) used edits
        have hgrows := build_grows env site (id :: expanding) used edits
        exact (Traces.of_keeps ds (.of_gives hkind) hgrows).and ((Traces.of_gives hkind hgrows).and
          (build_traces hdrops hdiscerning (id :: expanding) used edits))
      have hraw := Traces.of_keeps ds
        (Keeps.of_gives ((env.library.respects_orderly before).edited id edits))
        (fun ds => (env.library.walks_growing ds).respects.edited id edits)
      rw [assemble_eq]
      apply (hraw.bind (hbuilds.finish_traces hdrops (hdiscerning id d hd))).mono
      rintro s body t ⟨raw, r, hraw, hbody⟩
      exact .intro (R := fun k u used s b t =>
          env.Replaces site d.home (env.build site (id :: expanding)) k u used s b t ∧
            env.Accounted site drops (id :: expanding) used u.edits s b t)
        hd hraw hbody hbody.marks_sublist (fun _ _ _ _ _ _ h => h.1) fun _ _ _ _ _ _ h => h.2
termination_by env.library.definitions.unvisited expanding

theorem instanceOf_traces (site : UseSite)
    (hdrops : ∀ d ∈ ds.drop before.length, d.isError = true → drops)
    (hdiscerning : env.library.Discerning) (n : Name) (edits : List Edit) (expected : Category) :
    Traces (Session.Orderly env.library before) ds (env.instanceOf site n edits expected)
      fun s inst t => ∃ id, inst.definition = some id ∧
        env.Accounted site drops [] id edits s inst.body t := by
  have hfind (id : DefId) := Traces.of_keeps ds
    (Keeps.liftFault (I := Session.Orderly env.library before) (env.library.find id))
    fun _ => .liftFault _
  apply ((Traces.lift (env.resolveUse site n expected)).bind fun id =>
    (build_traces hdrops hdiscerning [] id edits).bind fun body =>
      (hfind id).bind fun d => .pure _).mono
  rintro s _ t' ⟨id, r, ⟨rfl, -⟩, body, t, hbody, d, r, hfound, rfl, rfl⟩
  -- Looking the definition up leaves the session as it is.
  have hsame : t' = t := (congrArg Prod.snd hfound).symm
  exact ⟨id, rfl, hsame ▸ hbody⟩

end Environment

theorem Compiling.session_after_recording {α : Type} {x : Environment → Resolving α} {c : Compilation}
    {a : α} (span : Option Span) (h : (recording span (resolving x)).outcome c = .ok a) :
    (x c.environment).outcome c.session = .ok a ∧
      ((recording span (resolving x)).after c).session = (x c.environment).after c.session := by
  rw [outcome_recording, outcome_resolving] at h
  refine ⟨h, ?_⟩
  rw [recording, after, run_tryCatch, outcome_resolving, h]
  rfl

namespace Compilation

/-- Every use that is met while an instance is built is accounted for, at every depth: it is replaced by
its own instance, or it is left out and one error is reported for it. If no error is reported, no use
is left out. -/
theorem Reachable.instance_accounted {c : Compilation} (hc : c.Reachable) (hfits : c.Fits) (n : Name)
    (edits : List Edit) (expected : Category) (site : UseSite) (span : Option Span) {inst : Instance}
    (h : (Compiling.instanceOfName n edits expected site span).outcome c = .ok inst) :
    ∃ id, inst.definition = some id ∧
      c.environment.Accounted site True [] id edits c.session inst.body
        ((Compiling.instanceOfName n edits expected site span).after c).session ∧
      ((∀ d ∈ ((Compiling.instanceOfName n edits expected site span).after c).diagnostics.drop
          c.diagnostics.length, d.isError = false) →
        c.environment.Accounted site False [] id edits c.session inst.body
          ((Compiling.instanceOfName n edits expected site span).after c).session) := by
  obtain ⟨hout, hafter⟩ := Compiling.session_after_recording span h
  simp only [Compiling.instanceOfName, diagnostics, hafter]
  have hdiscerning := hc.intact.discerning (hc.filed hfits)
  have horderly : c.session.Orderly c.library c.session.diagnostics :=
    ⟨⟨List.prefix_rfl, hc.severe⟩, hc.kinded⟩
  have hall (drops : Prop) (hdrops : ∀ d ∈ ((c.environment.instanceOf site n edits expected).after
      c.session).diagnostics.drop c.session.diagnostics.length, d.isError = true → drops) :=
    (Environment.instanceOf_traces site hdrops hdiscerning n edits expected c.session horderly).2.2
      inst hout List.prefix_rfl
  obtain ⟨id, hid, haccounted⟩ := hall True fun _ _ _ => trivial
  refine ⟨id, hid, haccounted, fun hnone => ?_⟩
  obtain ⟨id', hid', hcomplete⟩ := hall False fun d hd herror => by
    rw [hnone d hd] at herror
    cases herror
  obtain rfl := Option.some.inj (hid.symm.trans hid')
  exact hcomplete

end Compilation

/-- A desk with a drawer, which has a knob and is painted with ink, and with a lamp, for which there is no
group. -/
def study : Compilation :=
  let group (kind : Kind) (name : String) (body : Content) : Operation :=
    .addGroup ⟨.custom, kind, name⟩ body [] .empty none
  let use (name : String) (line : Nat) : Usage :=
    ⟨.ofKind .element name, [], some (.point ⟨line, 0⟩)⟩
  let ink : StyleLine := .usage ⟨.ofKind .style "Ink", [], none⟩
  Operation.afterAll
    [group .style "Ink" (.style (.ofList [("color", .concrete "blue")])),
      group .element "Knob" (.element [.element ⟨"i", .empty, [], []⟩]),
      group .element "Drawer" (.element [.element ⟨"ul", .empty, [ink], [.usage (use "Knob" 1)]⟩]),
      group .element "Desk" (.element [.usage (use "Drawer" 2), .usage (use "Lamp" 3), .text "desk"])]
    (.initial .initial)

/-- The lamp is left out of the desk with an error at its place. Nothing is left out of the drawer. -/
theorem instance_accounted_study :
    let shown (name : String) := Compiling.instanceOfName (.ofKind .element name) [] .any .global none
    study.Reachable ∧ study.Fits ∧
    (∃ inst, (shown "Desk").outcome study = .ok inst ∧ inst.body.tags? = some ["ul"] ∧
      ((shown "Desk").after study).diagnostics =
        [.ofError (.unresolved "@Element Lamp") (some (.point ⟨3, 0⟩))] ∧
      study.environment.Accounted .global True [] ⟨3⟩ [] study.session inst.body
        ((shown "Desk").after study).session) ∧
    ∃ inst, (shown "Drawer").outcome study = .ok inst ∧ inst.body.tags? = some ["ul"] ∧
      study.environment.Accounted .global False [] ⟨2⟩ [] study.session inst.body
        ((shown "Drawer").after study).session := by
  intro shown
  have hreach : study.Reachable := (Compilation.Reachable.initial .initial).afterAll _
  have hfits : study.Fits := ⟨by decide +kernel, by decide +kernel⟩
  have hdesk : ((shown "Desk").outcome study).map
      (fun inst => (inst.body.tags?, inst.definition)) = .ok (some ["ul"], some ⟨3⟩) := by
    decide +kernel
  have hdrawer : ((shown "Drawer").outcome study).map
      (fun inst => (inst.body.tags?, inst.definition)) = .ok (some ["ul"], some ⟨2⟩) := by
    decide +kernel
  have hdiagnostics : ((shown "Desk").after study).diagnostics =
      [.ofError (.unresolved "@Element Lamp") (some (.point ⟨3, 0⟩))] := by
    decide +kernel
  have hquiet : ((shown "Drawer").after study).diagnostics = [] := by decide +kernel
  refine ⟨hreach, hfits, ?_, ?_⟩
  · obtain ⟨inst, hinst, heq⟩ := Except.map_eq_ok.1 hdesk
    obtain ⟨htags, hdefinition⟩ := Prod.mk.inj heq
    obtain ⟨id, hid, haccounted, -⟩ := hreach.instance_accounted hfits _ _ _ _ _ hinst
    obtain rfl := Option.some.inj (hid.symm.trans hdefinition)
    exact ⟨inst, hinst, htags, hdiagnostics, haccounted⟩
  · obtain ⟨inst, hinst, heq⟩ := Except.map_eq_ok.1 hdrawer
    obtain ⟨htags, hdefinition⟩ := Prod.mk.inj heq
    obtain ⟨id, hid, -, hcomplete⟩ := hreach.instance_accounted hfits _ _ _ _ _ hinst
    obtain rfl := Option.some.inj (hid.symm.trans hdefinition)
    refine ⟨inst, hinst, htags, hcomplete fun d hd => ?_⟩
    rw [hquiet] at hd
    cases List.mem_of_mem_drop hd

end Stencil
