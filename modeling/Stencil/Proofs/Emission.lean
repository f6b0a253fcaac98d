import Stencil.Proofs.Reachable

/-! # Instances are ready to emit

Nothing is left in an instance that would have to be looked up, and everything in it is allowed
where it is used.
-/
namespace Stencil

/-- The lines are properties with different names. -/
def StyleLine.Settled (lines : List StyleLine) : Prop :=
  ∃ m : OrderedMap String String, lines = m.entries.map fun e => .property e.1 e.2

/-- No use is left in the node or below it, and every tag there is allowed. -/
inductive Node.Ready (allowed : String → Prop) : Node → Prop
  | text (t : String) : Ready allowed (.text t)
  | element {e : Element} (htag : allowed e.tag) (hstyle : StyleLine.Settled e.style)
    (hchildren : ∀ n ∈ e.children, Ready allowed n) : Ready allowed (.element e)

/-- The nodes are ready, or every property has a value. -/
def Content.Ready (allowed : String → Prop) : Content → Prop
  | .element nodes => ∀ n ∈ nodes, n.Ready allowed
  | .style s => ∀ e ∈ s.properties.entries, e.2 ≠ .placeholder
  | .var _ => True

namespace StyleLine

theorem settled_nil : Settled [] := ⟨.empty, rfl⟩

theorem putProperty_map (name value : String) (es : List (String × String)) :
    Element.putProperty name value (es.map fun e => .property e.1 e.2) =
      (OrderedMap.put name value es).map fun e => .property e.1 e.2 := by
  induction es with
  | nil => rfl
  | cons e es ih =>
    rw [List.map_cons, Element.putProperty, OrderedMap.put]
    split
    · rename_i h
      simp [h]
    · simp [ih]

theorem Settled.putProperty {lines : List StyleLine} (h : Settled lines) (name value : String) :
    Settled (Element.putProperty name value lines) := by
  obtain ⟨m, rfl⟩ := h
  exact ⟨m.insert name value, putProperty_map name value m.entries⟩

theorem Settled.putProperties {lines : List StyleLine} (h : Settled lines) (s : StyleContent) :
    Settled (Expansion.putProperties s lines) := by
  unfold Expansion.putProperties
  induction s.properties.entries generalizing lines with
  | nil => exact h
  | cons e es ih =>
    obtain ⟨name, value⟩ := e
    cases value with
    | concrete text => exact ih (h.putProperty name text)
    | placeholder => exact ih h

end StyleLine

variable {C : Kind → Usage → Content → Prop} {check : String → Except Failure Unit}
  {allowed : String → Prop}

theorem LineInlines.settled {done result : List StyleLine} {line : StyleLine}
    (h : LineInlines C done line result) (hdone : StyleLine.Settled done) :
    StyleLine.Settled result := by
  cases h with
  | property name value filled => exact hdone.putProperty name filled
  | usage u s hs => exact hdone.putProperties s
  | dropped u => exact hdone

theorem LinesInline.settled {done lines result : List StyleLine}
    (h : LinesInline C done lines result) (hdone : StyleLine.Settled done) :
    StyleLine.Settled result := by
  induction h with
  | nil done => exact hdone
  | cons hline _ ih => exact ih (hline.settled hdone)

theorem forTags_bind_ok {x y : Except Failure Unit} (h : (do x; y) = .ok ()) :
    x = .ok () ∧ y = .ok () := by
  cases x with
  | error e => cases h
  | ok u => exact ⟨rfl, h⟩

mutual

/-- What a node expands to is ready, if its tags are allowed and what stands for the uses is
ready. -/
theorem NodeInlines.ready (hallowed : ∀ tag, check tag = .ok () → allowed tag)
    (hC : ∀ k u c, C k u c → c.Ready allowed) {n : Node} {ms : List Node}
    (h : NodeInlines C n ms) (htags : n.forTags check = .ok ()) :
    ∀ m ∈ ms, m.Ready allowed := by
  cases h with
  | text t => simpa using Node.Ready.text t
  | usage u _ hu => exact hC .element u (.element ms) hu
  | dropped u => simp
  | @element tag attributes style style' children children' hstyle hchildren =>
    rw [Node.forTags] at htags
    obtain ⟨htag, hbelow⟩ := forTags_bind_ok htags
    have hready := hchildren.ready hallowed hC hbelow
    simpa using Node.Ready.element (e := ⟨tag, attributes, style', children'⟩) (hallowed tag htag)
      (hstyle.settled StyleLine.settled_nil) hready

theorem NodesInline.ready (hallowed : ∀ tag, check tag = .ok () → allowed tag)
    (hC : ∀ k u c, C k u c → c.Ready allowed) {ns ms : List Node}
    (h : NodesInline C ns ms) (htags : Node.forTagsIn check ns = .ok ()) :
    ∀ m ∈ ms, m.Ready allowed := by
  cases h with
  | nil => simp
  | cons hnode hnodes =>
    rw [Node.forTagsIn] at htags
    obtain ⟨htag, hrest⟩ := forTags_bind_ok htags
    intro m hm
    rcases List.mem_append.1 hm with hm | hm
    · exact hnode.ready hallowed hC htag m hm
    · exact hnodes.ready hallowed hC hrest m hm

end

theorem StyleContent.placeholder_mem {s : StyleContent} {e : String × StyleValue}
    (he : e ∈ s.properties.entries) (hvalue : e.2 = .placeholder) : e.1 ∈ s.placeholders := by
  apply List.mem_map_of_mem
  rw [List.mem_filter, hvalue]
  exact ⟨he, rfl⟩

/-- What is left of a style group when the placeholders without a value are taken out has only
values. -/
theorem StyleContent.ready_dropUnfilled (s : StyleContent) (target : String) :
    ((Content.style s).dropUnfilled target).1.Ready allowed := by
  intro e he hvalue
  obtain ⟨hmem, hnames⟩ := mem_foldl_erase he
  exact hnames (placeholder_mem hmem hvalue)

theorem StyleContent.Fills.ready {s filled : StyleContent} (h : s.Fills filled)
    (hs : (Content.style s).Ready allowed) : (Content.style filled).Ready allowed := by
  intro e he hvalue
  have hmem : (e.1, e.2.isPlaceholder) ∈ s.properties.entries.map fun e =>
      (e.1, e.2.isPlaceholder) := by
    rw [← h]
    exact List.mem_map_of_mem (f := fun e => (e.1, e.2.isPlaceholder)) he
  obtain ⟨e', he', heq⟩ := List.mem_map.1 hmem
  have hflag : e'.2.isPlaceholder = true := by
    rw [(Prod.mk.inj heq).2, hvalue]
    rfl
  apply hs e' he'
  cases hv : e'.2 with
  | concrete text => rw [hv] at hflag; cases hflag
  | placeholder => rfl

/-- Expanded content is ready, if the tags of the content it is made from are allowed and what
stands for the uses is ready. -/
theorem Content.Inlines.ready (hallowed : ∀ tag, check tag = .ok () → allowed tag)
    (hC : ∀ k u c, C k u c → c.Ready allowed) {raw body : Content} {target : String}
    (h : (raw.dropUnfilled target).1.Inlines C body)
    (htags : (raw.dropUnfilled target).1.forTags check = .ok ()) : body.Ready allowed := by
  cases raw with
  | element nodes =>
    cases h with
    | element hnodes => exact hnodes.ready hallowed hC htags
  | style s =>
    cases h with
    | style hfills => exact hfills.ready (s.ready_dropUnfilled target)
  | var v =>
    cases h with
    | var v => trivial

namespace Environment

variable {env : Environment} {K : DefId → List Edit → Content → Prop} {site : UseSite}
  {id : DefId} {edits : List Edit} {body : Content}

/-- A composed instance is ready, by induction on the instances it is made from. -/
theorem Composed.ready (h : env.Composed K site id edits body) :
    body.Ready fun tag => env.Allows site (.element tag) := by
  induction h with
  | intro _ _ htags hbody _ _ _ ih =>
    refine hbody.ready (fun tag h => checkUse_eq_ok.1 h) (fun k u c hc => ?_) htags
    obtain ⟨used, hu⟩ := hc
    exact ih k u used c hu

theorem Composed.kind_eq (hK : ∀ id edits raw, K id edits raw → env.library.HasKind id raw)
    (h : env.Composed K site id edits body) : env.library.HasKind id body := by
  cases h with
  | intro _ hraw _ hbody _ _ _ =>
    obtain ⟨d, hd, hkind⟩ := hK _ _ _ hraw
    exact ⟨d, hd, by rw [hbody.kind_eq, Content.kind_dropUnfilled, hkind]⟩

/-- What the edits of a definition give in some session, and its kind. -/
def GivenContent (env : Environment) (id : DefId) (edits : List Edit) (raw : Content) : Prop :=
  env.library.HasKind id raw ∧ ∃ s, (env.library.contentEdited id edits).outcome s = .ok raw

theorem respects_givenContent (env : Environment) :
    env.library.Respects env.library.Kinded env.GivenContent where
  report := env.library.respects_kinded.report
  content := env.library.respects_kinded.content
  edited id edits s hs := by
    obtain ⟨hkind, hafter⟩ := env.library.respects_kinded.edited id edits s hs
    exact ⟨fun raw hraw => ⟨hkind raw hraw, s, hraw⟩, hafter⟩

end Environment

/-- Whatever was done before, an instance has the kind of its definition and is ready to emit. Its
definition and all that were inlined into it are allowed at the use. -/
theorem Compilation.Reachable.instance_ready {c : Compilation} (hc : c.Reachable) (n : Name)
    (edits : List Edit) (expected : Category) (site : UseSite) (span : Option Span)
    {inst : Instance}
    (h : (Compiling.instanceOfName n edits expected site span).outcome c = .ok inst) :
    ∃ id d, inst.definition = some id ∧ inst.identity = some d.identity ∧
      c.definitions.get? id = some d ∧ inst.body.kind = d.identity.kind ∧
      inst.body.Ready (fun tag => c.environment.Allows site (.element tag)) ∧
      c.environment.Allows site (.definition d.identity) ∧
      c.environment.Composed c.environment.GivenContent site id edits inst.body := by
  rw [Compiling.instanceOfName, Compiling.outcome_recording, Compiling.outcome_resolving] at h
  obtain ⟨id, d, hid, hidentity, hd, -, ⟨d', hd', hallowed⟩, hcomposed⟩ :=
    (Environment.instanceOf_gives c.environment.respects_givenContent n edits expected
      c.session hc.kinded).1 inst h
  obtain rfl : d = d' := Option.some.inj (hd.symm.trans hd')
  obtain ⟨d', hd', hkind⟩ := hcomposed.kind_eq fun _ _ _ hraw => hraw.1
  obtain rfl : d = d' := Option.some.inj (hd.symm.trans hd')
  exact ⟨id, d, hid, hidentity, hd, hkind, hcomposed.ready, hallowed, hcomposed⟩

/-- A card with an icon in it and a style group used in its style block, where one tag is denied. -/
def deck : Compilation :=
  let group (kind : Kind) (name : String) (body : Content) : Operation :=
    .addGroup ⟨.custom, kind, name⟩ body [] .empty none
  let icon : Node := .usage ⟨.ofKind .element "Icon", [], none⟩
  let tone : StyleLine := .usage ⟨.ofKind .style "Tone", [], none⟩
  Operation.afterAll
    [.addRule (.name "span") .global none,
      group .style "Tone" (.style (.ofList [("color", .concrete "red"), ("top", .placeholder)])),
      group .element "Icon" (.element [.element ⟨"i", .empty, [], []⟩]),
      group .element "Card" (.element [.element
        ⟨"div", .empty, [.property "color" "blue", tone, .property "color" "grey"], [icon]⟩])]
    (.initial .initial)

theorem deck_reachable : deck.Reachable := (Compilation.Reachable.initial .initial).afterAll _

/-- An icon is put below the card where it is used. -/
theorem instance_ready_deck :
    deck.Reachable ∧ ∃ inst,
      (Compiling.instanceOfName (.ofKind .element "Card")
        [.insert .atBottom none [.usage ⟨.ofKind .element "Icon", [], none⟩]] .any .global
        none).outcome deck = .ok inst ∧
      inst.body.tags? = some ["div", "i"] ∧
      ∃ id d, inst.definition = some id ∧ inst.identity = some d.identity ∧
        deck.definitions.get? id = some d ∧ inst.body.kind = d.identity.kind ∧
        inst.body.Ready (fun tag => deck.environment.Allows .global (.element tag)) ∧
        deck.environment.Allows .global (.definition d.identity) ∧
        deck.environment.Composed deck.environment.GivenContent .global id
          [.insert .atBottom none [.usage ⟨.ofKind .element "Icon", [], none⟩]] inst.body := by
  have htags : ((Compiling.instanceOfName (.ofKind .element "Card")
      [.insert .atBottom none [.usage ⟨.ofKind .element "Icon", [], none⟩]] .any .global
      none).outcome deck).map (fun inst => inst.body.tags?) = .ok (some ["div", "i"]) := by
    decide +kernel
  refine ⟨deck_reachable, ?_⟩
  cases hinst : (Compiling.instanceOfName (.ofKind .element "Card")
      [.insert .atBottom none [.usage ⟨.ofKind .element "Icon", [], none⟩]] .any .global
      none).outcome deck with
  | error e => rw [hinst] at htags; cases htags
  | ok inst =>
    rw [hinst] at htags
    exact ⟨inst, rfl, Except.ok.inj htags, deck_reachable.instance_ready _ _ _ _ _ hinst⟩

end Stencil
