import Stencil.Proofs.Flattening
import Stencil.Proofs.Gaps
import Stencil.Proofs.Hygiene

/-! # What edits bring

Edits bring uses and values to the content of a group, and all names in them are looked up from the
namespace of that group, wherever the edits were written. Where such a name means the same in both
namespaces, the instance shows what the use means where it was written, at the place where it was
inserted, and a value is filled in as where it was written.
-/
namespace Stencil

open Resolving

/-! ## Gaps under expansion -/

/-- What expansion makes of the nodes around a gap. -/
inductive Gap.Inlines (C : Kind → Usage → Content → Prop) : Gap → Gap → Prop
  | top {front front' back back' : List Node} (hfront : NodesInline C front front')
    (hback : NodesInline C back back') : Inlines C (.top front back) (.top front' back')
  | inside {tag : String} {attributes : OrderedMap String String} {style style' : List StyleLine}
    {front front' back back' : List Node} {gap gap' : Gap} (hfront : NodesInline C front front')
    (hstyle : LinesInline C [] style style') (hgap : Inlines C gap gap')
    (hback : NodesInline C back back') :
    Inlines C (.inside front tag attributes style gap back)
      (.inside front' tag attributes style' gap' back')

/-- What expansion makes of nodes in which a property stands in the gap and is filled in. Properties
of that name behind the gap take its place. -/
inductive BlockGap.Inlines (C : Kind → Usage → Content → Prop) (g : BlockGap) (name filled : String) :
    List Node → Prop
  | intro {front children back : List Node} {done style : List StyleLine}
    (hfront : NodesInline C g.front front) (hbefore : LinesInline C [] g.before done)
    (hafter : LinesInline C (Element.putProperty name filled done) g.after style)
    (hchildren : NodesInline C g.children children) (hback : NodesInline C g.back back) :
    Inlines C g name filled (front ++ .element ⟨g.tag, g.attributes, style, children⟩ :: back)

namespace Expansion

variable {x : Expansion} {I : Session → Prop} {C : Kind → Usage → Content → Prop}

theorem inlineNodes_append (x : Expansion) (ns ns' : List Node) :
    x.inlineNodes (ns ++ ns') = (do
      let front ← x.inlineNodes ns
      let back ← x.inlineNodes ns'
      return front ++ back) := by
  induction ns with
  | nil => simp [inlineNodes]
  | cons n ns ih =>
    simp only [List.cons_append, inlineNodes, ih, bind_assoc, pure_bind, List.append_assoc]

theorem inlineNodes_append_gives {ns ns' : List Node} {P P' : List Node → Prop}
    (h : Gives I (x.inlineNodes ns) P) (h' : Gives I (x.inlineNodes ns') P') :
    Gives I (x.inlineNodes (ns ++ ns')) fun r =>
      ∃ front back, P front ∧ P' back ∧ r = front ++ back := by
  rw [inlineNodes_append]
  apply h.bind
  intro front hfront
  apply h'.bind
  intro back hback
  exact .pure ⟨front, back, hfront, hback, rfl⟩

theorem inlineNodes_element_gives (tag : String) (attributes : OrderedMap String String)
    {style : List StyleLine} {children : List Node} {P : List StyleLine → Prop}
    {Q : List Node → Prop} (hstyle : Gives I (x.inlineLines style) P)
    (hchildren : Gives I (x.inlineNodes children) Q) :
    Gives I (x.inlineNodes [.element ⟨tag, attributes, style, children⟩]) fun r =>
      ∃ style' children', P style' ∧ Q children' ∧
        r = [.element ⟨tag, attributes, style', children'⟩] := by
  simp only [inlineNodes, inlineNode, bind_assoc, pure_bind, List.append_nil]
  apply hstyle.bind
  intro style' hstyle'
  apply hchildren.bind
  intro children' hchildren'
  exact .pure ⟨style', children', hstyle', hchildren', rfl⟩

/-- What stands in a gap is expanded in its place. -/
theorem inlineNodes_fill_gives
    (hcontent : ∀ k u, Gives I (x.content k u) fun r => ∀ c, r = some c → C k u c)
    (hvalue : ∀ t, Keeps I (x.value t)) {ns : List Node} {P : List Node → Prop}
    (hns : Gives I (x.inlineNodes ns) P) (g : Gap) :
    Gives I (x.inlineNodes (g.fill ns)) fun r =>
      ∃ g' ns', g.Inlines C g' ∧ P ns' ∧ r = g'.fill ns' := by
  have hnodes (ns : List Node) := inlineNodes_gives (x := x) hcontent hvalue ns
  induction g with
  | top front back =>
    apply (inlineNodes_append_gives (inlineNodes_append_gives (hnodes front) hns) (hnodes back)).mono
    rintro _ ⟨_, back', ⟨front', ns', hfront, hns', rfl⟩, hback, rfl⟩
    exact ⟨.top front' back', ns', .top hfront hback, hns', rfl⟩
  | inside front tag attributes style gap back ih =>
    rw [Gap.fill, ← List.singleton_append]
    have helement := inlineNodes_element_gives tag attributes
      (inlineLines_gives hcontent hvalue [] style) ih
    apply (inlineNodes_append_gives (hnodes front)
      (inlineNodes_append_gives helement (hnodes back))).mono
    rintro _ ⟨front', _, hfront, ⟨_, back',
      ⟨style', _, hstyle, ⟨gap', ns', hgap, hns', rfl⟩, rfl⟩, hback, rfl⟩, rfl⟩
    exact ⟨.inside front' tag attributes style' gap' back', ns', .inside hfront hstyle hgap hback,
      hns', rfl⟩

/-- A property in the gap of a style block is filled in there. -/
theorem inlineNodes_fillLine_gives
    (hcontent : ∀ k u, Gives I (x.content k u) fun r => ∀ c, r = some c → C k u c)
    (hvalue : ∀ t, Keeps I (x.value t)) {v : String} {V : String → Prop}
    (hv : Gives I (x.value v) V) (g : BlockGap) (name : String) :
    Gives I (x.inlineNodes (g.fill (.property name v))) fun r =>
      ∃ filled, V filled ∧ g.Inlines C name filled r := by
  have hnodes (ns : List Node) := inlineNodes_gives (x := x) hcontent hvalue ns
  have hstyle : Gives I (x.inlineLines (g.before ++ .property name v :: g.after)) fun style =>
      ∃ done filled, LinesInline C [] g.before done ∧ V filled ∧
        LinesInline C (Element.putProperty name filled done) g.after style := by
    rw [inlineLines, List.foldlM_append]
    apply (inlineLines_gives hcontent hvalue [] g.before).bind
    intro done hdone
    rw [List.foldlM_cons]
    apply Gives.bind (P := fun more => ∃ filled, V filled ∧
      more = Element.putProperty name filled done)
    · apply hv.bind
      exact fun filled hfilled => .pure ⟨filled, hfilled, rfl⟩
    · rintro _ ⟨filled, hfilled, rfl⟩
      apply (inlineLines_gives hcontent hvalue _ g.after).mono
      exact fun style hafter => ⟨done, filled, hdone, hfilled, hafter⟩
  rw [BlockGap.fill, ← List.singleton_append]
  have helement := inlineNodes_element_gives g.tag g.attributes hstyle (hnodes g.children)
  apply (inlineNodes_append_gives (hnodes g.front)
    (inlineNodes_append_gives helement (hnodes g.back))).mono
  rintro _ ⟨front, _, hfront, ⟨_, back, ⟨style, children, ⟨done, filled, hbefore, hfilled, hafter⟩,
    hchildren, rfl⟩, hback, rfl⟩, rfl⟩
  exact ⟨filled, hfilled, .intro hfront hbefore hafter hchildren hback⟩

/-- A property of a style group is filled in. -/
theorem fillProperties_gives_property (hvalue : ∀ t, Keeps I (x.value t)) {v : String}
    {V : String → Prop} (hv : Gives I (x.value v) V) {s : StyleContent} {name : String}
    (h : s.properties.get? name = some (.concrete v)) :
    Gives I (x.fillProperties s) fun q => ∃ filled, V filled ∧ q.get? name = some filled := by
  have hget (q : StyleContent) (n t : String) :
      (q.set n t).get? name = if n = name then some t else q.get? name := by
    rw [StyleContent.get?, StyleContent.set, StyleContent.put, OrderedMap.get?_insert]
    split <;> rfl
  obtain ⟨before, after, hentries⟩ := List.append_of_mem (OrderedMap.get?_eq_some_iff.1 h)
  have hlater : ∀ e ∈ after, e.1 ≠ name := by
    have hnodup := s.properties.nodup
    rw [hentries, List.map_append, List.map_cons] at hnodup
    have hnot : name ∉ after.map Prod.fst := (List.nodup_cons.1 hnodup.of_append_right).1
    exact fun e he heq => hnot (heq ▸ List.mem_map_of_mem he)
  rw [fillProperties, hentries, List.foldlM_append]
  apply Gives.bind (P := fun _ => True)
  · refine Gives.foldlM ?_ trivial
    rintro q ⟨n, value⟩ - -
    cases value with
    | placeholder => exact .pure trivial
    | concrete text => exact (hvalue text).bind fun _ _ => .pure trivial
  · intro q _
    rw [List.foldlM_cons]
    apply Gives.bind (P := fun q => ∃ filled, V filled ∧ q.get? name = some filled)
    · apply hv.bind
      exact fun filled hfilled => .pure ⟨filled, hfilled, (hget q name filled).trans (if_pos rfl)⟩
    · intro q hq
      refine Gives.foldlM ?_ hq
      rintro q ⟨n, value⟩ hmem ⟨filled, hfilled, hq⟩
      cases value with
      | placeholder => exact .pure ⟨filled, hfilled, hq⟩
      | concrete text =>
        apply (hvalue text).bind
        exact fun t _ => .pure ⟨filled, hfilled, by rw [hget, if_neg (hlater _ hmem), hq]⟩

end Expansion

/-- A property that has a value is not dropped. -/
theorem Content.get?_dropUnfilled {s : StyleContent} {name v : String}
    (h : s.properties.get? name = some (.concrete v)) (target : String) :
    ∃ q, (Content.dropUnfilled target (.style s)).1 = .style q ∧
      q.properties.get? name = some (.concrete v) := by
  have herase : ∀ (names : List String) (s : StyleContent), name ∉ names →
      (names.foldl StyleContent.erase s).properties.get? name = s.properties.get? name := by
    intro names
    induction names with
    | nil => exact fun _ _ => rfl
    | cons n names ih =>
      intro s hnot
      rw [List.mem_cons, not_or] at hnot
      rw [List.foldl_cons, ih _ hnot.2]
      exact (s.properties.get?_erase n name).trans (if_neg (Ne.symm hnot.1))
  have hfilled : name ∉ s.placeholders := by
    intro hmem
    obtain ⟨⟨n, value⟩, he, rfl⟩ := List.mem_map.1 hmem
    obtain ⟨he, hplaceholder⟩ := List.mem_filter.1 he
    rw [OrderedMap.get?_eq_some_iff.2 he] at h
    cases h
    cases hplaceholder
  exact ⟨_, rfl, (herase s.placeholders s hfilled).trans h⟩

/-! ## Sessions that remember no circle -/

namespace Library

variable {l : Library} {m : Cache}

/-- No walk down the inheritance closes a circle, given what is remembered. -/
def Unwinds (l : Library) (m : Cache) : Prop :=
  ∀ id excluded, ¬ IsCircular (l.walked m [] id excluded)

theorem Acyclic.unwinds (h : l.Acyclic) : l.Unwinds .empty := by
  intro id excluded
  rw [walked_eq_flattened_root h id]
  exact not_isCircular_flattened h id excluded

/-- Both sessions may be the result of resolution that started from `m`. -/
def BothFaithful (l : Library) (m : Cache) (s t : Session) : Prop := l.Faithful m s ∧ l.Faithful m t

theorem BothFaithful.report_couples (l : Library) (m : Cache) (e : Problem) (span : Option Span) :
    Couples (l.BothFaithful m) (report e span) :=
  fun _ _ h => ⟨rfl, h.1.reporting e span, h.2.reporting e span⟩

namespace Unwinds

theorem content_couples (h : l.Unwinds m) (id : DefId) : Couples (l.BothFaithful m) (l.content id) := by
  rintro s t ⟨hs, ht⟩
  obtain ⟨hsout, hsafter⟩ := content_tracks id s hs
  obtain ⟨htout, htafter⟩ := content_tracks id t ht
  exact ⟨(hsout.settles (h id ∅)).trans (htout.settles (h id ∅)).symm, hsafter, htafter⟩

theorem contentEdited_couples (h : l.Unwinds m) (id : DefId) (edits : List Edit) :
    Couples (l.BothFaithful m) (l.contentEdited id edits) := by
  rintro s t ⟨hs, ht⟩
  have hedited : ¬ IsCircular (l.allowedEdited (l.walked m [] id) id edits) :=
    not_isCircular_allowedEdited (h id) edits
  obtain ⟨hsout, hsafter⟩ := contentEdited_tracks id edits s hs
  obtain ⟨htout, htafter⟩ := contentEdited_tracks id edits t ht
  exact ⟨(hsout.settles hedited).trans (htout.settles hedited).symm, hsafter, htafter⟩

theorem led (h : l.Unwinds m) : l.Led (l.BothFaithful m) where
  content id := leads_of_couples (fun ds => (l.walks_growing ds).respects.content id)
    (h.content_couples id)
  edited id edits := leads_of_couples (fun ds => (l.walks_growing ds).respects.edited id edits)
    (h.contentEdited_couples id edits)

end Unwinds

/-! ## What edits start from -/

/-- The content that edits of `id` start from, without what they take out of the inheritance. -/
def base (l : Library) (id : DefId) (d : Definition) (edits : List Edit) : Resolving Content := do
  let excluded ← l.excludeAll id d edits []
  l.descend [] id excluded

theorem contentEdited_eq_ok {id : DefId} {d : Definition} (hd : l.definitions.get? id = some d)
    {edits : List Edit} {s : Session} {raw : Content}
    (h : (l.contentEdited id edits).outcome s = .ok raw) :
    ∃ start, (l.base id d edits).outcome s = .ok start ∧
      raw = (Edit.applyAll l.firstIndex d.identity.render edits start).1 := by
  cases edits with
  | nil =>
    rw [contentEdited_nil hd] at h
    exact ⟨raw, h, rfl⟩
  | cons e edits =>
    have hfind : l.find id = .ok d := by
      rw [find, Arena.find, hd]
    have heq : l.contentEdited id (e :: edits) = (do
        checkEdits d (e :: edits)
        let start ← l.base id d (e :: edits)
        reportAll (Edit.applyAll l.firstIndex d.identity.render (e :: edits) start).2
        return (Edit.applyAll l.firstIndex d.identity.render (e :: edits) start).1) := by
      rw [contentEdited, hfind]
      simp only [editFlat, List.isEmpty_cons, hfind, base, bind_assoc]
      rfl
    rw [heq] at h
    obtain ⟨_, -, h⟩ := outcome_bind_eq_ok.1 h
    obtain ⟨start, hstart, h⟩ := outcome_bind_eq_ok.1 h
    obtain ⟨_, -, h⟩ := outcome_bind_eq_ok.1 h
    exact ⟨start, hstart, (Except.ok.inj h).symm⟩

theorem base_of_no_deletions {id : DefId} {d : Definition} {edits : List Edit}
    (hedits : edits.filterMap Edit.deletedAncestor? = []) :
    l.base id d edits = l.descend [] id [] := by
  have hexcluded : l.excludeAll id d edits [] = pure [] := by
    rw [excludeAll, hedits]
    rfl
  rw [base, hexcluded, pure_bind]

/-- A definition that inherits nothing starts from its own content. -/
theorem outcome_base_of_no_edges {id : DefId} {d : Definition} {s : Session}
    (hd : l.definitions.get? id = some d) (hedges : d.edges = []) (hs : s.cache.get? id = none)
    {edits : List Edit} (hedits : edits.filterMap Edit.deletedAncestor? = []) :
    (l.base id d edits).outcome s =
      (overlayFor d (.empty d.kind) d.ownContent).mapError .refused := by
  have hrun := run_descend_of_forgotten hs List.not_mem_nil hd
  rw [gather, hedges, List.foldlM_nil, pure_bind] at hrun
  rw [base_of_no_deletions hedits, outcome, hrun]
  cases overlayFor d (.empty d.kind) d.ownContent with
  | error e => rfl
  | ok b => rfl

/-- The references in a text mean the same from both namespaces. -/
def ReadsAlike (l : Library) (ns ns' : NamespaceId) (text : String) : Prop :=
  ∀ r ∈ Reference.findAll text,
    l.meaning ns (.ofKind .var r.1.group) .any = l.meaning ns' (.ofKind .var r.1.group) .any

instance (l : Library) (ns ns' : NamespaceId) (text : String) :
    Decidable (l.ReadsAlike ns ns' text) :=
  inferInstanceAs (Decidable (∀ r ∈ Reference.findAll text, _))

end Library

/-! ## Values and uses where they were written -/

namespace Environment

variable {env : Environment} {site : UseSite} {m : Cache}

theorem valueIn_couples (h : env.library.Unwinds m) (id : DefId) (group : Name) (key : String)
    (override : Option String) :
    Couples (env.library.BothFaithful m) (env.valueIn id group key override) := by
  apply (h.content_couples id).bind
  intro body
  split
  · exact .throw _
  · exact .pure _

theorem referenceValue_couples (h : env.library.Unwinds m) (owner : NamespaceId) (r : Reference) :
    Couples (env.library.BothFaithful m) (env.referenceValue site owner r) := by
  apply (Couples.liftFault _).bind
  intro found
  cases found with
  | error e => exact .pure none
  | ok id =>
    have hvalue : Couples (env.library.BothFaithful m) (do
        env.checkUseOf site id
        env.valueIn id (.ofKind .var r.group) r.key r.override) :=
      .lift_bind fun _ _ => valueIn_couples h id _ _ _
    apply hvalue.attempt.bind
    intro result
    cases result with
    | ok value => exact .pure (some value)
    | error e => exact (Library.BothFaithful.report_couples _ _ e none).bind fun _ => .pure none

theorem fillIn_couples (h : env.library.Unwinds m) (owner : NamespaceId) (text : String) :
    Couples (env.library.BothFaithful m) (env.fillIn site owner text) := by
  apply Couples.bind
  · apply Couples.mapM
    intro piece
    cases piece with
    | plain text => exact .pure text
    | reference r source =>
      apply (referenceValue_couples h owner r).bind
      intro value
      cases value <;> exact .pure _
  · exact fun pieces => .pure _

theorem referenceValue_congr {ns ns' : NamespaceId} {r : Reference}
    (h : env.library.meaning ns (.ofKind .var r.group) .any =
      env.library.meaning ns' (.ofKind .var r.group) .any) :
    env.referenceValue site ns r = env.referenceValue site ns' r := by
  unfold Library.meaning at h
  unfold referenceValue
  dsimp only
  rcases hr : env.library.resolve ns (.ofKind .var r.group) .any with (e | f) | id <;>
    rcases hr' : env.library.resolve ns' (.ofKind .var r.group) .any with (e' | f') | id' <;>
    rw [hr, hr'] at h <;> cases h <;> rfl

theorem fillIn_congr {ns ns' : NamespaceId} {text : String}
    (h : env.library.ReadsAlike ns ns' text) :
    env.fillIn site ns text = env.fillIn site ns' text := by
  have hpieces : ∀ pieces : List ValuePiece,
      (∀ piece ∈ pieces, piece ∈ ValuePiece.scan false text.toList) →
      pieces.mapM (Reference.replaceIn (env.referenceValue site ns)) =
        pieces.mapM (Reference.replaceIn (env.referenceValue site ns')) := by
    intro pieces hmem
    induction pieces with
    | nil => rfl
    | cons piece pieces ih =>
      have hpiece : Reference.replaceIn (env.referenceValue site ns) piece =
          Reference.replaceIn (env.referenceValue site ns') piece := by
        cases piece with
        | plain text => rfl
        | reference r source =>
          obtain ⟨p, hp, rfl⟩ := Reference.mem_located (hmem _ List.mem_cons_self) 0
          rw [Reference.replaceIn, Reference.replaceIn, referenceValue_congr (h p hp)]
      rw [List.mapM_cons, List.mapM_cons, hpiece, ih fun p hp => hmem p (List.mem_cons_of_mem _ hp)]
  rw [fillIn, fillIn, Reference.replaceAll, Reference.replaceAll, hpieces _ fun _ h => h]

/-- A text is filled in as where it was written. -/
theorem fillIn_gives (h : env.library.Unwinds m) {s : Session} (hs : env.library.Faithful m s)
    {ns owner : NamespaceId} {text : String} (halike : env.library.ReadsAlike ns owner text) :
    Gives (env.library.Faithful m) (env.fillIn site owner text) fun filled =>
      (env.fillIn site ns text).outcome s = .ok filled := by
  intro t ht
  have hcouples : Couples (env.library.BothFaithful m) (env.fillIn site owner text) :=
    fillIn_couples h owner text
  obtain ⟨hsame, -, hafter⟩ := hcouples s t ⟨hs, ht⟩
  refine ⟨fun filled hfilled => ?_, hafter⟩
  rw [fillIn_congr halike]
  exact hsame.trans hfilled

/-- What takes the place of a use in a definition of the namespace `owner`: an instance of the
definition that the use means there, which is allowed at the site. -/
def StandsFor (env : Environment) (site : UseSite) (owner : NamespaceId) (k : Kind) (u : Usage)
    (c : Content) : Prop :=
  ∃ used, env.library.resolve owner u.name (.ofKind k) = .ok used ∧
    env.AllowsDefinition site used ∧ env.Composed (fun _ _ _ => True) site used u.edits c

theorem usageContent_stands (m : Cache) (owner : NamespaceId) (expanding : List DefId) (k : Kind)
    (u : Usage) :
    Gives (env.library.Faithful m)
      (env.usageContent site owner (fun used edits => env.build site expanding used edits) k u)
      fun r => ∀ c, r = some c → env.StandsFor site owner k u c :=
  usageContent_gives (env.library.respects_faithful m) owner
    (build_gives (env.library.respects_faithful m) expanding) k u

/-- The definition has an instance at the site without a diagnostic, also inside the instances that
are being expanded. -/
structure Shows (env : Environment) (site : UseSite) (expanding : List DefId) (id : DefId)
    (edits : List Edit) (s : Session) (body : Content) : Prop where
  allowed : env.AllowsDefinition site id
  alone : Quietly (env.build site [] id edits) s body
  inside : ∃ b, Quietly (env.build site expanding id edits) s b

theorem Shows.outcome_build (h : env.library.Unwinds m) {expanding : List DefId} {id : DefId}
    {edits : List Edit} {s t : Session} {body : Content}
    (hshows : env.Shows site expanding id edits s body) (hs : env.library.Faithful m s)
    (ht : env.library.Faithful m t) : (env.build site expanding id edits).outcome t = .ok body := by
  obtain ⟨b, hb⟩ := hshows.inside
  have halone : Leads Eq (env.build site expanding id edits) (env.build site [] id edits) :=
    build_leads env.library.led_eq (List.nil_subset _) id edits
  have hsame : b = body :=
    Except.ok.inj ((halone.follows s s b rfl hb).1.symm.trans hshows.alone.1)
  have hlater : Leads (env.library.BothFaithful m) (env.build site expanding id edits)
      (env.build site expanding id edits) := build_leads h.led (List.Subset.refl _) id edits
  exact hsame ▸ (hlater.follows s t b ⟨hs, ht⟩ hb).1

/-- A use that means a definition which shows something is replaced by that. -/
theorem usageContent_gives_shown (h : env.library.Unwinds m) {expanding : List DefId} {id : DefId}
    {u : Usage} {s : Session} {body : Content} {owner : NamespaceId} {k : Kind}
    (hshows : env.Shows site expanding id u.edits s body) (hs : env.library.Faithful m s)
    (hid : env.library.resolve owner u.name (.ofKind k) = .ok id) :
    Gives (env.library.Faithful m)
      (env.usageContent site owner (fun used edits => env.build site expanding used edits) k u)
      fun r => r = some body := by
  intro t ht
  refine ⟨fun r hr => ?_, (usageContent_stands m owner expanding k u t ht).2⟩
  have hused : (do
      let id ← env.library.resolve owner u.name (.ofKind k)
      env.checkUseOf site id
      env.build site expanding id u.edits : Resolving Content).outcome t = .ok body := by
    rw [hid]
    change ((liftM (env.checkUseOf site id) : Resolving Unit) >>= _).outcome t = _
    rw [checkUseOf_eq_ok.2 hshows.allowed]
    exact hshows.outcome_build h hs ht
  have hrun : (env.usageContent site owner (fun used edits => env.build site expanding used edits)
      k u).run t = _ := run_attempt_bind_of_ok hused
  exact (Except.ok.inj ((congrArg Prod.fst hrun).symm.trans hr)).symm

/-- The content of an instance that was built, before and after expansion. -/
theorem build_eq_ok {expanding : List DefId} {b : DefId} {d : Definition} {edits : List Edit}
    {s : Session} {body : Content} (hs : env.library.Faithful m s)
    (hd : env.library.definitions.get? b = some d)
    (h : (env.build site expanding b edits).outcome s = .ok body) :
    ∃ start t, (env.library.base b d edits).outcome s = .ok start ∧ env.library.Faithful m t ∧
      ((env.expansion site d.home fun used edits =>
        env.build site (b :: expanding) used edits).inlineContent
          ((Edit.applyAll env.library.firstIndex d.identity.render edits start).1.dropUnfilled
            d.identity.render).1).outcome t = .ok body := by
  have hl := env.library.respects_faithful m
  have hb : b ∉ expanding := by
    intro hmem
    rw [build] at h
    simp only [hmem, dif_pos] at h
    obtain ⟨e, -, h⟩ := outcome_bind_eq_ok.1 h
    cases h
  rw [build_of_stored hb hd] at h
  obtain ⟨raw, hraw, h⟩ := outcome_bind_eq_ok.1 h
  obtain ⟨start, hstart, rfl⟩ := Library.contentEdited_eq_ok hd hraw
  obtain ⟨_, -, h⟩ := outcome_bind_eq_ok.1 h
  obtain ⟨_, -, h⟩ := outcome_bind_eq_ok.1 h
  exact ⟨start, _, hstart, (Keeps.reportAll hl.report _ (hl.edited b edits s hs).2).2, h⟩

variable {expanding : List DefId} {b : DefId} {d : Definition} {edits : List Edit} {s : Session}
  {body : Content} {ns owner : NamespaceId}

/-- A use in a gap is replaced by what its definition shows. -/
theorem inlineNodes_fill_shown (h : env.library.Unwinds m) (hs : env.library.Faithful m s)
    {u : Usage} {f : DefId} {shown : List Node}
    (hshows : env.Shows site expanding f u.edits s (.element shown))
    (hf : env.library.resolve owner u.name (.ofKind .element) = .ok f) (g : Gap) :
    Gives (env.library.Faithful m)
      ((env.expansion site owner fun used edits =>
        env.build site expanding used edits).inlineNodes (g.fill [.usage u]))
      fun r => ∃ g', g.Inlines (env.StandsFor site owner) g' ∧ r = g'.fill shown := by
  have hl := env.library.respects_faithful m
  have huse : Gives (env.library.Faithful m) ((env.expansion site owner fun used edits =>
      env.build site expanding used edits).inlineNodes [.usage u]) fun r => r = shown := by
    simp only [Expansion.inlineNodes, Expansion.inlineNode, bind_assoc]
    apply (usageContent_gives_shown h hshows hs hf).bind
    rintro _ rfl
    exact .pure (List.append_nil shown)
  apply (Expansion.inlineNodes_fill_gives (usageContent_stands m owner expanding)
    (fillIn_keeps hl owner) huse g).mono
  rintro _ ⟨g', _, hg, rfl, rfl⟩
  exact ⟨g', hg, rfl⟩

/-- The value of a property in a gap is filled in as where it was written. -/
theorem inlineNodes_fillLine_read (h : env.library.Unwinds m) (hs : env.library.Faithful m s)
    {v : String} (halike : env.library.ReadsAlike ns owner v) (g : BlockGap) (name : String) :
    Gives (env.library.Faithful m)
      ((env.expansion site owner fun used edits =>
        env.build site expanding used edits).inlineNodes (g.fill (.property name v)))
      fun r => ∃ filled, (env.fillIn site ns v).outcome s = .ok filled ∧
        g.Inlines (env.StandsFor site owner) name filled r := by
  have hvalue : Gives (env.library.Faithful m) ((env.expansion site owner fun used edits =>
      env.build site expanding used edits).value v) fun filled =>
        (env.fillIn site ns v).outcome s = .ok filled := fillIn_gives h hs halike
  exact Expansion.inlineNodes_fillLine_gives (usageContent_stands m owner expanding)
    (fillIn_keeps (env.library.respects_faithful m) owner) hvalue g name

theorem fillProperties_read (h : env.library.Unwinds m) (hs : env.library.Faithful m s)
    {v : String} (halike : env.library.ReadsAlike ns owner v) {q : StyleContent} {name : String}
    (hname : q.properties.get? name = some (.concrete v)) :
    Gives (env.library.Faithful m)
      ((env.expansion site owner fun used edits =>
        env.build site expanding used edits).fillProperties q)
      fun q => ∃ filled, (env.fillIn site ns v).outcome s = .ok filled ∧
        q.get? name = some filled := by
  have hvalue : Gives (env.library.Faithful m) ((env.expansion site owner fun used edits =>
      env.build site expanding used edits).value v) fun filled =>
        (env.fillIn site ns v).outcome s = .ok filled := fillIn_gives h hs halike
  exact Expansion.fillProperties_gives_property
    (fillIn_keeps (env.library.respects_faithful m) owner) hvalue hname

/-- In whatever namespace `ns` edits were written, they bring what they bring in the namespace of the
group, so an instance shows what was meant on one condition: the name, or every name in the value,
means the same from both. Then an inserted use is replaced, where it was inserted, by the instance of
the definition that it means from `ns`, and a value given to a property of a style group or of an
element is filled in with what its references mean from `ns`. -/
theorem build_edited (h : env.library.Unwinds m) (hs : env.library.Faithful m s)
    (hd : env.library.definitions.get? b = some d)
    (hbody : (env.build site expanding b edits).outcome s = .ok body) (ns : NamespaceId) :
    ∃ start, (env.library.base b d edits).outcome s = .ok start ∧
      (∀ (i : Insertion) (u : Usage) (nodes : List Node) (f : DefId) (shown : List Node),
        start = .element nodes → edits = i.edits u → i.Applies env.library.firstIndex nodes →
        env.library.resolve ns u.name (.ofKind .element) = .ok f →
        env.library.meaning ns u.name (.ofKind .element) =
          env.library.meaning d.home u.name (.ofKind .element) →
        env.Shows site (b :: expanding) f u.edits s (.element shown) →
        (∃ g g' : Gap, (i.inner.IsTop → g.IsTop) ∧
          (∀ w, Edit.editAll env.library.firstIndex (i.edits w) nodes = g.fill [.usage w]) ∧
          g.Inlines (env.StandsFor site d.home) g' ∧ body = .element (g'.fill shown)) ∨
        ¬ i.inner.IsTop ∧
          ∃ r, ∀ w, Edit.editAll env.library.firstIndex (i.edits w) nodes = r) ∧
      (∀ (a : Assignment) (v : String) (style : StyleContent),
        start = .style style → edits = a.edits v → a.Lasts → env.library.ReadsAlike ns d.home v →
        ∃ q filled, body = .style q ∧ q.get? a.name = some filled ∧
          (env.fillIn site ns v).outcome s = .ok filled) ∧
      ∀ (e : Modification) (v : String) (nodes : List Node),
        start = .element nodes → edits = e.edits v → e.Applies env.library.firstIndex nodes →
        env.library.ReadsAlike ns d.home v →
        (∃ (g : BlockGap) (filled : String) (r : List Node),
          (∀ w, Edit.editAll env.library.firstIndex (e.edits w) nodes =
            g.fill (.property e.name w)) ∧
          (env.fillIn site ns v).outcome s = .ok filled ∧
          g.Inlines (env.StandsFor site d.home) e.name filled r ∧ body = .element r) ∨
        ∃ r, ∀ w, Edit.editAll env.library.firstIndex (e.edits w) nodes = r := by
  obtain ⟨start, t, hstart, ht, hexpanded⟩ := build_eq_ok hs hd hbody
  have helement (nodes : List Node) (hnodes : start = .element nodes) :
      ∃ r, ((env.expansion site d.home fun used edits =>
        env.build site (b :: expanding) used edits).inlineNodes
          (Edit.editAll env.library.firstIndex edits nodes)).outcome t = .ok r ∧
        body = .element r := by
    rw [hnodes, Edit.applyAll_element] at hexpanded
    obtain ⟨r, hr, hbody⟩ := outcome_bind_eq_ok.1 hexpanded
    exact ⟨r, hr, (Except.ok.inj hbody).symm⟩
  refine ⟨start, hstart, ?inserted, ?assigned, ?modified⟩
  case inserted =>
    intro i u nodes f shown hnodes hedits happlies hf hmeans hshows
    obtain ⟨r, hr, rfl⟩ := helement nodes hnodes
    refine (i.editAll_edits happlies u).imp_left ?_
    rintro ⟨g, htop, hg⟩
    rw [hedits, hg] at hr
    have hgives := inlineNodes_fill_shown h hs hshows (Library.resolve_of_meaning hmeans hf) g
    obtain ⟨g', hg', rfl⟩ := (hgives t ht).1 r hr
    exact ⟨g, g', htop, hg, hg', rfl⟩
  case assigned =>
    intro a v style hstyle hedits hlasts halike
    obtain ⟨q, hq, hget⟩ :=
      a.get?_applyAll_edits hlasts env.library.firstIndex d.identity.render v style
    obtain ⟨q', hq', hget'⟩ := Content.get?_dropUnfilled hget d.identity.render
    rw [hstyle, hedits, hq, hq'] at hexpanded
    obtain ⟨r, hr, hbody⟩ := outcome_bind_eq_ok.1 hexpanded
    obtain ⟨filled, hfilled, hr⟩ := (fillProperties_read h hs halike hget' t ht).1 r hr
    exact ⟨r, filled, (Except.ok.inj hbody).symm, hr, hfilled⟩
  case modified =>
    intro e v nodes hnodes hedits happlies halike
    obtain ⟨r, hr, rfl⟩ := helement nodes hnodes
    refine (e.editAll_edits happlies).imp_left ?_
    rintro ⟨g, hg⟩
    rw [hedits, hg] at hr
    obtain ⟨filled, hfilled, hinlines⟩ := (inlineNodes_fillLine_read h hs halike g e.name t ht).1 r hr
    exact ⟨g, filled, r, hg, hfilled, hinlines, rfl⟩

end Environment

/-- A box and a style for walls in one namespace, to be used from another. A lamp and the dyes are
either around both namespaces or in that of the use. -/
def hut (shared : Bool) : Compilation :=
  let group (origin : Origin) (kind : Kind) (name : String) (body : Content) : Operation :=
    .addGroup ⟨origin, kind, name⟩ body [] .empty none
  let box := group .custom .element "Box" (.element [.element ⟨"div", .empty, [], []⟩])
  let wall := group .custom .style "Wall" (.style (.ofList [("color", .concrete "grey")]))
  let lamp := group .template .element "Lamp" (.element [.element ⟨"p", .empty, [], []⟩])
  let dye := group .template .var "Dye" (.var (.ofList [("red", "#f00")]))
  Operation.afterAll
    ([.openNamespacePath ["b"], box, wall, .closeNamespace] ++
      if shared then [lamp, dye, .openNamespacePath ["a"]]
      else [.openNamespacePath ["a"], lamp, dye])
    (.initial .initial)

namespace hut

/-- The place of a use in the open namespace. -/
def site : UseSite := ⟨⟨2⟩, ⟨2⟩⟩

/-- The box and the style as they are stored. -/
def box : Definition where
  identity := ⟨.custom, .element, "Box"⟩
  home := ⟨1⟩
  scope := ⟨1⟩
  edges := []
  body := .element [.element ⟨"div", .empty, [], []⟩]
  noValue := .empty
  span := none

def wall : Definition where
  identity := ⟨.custom, .style, "Wall"⟩
  home := ⟨1⟩
  scope := ⟨1⟩
  edges := []
  body := .style (.ofList [("color", .concrete "grey")])
  noValue := .empty
  span := none

def lamp : Usage := ⟨.ofKind .element "Lamp", [], none⟩

/-- Puts something into the box, behind what is in it. -/
def filling : Insertion := ⟨[], .atBottom, none, .top [] [], []⟩

/-- Paints the wall. -/
def painting : Assignment := ⟨[], "color", []⟩

/-- Paints the first element in the box. -/
def staining : Modification := ⟨[], .index 0, [], "color", [], .empty, []⟩

theorem reachable (shared : Bool) : (hut shared).Reachable :=
  (Compilation.Reachable.initial .initial).afterAll _

theorem site_eq (shared : Bool) : (hut shared).site = .ok site := by
  cases shared <;> decide +kernel

set_option maxRecDepth 2000 in
theorem get?_box (shared : Bool) : (hut shared).definitions.get? ⟨0⟩ = some box := by
  cases shared
  · rfl
  · rfl

set_option maxRecDepth 2000 in
theorem get?_wall (shared : Bool) : (hut shared).definitions.get? ⟨1⟩ = some wall := by
  cases shared
  · rfl
  · rfl

set_option maxRecDepth 2000 in
theorem cache_eq (shared : Bool) : (hut shared).session.cache = .empty := by
  cases shared
  · rfl
  · rfl

theorem unwinds (shared : Bool) :
    (hut shared).library.Unwinds (hut shared).session.cache := by
  rw [cache_eq]
  apply Library.Acyclic.unwinds
  exact Library.acyclic_of_inheritsOlder (by cases shared <;> decide +kernel)

theorem base_box {edits : List Edit} (h : edits.filterMap Edit.deletedAncestor? = []) :
    ((hut true).library.base ⟨0⟩ box edits).outcome (hut true).session = .ok box.body :=
  Library.outcome_base_of_no_edges (get?_box true) rfl (by rw [cache_eq]; rfl) h

theorem base_wall {edits : List Edit} (h : edits.filterMap Edit.deletedAncestor? = []) :
    ((hut true).library.base ⟨1⟩ wall edits).outcome (hut true).session = .ok wall.body :=
  Library.outcome_base_of_no_edges (get?_wall true) rfl (by rw [cache_eq]; rfl) h

/-- The lamp is shown at the place of the use, also inside the box. -/
theorem shows_lamp (shared : Bool) :
    ∃ shown, (Content.element shown).tags? = some ["p"] ∧
      (hut shared).environment.Shows site [⟨0⟩] ⟨2⟩ [] (hut shared).session (.element shown) := by
  obtain ⟨b, halone, htags⟩ : ∃ b, Quietly ((hut shared).environment.build site [] ⟨2⟩ [])
      (hut shared).session b ∧ b.tags? = some ["p"] := by
    cases shared <;> exact exists_quietly (by decide +kernel) (by decide +kernel)
  obtain ⟨b', hinside, -⟩ : ∃ b, Quietly ((hut shared).environment.build site [⟨0⟩] ⟨2⟩ [])
      (hut shared).session b ∧ b.tags? = some ["p"] := by
    cases shared <;> exact exists_quietly (by decide +kernel) (by decide +kernel)
  have hallowed : (hut shared).environment.AllowsDefinition site ⟨2⟩ :=
    Environment.checkUseOf_eq_ok.1 (by cases shared <;> decide +kernel)
  cases b with
  | element shown => exact ⟨shown, htags, hallowed, halone, b', hinside⟩
  | style s => cases htags
  | var v => cases htags

end hut

/-- Where the lamp and the dyes are around both namespaces, the box shows the lamp that was put into
it, and the wall and the box are painted. -/
theorem build_edited_hut :
    (hut true).Reachable ∧ (hut true).site = .ok hut.site ∧
    (∃ (g g' : Gap) (shown : List Node), (Content.element shown).tags? = some ["p"] ∧
      g.IsTop ∧ g.Inlines ((hut true).environment.StandsFor hut.site ⟨1⟩) g' ∧
      ((hut true).environment.build hut.site [] ⟨0⟩ (hut.filling.edits hut.lamp)).outcome
        (hut true).session = .ok (.element (g'.fill shown))) ∧
    (∃ q, q.get? "color" = some "#f00" ∧
      ((hut true).environment.build hut.site [] ⟨1⟩ (hut.painting.edits "Dye(red)")).outcome
        (hut true).session = .ok (.style q)) ∧
    ∃ (g : BlockGap) (r : List Node),
      g.Inlines ((hut true).environment.StandsFor hut.site ⟨1⟩) "color" "#f00" r ∧
      ((hut true).environment.build hut.site [] ⟨0⟩ (hut.staining.edits "Dye(red)")).outcome
        (hut true).session = .ok (.element r) := by
  have hs := Library.Faithful.start (hut true).library (hut true).session
  have hfill : ((hut true).environment.fillIn hut.site ⟨2⟩ "Dye(red)").outcome
      (hut true).session = .ok "#f00" := by
    decide +kernel
  have halike : (hut true).environment.library.ReadsAlike ⟨2⟩ ⟨1⟩ "Dye(red)" := by
    decide +kernel
  refine ⟨hut.reachable true, hut.site_eq true, ?inserted, ?assigned, ?modified⟩
  case inserted =>
    obtain ⟨shown, htags, hshows⟩ := hut.shows_lamp true
    have hlamp : (hut true).environment.library.resolve ⟨2⟩ hut.lamp.name
        (.ofKind .element) = .ok ⟨2⟩ := by
      decide +kernel
    obtain ⟨body, ⟨hbody, -⟩, -⟩ : ∃ b, Quietly ((hut true).environment.build hut.site [] ⟨0⟩
        (hut.filling.edits hut.lamp)) (hut true).session b ∧ b.tags? = some ["div", "p"] :=
      exists_quietly (by decide +kernel) (by decide +kernel)
    obtain ⟨start, hstart, hinserted, -⟩ :=
      Environment.build_edited (hut.unwinds true) hs (hut.get?_box true) hbody ⟨2⟩
    obtain rfl := Except.ok.inj ((hut.base_box rfl).symm.trans hstart)
    rcases hinserted hut.filling hut.lamp _ ⟨2⟩ shown rfl rfl rfl hlamp (by decide +kernel)
        hshows with ⟨g, g', htop, -, hg, rfl⟩ | ⟨hinside, -⟩
    · exact ⟨g, g', shown, htags, htop trivial, hg, hbody⟩
    · exact absurd trivial hinside
  case assigned =>
    obtain ⟨body, ⟨hbody, -⟩, -⟩ : ∃ b, Quietly ((hut true).environment.build hut.site [] ⟨1⟩
        (hut.painting.edits "Dye(red)")) (hut true).session b ∧ b.kind = .style :=
      exists_quietly (by decide +kernel) (by decide +kernel)
    have hlasts : hut.painting.Lasts := by
      simp [hut.painting, Assignment.Lasts]
    obtain ⟨start, hstart, -, hassigned, -⟩ :=
      Environment.build_edited (hut.unwinds true) hs (hut.get?_wall true) hbody ⟨2⟩
    obtain rfl := Except.ok.inj ((hut.base_wall rfl).symm.trans hstart)
    obtain ⟨q, filled, rfl, hq, hfilled⟩ :=
      hassigned hut.painting "Dye(red)" _ rfl rfl hlasts halike
    obtain rfl := Except.ok.inj (hfilled.symm.trans hfill)
    exact ⟨q, hq, hbody⟩
  case modified =>
    obtain ⟨body, ⟨hbody, -⟩, -⟩ : ∃ b, Quietly ((hut true).environment.build hut.site [] ⟨0⟩
        (hut.staining.edits "Dye(red)")) (hut true).session b ∧ b.tags? = some ["div"] :=
      exists_quietly (by decide +kernel) (by decide +kernel)
    obtain ⟨start, hstart, -, -, hmodified⟩ :=
      Environment.build_edited (hut.unwinds true) hs (hut.get?_box true) hbody ⟨2⟩
    obtain rfl := Except.ok.inj ((hut.base_box rfl).symm.trans hstart)
    rcases hmodified hut.staining "Dye(red)" _ rfl rfl rfl halike with
      ⟨g, filled, r, -, hfilled, hg, rfl⟩ | ⟨r, hr⟩
    · obtain rfl := Except.ok.inj (hfilled.symm.trans hfill)
      exact ⟨g, r, hg, hbody⟩
    · have hsame := congrArg Node.valuesIn ((hr "red").trans (hr "blue").symm)
      exact absurd hsame (by decide +kernel)

/-- Where the lamp is only in the namespace of the use, the box does not show it: its name is looked
up where the box is. -/
theorem build_edited_elsewhere :
    (hut false).Reachable ∧ (hut false).site = .ok hut.site ∧
    (hut false).environment.library.resolve hut.site.home hut.lamp.name (.ofKind .element) =
      .ok ⟨2⟩ ∧
    ∃ shown, (Content.element shown).tags? = some ["p"] ∧
      (hut false).environment.Shows hut.site [⟨0⟩] ⟨2⟩ hut.lamp.edits (hut false).session
        (.element shown) ∧
      (((hut false).environment.build hut.site [] ⟨0⟩
        (hut.filling.edits hut.lamp)).outcome (hut false).session).map Content.tags? =
          .ok (some ["div"]) ∧
      ∀ front back, ((hut false).environment.build hut.site [] ⟨0⟩
        (hut.filling.edits hut.lamp)).outcome (hut false).session ≠
          .ok (.element (front ++ shown ++ back)) := by
  obtain ⟨shown, htags, hshows⟩ := hut.shows_lamp false
  have hbuilt : (((hut false).environment.build hut.site [] ⟨0⟩
      (hut.filling.edits hut.lamp)).outcome (hut false).session).map Content.tags? =
        .ok (some ["div"]) := by
    decide +kernel
  refine ⟨hut.reachable false, hut.site_eq false, by decide +kernel, shown, htags, hshows, hbuilt,
    fun front back heq => ?_⟩
  have hmem : "p" ∈ ["div"] := by
    rw [heq] at hbuilt
    have htags' := Option.some.inj (Except.ok.inj hbuilt)
    rw [List.filterMap_append, List.filterMap_append, List.map_append, List.map_append,
      Option.some.inj htags] at htags'
    rw [← htags']
    simp
  exact absurd hmem (by decide)

end Stencil
