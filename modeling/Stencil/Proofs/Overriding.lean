import Stencil.Proofs.Payload
import Stencil.Proofs.RequestOrder
import Stencil.Proofs.Splices

/-! # A property given at the use

An edit that modifies an element gives the value to the first property of that name in the style
block, or adds the property at the end. When the block is expanded its lines are put down one after
another, and of several values for a name the last one stays. So the value given at the use is what
the instance has unless a line behind that first property gives the name a value as well, another
property of the name or a style group that is used there.
-/
namespace Stencil

open Resolving

/-! ## The value that is put down last -/

namespace Element

@[simp]
theorem propertyIn_putProperty (name n value : String) (style : List StyleLine) :
    propertyIn name (putProperty n value style) =
      if n = name then some value else propertyIn name style := by
  induction style with
  | nil => rfl
  | cons line style ih =>
    cases line with
    | usage u => rw [putProperty, propertyIn, ih, propertyIn]
    | property m w =>
      rw [putProperty]
      by_cases hm : m = n
      · rw [if_pos hm, propertyIn, propertyIn, hm]
        by_cases hn : n = name <;> simp [hn]
      · rw [if_neg hm, propertyIn, propertyIn, ih]
        by_cases hmn : m = name
        · rw [if_pos hmn, if_pos hmn, if_neg fun hn => hm (hmn.trans hn.symm)]
        · rw [if_neg hmn, if_neg hmn]

end Element

/-- A style group that is used gives the properties it has values for. -/
theorem Expansion.propertyIn_putProperties (name : String) (s : StyleContent)
    (done : List StyleLine) :
    Element.propertyIn name (putProperties s done) =
      (s.get? name).or (Element.propertyIn name done) := by
  rw [putProperties, StyleContent.get?, OrderedMap.get?]
  have hnodup := s.properties.nodup
  generalize s.properties.entries = entries at hnodup ⊢
  induction entries generalizing done with
  | nil => rfl
  | cons e entries ih =>
    obtain ⟨n, value⟩ := e
    rw [List.map_cons, List.nodup_cons] at hnodup
    rw [List.foldl_cons, ih _ hnodup.2]
    by_cases hn : n = name
    · -- No later entry has the name.
      have hnone : entries.find? (fun e => decide (e.1 = name)) = none := by
        rw [List.find?_eq_none]
        intro e he heq
        exact hnodup.1 (List.mem_map.2 ⟨e, he, (of_decide_eq_true heq).trans hn.symm⟩)
      cases value <;> simp [hnone, hn, StyleValue.text?]
    · cases value <;> simp [hn]

/-- The value that a line gives to the property of a name, if it gives it one. `V` tells what a
value may be filled in with. -/
inductive StyleLine.Sets (C : Kind → Usage → Content → Prop) (V : String → String → Prop)
    (name : String) : StyleLine → Option String → Prop
  | same (value filled : String) (h : V value filled) :
    Sets C V name (.property name value) (some filled)
  | other (n value : String) (h : n ≠ name) : Sets C V name (.property n value) none
  | usage (u : Usage) (s : StyleContent) (h : C .style u (.style s)) :
    Sets C V name (.usage u) (s.get? name)
  | dropped (u : Usage) : Sets C V name (.usage u) none

/-- The last value that lines give to the property of a name, if any gives it one. -/
inductive StyleLine.SetLast (C : Kind → Usage → Content → Prop) (V : String → String → Prop)
    (name : String) : List StyleLine → Option String → Prop
  | nil : SetLast C V name [] none
  | cons {line : StyleLine} {lines : List StyleLine} {first later : Option String}
    (hline : line.Sets C V name first) (hlines : SetLast C V name lines later) :
    SetLast C V name (line :: lines) (later.or first)

/-- The lines behind the first property of a name. -/
def StyleLine.behind (name : String) : List StyleLine → List StyleLine
  | [] => []
  | .property n _ :: lines => if n = name then lines else behind name lines
  | .usage _ :: lines => behind name lines

theorem StyleLine.behind_of_propertyIn_eq_none {name : String} {style : List StyleLine}
    (h : Element.propertyIn name style = none) : behind name style = [] := by
  induction style with
  | nil => rfl
  | cons line style ih =>
    cases line with
    | usage u => exact ih h
    | property n w =>
      rw [Element.propertyIn] at h
      split at h
      · cases h
      next hn =>
        rw [behind, if_neg hn]
        exact ih h

/-- A property put into a style block stands before the lines that were behind the first one of its
name. -/
theorem Element.putProperty_eq_behind (name value : String) (style : List StyleLine) :
    ∃ front, putProperty name value style =
      front ++ .property name value :: StyleLine.behind name style := by
  induction style with
  | nil => exact ⟨[], rfl⟩
  | cons line style ih =>
    obtain ⟨front, hfront⟩ := ih
    cases line with
    | usage u => exact ⟨.usage u :: front, by rw [putProperty, hfront]; rfl⟩
    | property n w =>
      by_cases hn : n = name
      · exact ⟨[], by rw [putProperty, if_pos hn, StyleLine.behind, if_pos hn, hn]; rfl⟩
      · refine ⟨.property n w :: front, ?_⟩
        rw [putProperty, if_neg hn, StyleLine.behind, if_neg hn, hfront, List.cons_append]

namespace Expansion

variable {x : Expansion} {I : Session → Prop} {C : Kind → Usage → Content → Prop}
  {V : String → String → Prop}

/-- What one line does to the property of a name. -/
theorem inlineLine_sets
    (hcontent : ∀ k u, Gives I (x.content k u) fun r => ∀ c, r = some c → C k u c)
    (hvalue : ∀ t, Gives I (x.value t) (V t)) (name : String) (done : List StyleLine)
    (line : StyleLine) :
    Gives I (x.inlineLine done line) fun more => ∃ given, line.Sets C V name given ∧
      Element.propertyIn name more = given.or (Element.propertyIn name done) := by
  cases line with
  | property n value =>
    refine (hvalue value).bind fun filled hfilled => .pure ?_
    by_cases hn : n = name
    · subst hn
      exact ⟨some filled, .same value filled hfilled, by simp⟩
    · exact ⟨none, .other n value hn, by simp [hn]⟩
  | usage u =>
    apply (hcontent .style u).bind
    intro r hr
    split
    · rename_i s
      exact .pure ⟨_, .usage u s (hr _ rfl), propertyIn_putProperties name s done⟩
    · exact .pure ⟨none, .dropped u, rfl⟩

/-- What lines after one another do to the property of a name. -/
theorem inlineLines_setLast
    (hcontent : ∀ k u, Gives I (x.content k u) fun r => ∀ c, r = some c → C k u c)
    (hvalue : ∀ t, Gives I (x.value t) (V t)) (name : String) (done lines : List StyleLine) :
    Gives I (lines.foldlM x.inlineLine done) fun style => ∃ last,
      StyleLine.SetLast C V name lines last ∧
        Element.propertyIn name style = last.or (Element.propertyIn name done) := by
  induction lines generalizing done with
  | nil => exact .pure ⟨none, .nil, rfl⟩
  | cons line lines ih =>
    rw [List.foldlM_cons]
    apply (inlineLine_sets hcontent hvalue name done line).bind
    rintro more ⟨given, hline, hmore⟩
    refine (ih more).mono ?_
    rintro style ⟨last, hlines, hstyle⟩
    exact ⟨last.or given, .cons hline hlines, by rw [hstyle, hmore, Option.or_assoc]⟩

/-- A property put into a style block and filled in with `v` has this value afterwards, unless a line
behind gives it another. -/
theorem inlineLines_putProperty
    (hcontent : ∀ k u, Gives I (x.content k u) fun r => ∀ c, r = some c → C k u c)
    (hvalue : ∀ t, Gives I (x.value t) (V t)) {v : String}
    (hv : Gives I (x.value v) fun filled => filled = v) (name : String) (style : List StyleLine) :
    Gives I (x.inlineLines (Element.putProperty name v style)) fun style' => ∃ later,
      StyleLine.SetLast C V name (StyleLine.behind name style) later ∧
        Element.propertyIn name style' = some (later.getD v) := by
  obtain ⟨front, hfront⟩ := Element.putProperty_eq_behind name v style
  rw [inlineLines, hfront, List.foldlM_append]
  refine (inlineLines_setLast hcontent hvalue name [] front).bind fun done _ => ?_
  rw [List.foldlM_cons]
  apply Gives.bind (P := fun more => more = Element.putProperty name v done)
  · apply hv.bind
    rintro _ rfl
    exact .pure rfl
  · rintro _ rfl
    refine (inlineLines_setLast hcontent hvalue name _ _).mono ?_
    rintro style' ⟨later, hlater, hstyle'⟩
    refine ⟨later, hlater, ?_⟩
    rw [hstyle', Element.propertyIn_putProperty, if_pos rfl]
    cases later <;> rfl

end Expansion

/-! ## Values without references -/

/-- A text in which nothing looks like a reference is left as it is. -/
theorem Environment.fillIn_of_no_references {text : String} (h : Reference.findAll text = [])
    (env : Environment) (site : UseSite) (owner : NamespaceId) :
    env.fillIn site owner text = pure text := by
  have hpieces : ∀ pieces : List ValuePiece,
      (∀ piece ∈ pieces, piece ∈ ValuePiece.scan false text.toList) →
      pieces.mapM (Reference.replaceIn (env.referenceValue site owner)) =
        pure (pieces.map ValuePiece.source) := by
    intro pieces hmem
    induction pieces with
    | nil => rfl
    | cons piece pieces ih =>
      cases piece with
      | plain text =>
        rw [List.mapM_cons, ih fun p hp => hmem p (List.mem_cons_of_mem _ hp)]
        rfl
      | reference r source =>
        obtain ⟨p, hp, -⟩ := Reference.mem_located (hmem _ List.mem_cons_self) 0
        rw [Reference.findAll] at h
        rw [h] at hp
        cases hp
  rw [fillIn, Reference.replaceAll, hpieces _ fun _ h => h, pure_bind, ← List.flatMap_def,
    ValuePiece.flatMap_source_scan, String.ofList_toList]

/-! ## Modified elements -/

namespace Environment

variable {env : Environment} {site : UseSite} {owner : NamespaceId} {m : Cache}

/-- A value of the namespace `owner` is filled in so after some requests that start from `m`. -/
def FilledAs (env : Environment) (site : UseSite) (owner : NamespaceId) (m : Cache)
    (value filled : String) : Prop :=
  ∃ t, env.library.Faithful m t ∧ (env.fillIn site owner value).outcome t = .ok filled

theorem FilledAs.eq {value filled : String} (h : env.FilledAs site owner m value filled)
    (hvalue : Reference.findAll value = []) : filled = value := by
  obtain ⟨t, -, ht⟩ := h
  rw [fillIn_of_no_references hvalue] at ht
  exact (Except.ok.inj ht).symm

theorem fillIn_filledAs (m : Cache) (owner : NamespaceId) (text : String) :
    Gives (env.library.Faithful m) (env.fillIn site owner text)
      (env.FilledAs site owner m text) :=
  fun t ht => ⟨fun _ h => ⟨t, ht, h⟩,
    (fillIn_keeps (env.library.respects_faithful m) owner text t ht).2⟩

/-- The element `r` of an instance at the site shows the element `e` of the namespace `owner`, to which
the use gave more attributes and the value `v` for a property. -/
structure ShowsModified (env : Environment) (site : UseSite) (owner : NamespaceId) (m : Cache)
    (e : Element) (name v : String) (more : OrderedMap String String) (r : Element) : Prop where
  tag : r.tag = e.tag
  attributes : r.attributes = e.attributes.insertMany more.entries
  children : NodesInline (env.StandsFor site owner) e.children r.children
  property : ∃ later, StyleLine.SetLast (env.StandsFor site owner) (env.FilledAs site owner m) name
    (StyleLine.behind name e.style) later ∧ r.property? name = some (later.getD v)

/-- An instance of a group of which the use modifies one element. -/
theorem build_modified {expanding : List DefId} {b : DefId} {d : Definition} {s : Session}
    {body : Content} {a : Anchor} {name v : String} {more : OrderedMap String String}
    {front back : List Node} {e : Element} (hs : env.library.Faithful m s)
    (hd : env.library.definitions.get? b = some d) (hv : Reference.findAll v = [])
    (hbody : (env.build site expanding b [.modify a [.property name v] more]).outcome s = .ok body)
    (hnodes : (env.library.content b).outcome s = .ok (.element (front ++ .element e :: back)))
    (hmeans : a.Means env.library.firstIndex front e) :
    ∃ front' r back', body = .element (front' ++ .element r :: back') ∧
      NodesInline (env.StandsFor site d.home) front front' ∧
      NodesInline (env.StandsFor site d.home) back back' ∧
      env.ShowsModified site d.home m e name v more r := by
  obtain ⟨start, t, hstart, ht, hexpanded⟩ := build_eq_ok hs hd hbody
  rw [Library.base_of_no_deletions rfl, ← Library.outcome_content, hnodes] at hstart
  obtain rfl := Except.ok.inj hstart
  rw [Edit.applyAll_of_runs (.applied (.splices (.modify hmeans)) .done)] at hexpanded
  obtain ⟨nodes, hinlined, hbody⟩ := outcome_bind_eq_ok.1 hexpanded
  obtain rfl := Except.ok.inj hbody
  let x := env.expansion site d.home fun used edits => env.build site (b :: expanding) used edits
  have hcontent (k : Kind) (u : Usage) : Gives (env.library.Faithful m) (x.content k u)
      fun r => ∀ c, r = some c → env.StandsFor site d.home k u c :=
    usageContent_stands m d.home (b :: expanding) k u
  have hvalue (text : String) : Gives (env.library.Faithful m) (x.value text)
      (env.FilledAs site d.home m text) := fillIn_filledAs m d.home text
  have hnodes (ns : List Node) := Expansion.inlineNodes_gives (x := x) hcontent
    (fun text => Keeps.of_gives (hvalue text)) ns
  have hstyle := Expansion.inlineLines_putProperty (x := x) hcontent hvalue
    ((hvalue v).mono fun filled h => h.eq hv) name e.style
  have helement := Expansion.inlineNodes_element_gives (x := x) e.tag
    (e.attributes.insertMany more.entries) hstyle (hnodes e.children)
  rw [← List.singleton_append (l := back)] at hinlined
  obtain ⟨front', _, hfront, ⟨_, back', ⟨style, children, hlater, hchildren, rfl⟩, hback, rfl⟩, rfl⟩ :=
    (Expansion.inlineNodes_append_gives (hnodes front)
      (Expansion.inlineNodes_append_gives helement (hnodes back)) t ht).1 nodes hinlined
  exact ⟨front', _, back', rfl, hfront, hback, rfl, rfl, hchildren, hlater⟩

end Environment

namespace Compiling

/-- An instance with an edit that gives a property of one element a value `v` without references
shows that element with the value, unless a line behind the first property of that name gives it one:
then the last such value is shown. In particular `v` is shown if the element had no such property. -/
theorem instanceOfName_modified {c : Compilation} {n : Name} {a : Anchor} {name v : String}
    {more : OrderedMap String String} {expected : Category} {site : UseSite} {span : Option Span}
    {inst : Instance} {id : DefId} {d : Definition} {nodes : List Node} {i : Nat}
    (hv : Reference.findAll v = [])
    (hinst : (instanceOfName n [.modify a [.property name v] more] expected site span).outcome c =
      .ok inst)
    (hid : inst.definition = some id) (hd : c.definitions.get? id = some d)
    (hnodes : (contentOf id).outcome c = .ok (.element nodes))
    (hi : a.find c.config.firstIndex nodes = some i) :
    ∃ front e back, nodes = front ++ .element e :: back ∧ front.length = i ∧
      ∃ front' r back', inst.body = .element (front' ++ .element r :: back') ∧
        NodesInline (c.environment.StandsFor site d.home) front front' ∧
        NodesInline (c.environment.StandsFor site d.home) back back' ∧
        c.environment.ShowsModified site d.home c.session.cache e name v more r ∧
        (e.property? name = none → r.property? name = some v) := by
  obtain ⟨front, e, back, rfl, hfront, hmeans⟩ := Anchor.find_eq_some_iff_split.1 hi
  rw [instanceOfName, outcome_recording, outcome_resolving] at hinst
  obtain ⟨id', -, hinst⟩ := outcome_bind_eq_ok.1 hinst
  obtain ⟨body, hbody, hinst⟩ := outcome_bind_eq_ok.1 hinst
  obtain ⟨d', -, hinst⟩ := outcome_bind_eq_ok.1 hinst
  obtain rfl := Except.ok.inj hinst
  obtain rfl := Option.some.inj hid
  rw [outcome_contentOf_of_some hd] at hnodes
  obtain ⟨front', r, back', hr, hfront', hback', hshows⟩ := Environment.build_modified
    (Library.Faithful.start c.library c.session) hd hv hbody hnodes hmeans
  refine ⟨front, e, back, rfl, hfront, front', r, back', hr, hfront', hback', hshows, fun hnone => ?_⟩
  obtain ⟨later, hlater, hproperty⟩ := hshows.property
  rw [StyleLine.behind_of_propertyIn_eq_none hnone] at hlater
  cases hlater
  exact hproperty

/-- Three walls. The first has a color twice, the second a color and the style of a paint, the third
only that style. -/
def walls : List Node :=
  let wall (style : List StyleLine) : Node := .element ⟨"div", .empty, style, []⟩
  let paint : StyleLine := .usage ⟨.ofKind .style "Paint", [], none⟩
  [wall [.property "color" "red", .property "color" "blue"],
    wall [.property "color" "red", paint], wall [paint]]

/-- A box of these walls, and the paint. -/
def facade : Compilation :=
  let group (origin : Origin) (kind : Kind) (name : String) (body : Content) : Operation :=
    .addGroup ⟨origin, kind, name⟩ body [] .empty none
  Operation.afterAll
    [group .template .style "Paint" (.style (.ofList [("color", .concrete "blue")])),
      group .custom .element "Box" (.element walls)]
    (.initial .initial)

namespace facade

/-- The box as it is stored. -/
def box : Definition where
  identity := ⟨.custom, .element, "Box"⟩
  home := .root
  scope := .global
  edges := []
  body := .element walls
  noValue := .empty
  span := none

/-- An instance of the box of which the wall at place `i` is painted green. -/
def painted (i : Nat) : Compiling Instance :=
  instanceOfName (.ofKind .element "Box") [.modify (.index i) [.property "color" "green"] .empty]
    (.ofKind .element) ⟨.global, .root⟩ none

/-- The colors of the walls. -/
def colors (inst : Instance) : List (Option String) :=
  match inst.body with
  | .element nodes => (nodes.filterMap Node.element?).map (·.property? "color")
  | _ => []

theorem get?_box : facade.definitions.get? ⟨1⟩ = some box := rfl

theorem contentOf_box : (contentOf ⟨1⟩).outcome facade = .ok (.element walls) := by
  have hbase : facade.library.base ⟨1⟩ box [] = facade.library.descend [] ⟨1⟩ [] :=
    Library.base_of_no_deletions rfl
  rw [outcome_contentOf_of_some get?_box, Library.outcome_content, ← hbase,
    Library.outcome_base_of_no_edges get?_box rfl rfl rfl]
  rfl

end facade

/-- The wall that had no color of its own is green. -/
theorem instanceOfName_modified_facade :
    ∃ inst front r back, (facade.painted 2).outcome facade = .ok inst ∧
      inst.body = .element (front ++ .element r :: back) ∧ r.property? "color" = some "green" := by
  have hpainted : ((facade.painted 2).outcome facade).map Instance.definition = .ok (some ⟨1⟩) := by
    decide +kernel
  obtain ⟨inst, hinst, hid⟩ := Except.map_eq_ok.1 hpainted
  obtain ⟨front, e, back, hwalls, hlength, front', r, back', hbody, -, -, -, hcolor⟩ :=
    instanceOfName_modified (by decide +kernel) hinst hid facade.get?_box facade.contentOf_box rfl
  have he : walls[front.length]? = some (.element e) := by
    rw [hwalls]
    simp
  rw [hlength] at he
  cases he
  exact ⟨inst, front', r, back', hinst, hbody, hcolor rfl⟩

/-- The walls that had a color of their own are not green: what stands behind that color, another
color or the style of a paint, is put down after the value given at the use. -/
theorem instanceOfName_modified_overridden :
    facade.Reachable ∧ Reference.findAll "green" = [] ∧
      (contentOf ⟨1⟩).outcome facade = .ok (.element walls) ∧
      ∀ i ∈ [0, 1], (Anchor.index i).find facade.config.firstIndex walls = some i ∧
        ((facade.painted i).outcome facade).map (fun inst => (facade.colors inst)[i]?) =
          .ok (some (some "blue")) := by
  refine ⟨(Compilation.Reachable.initial .initial).afterAll _, by decide +kernel,
    facade.contentOf_box, ?_⟩
  intro i hi
  obtain rfl | rfl : i = 0 ∨ i = 1 := by simpa using hi
  · exact ⟨rfl, by decide +kernel⟩
  · exact ⟨rfl, by decide +kernel⟩

end Compiling
end Stencil
