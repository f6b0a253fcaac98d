import Stencil.Proofs.Circles

/-! # Inheritance as one list of contents

What is inherited is laid together parent by parent, each with all that it inherits itself. Where nothing
is edited on the way, this is the same as laying the contents of all ancestors one after another, parents
before heirs and each as often as it is inherited.
-/
namespace Stencil

/-! ## Names in the order in which they first come -/

section

variable {α : Type} [DecidableEq α] {xs ys : List α}

theorem eraseDups_concat (xs : List α) (x : α) :
    (xs ++ [x]).eraseDups = if x ∈ xs then xs.eraseDups else xs.eraseDups ++ [x] := by
  rw [List.eraseDups_append]
  by_cases h : x ∈ xs <;> simp [h, List.removeAll, List.eraseDups_cons]

theorem eraseDups_of_nodup (h : xs.Nodup) : xs.eraseDups = xs := by
  induction xs using List.reverseRecOn with
  | nil => rfl
  | append_singleton xs x ih =>
    have hx : x ∉ xs := fun hx => (List.nodup_append.1 h).2.2 x hx x (by simp) rfl
    rw [eraseDups_concat, if_neg hx, ih (List.nodup_append.1 h).1]

theorem nodup_eraseDups (xs : List α) : xs.eraseDups.Nodup := by
  induction xs using List.reverseRecOn with
  | nil => simp
  | append_singleton xs x ih =>
    rw [eraseDups_concat]
    split
    · exact ih
    · rename_i hx
      exact List.nodup_append.2 ⟨ih, by simp, by simpa using fun y hy => ne_of_mem_of_not_mem hy hx⟩

theorem eraseDups_append_eraseDups (xs ys : List α) :
    (xs.eraseDups ++ ys.eraseDups).eraseDups = (xs ++ ys).eraseDups := by
  induction ys using List.reverseRecOn with
  | nil => simpa using eraseDups_of_nodup (nodup_eraseDups xs)
  | append_singleton ys y ih =>
    rw [eraseDups_concat, ← List.append_assoc, eraseDups_concat, ← ih]
    by_cases hys : y ∈ ys
    · simp [hys]
    · simp only [hys, if_false, ← List.append_assoc, eraseDups_concat, List.mem_append,
        List.mem_eraseDups, or_false]

end

/-- The last of the values that are given to a name. -/
def lastValue {β : Type} (name : String) (given : List (String × β)) : Option β :=
  given.reverse.lookup name

@[simp] theorem lastValue_nil {β : Type} (name : String) :
    lastValue name ([] : List (String × β)) = none := rfl

theorem lastValue_append {β : Type} (name : String) (given later : List (String × β)) :
    lastValue name (given ++ later) = (lastValue name later).or (lastValue name given) := by
  rw [lastValue, List.reverse_append, List.lookup_append]
  rfl

/-! ## Laying entries over a map -/

namespace OrderedMap

variable {α β σ : Type} [DecidableEq α] {f : σ → α × β → σ}

theorem eraseDups_keys (m : OrderedMap α β) : m.keys.eraseDups = m.keys := eraseDups_of_nodup m.nodup

/-- Steps that each add the name of an entry if it is new add the new names in their order. -/
theorem keys_foldl (view : σ → OrderedMap α β)
    (hf : ∀ s e, (view (f s e)).keys =
      if e.1 ∈ (view s).keys then (view s).keys else (view s).keys ++ [e.1])
    (s : σ) (es : List (α × β)) :
    (view (es.foldl f s)).keys = ((view s).keys ++ es.map Prod.fst).eraseDups := by
  induction es using List.reverseRecOn with
  | nil =>
    rw [List.map_nil, List.append_nil]
    exact (view s).eraseDups_keys.symm
  | append_singleton es e ih =>
    rw [List.foldl_append, List.map_append, ← List.append_assoc]
    simp only [List.foldl_cons, List.foldl_nil, List.map_cons, List.map_nil]
    rw [hf, ih, eraseDups_concat]
    simp only [List.mem_eraseDups]

end OrderedMap

/-- Steps that each give a name the value of an entry, if that has one, leave every name its last
value. -/
theorem get_foldl {β γ σ : Type} {f : σ → String × β → σ} (value : β → Option γ)
    (get : σ → String → Option γ)
    (hf : ∀ s e name, get (f s e) name =
      if e.1 = name then (value e.2).or (get s name) else get s name)
    (s : σ) (es : List (String × β)) (name : String) :
    get (es.foldl f s) name =
      (lastValue name (es.filterMap fun e => (value e.2).map (Prod.mk e.1))).or (get s name) := by
  induction es using List.reverseRecOn with
  | nil => rfl
  | append_singleton es e ih =>
    rw [List.foldl_append, List.filterMap_append, lastValue_append]
    simp only [List.foldl_cons, List.foldl_nil]
    rw [hf, ih]
    by_cases hname : e.1 = name
    · cases hv : value e.2 <;> simp [hname, hv, lastValue]
    · have hne : (name == e.1) = false := by simpa using Ne.symm hname
      cases hv : value e.2 <;> simp [hname, hv, lastValue, List.lookup_cons, hne]

namespace VarContent

variable (v later : VarContent) (name : String)

theorem keys_overlay : (v.overlay later).vars.keys = (v.vars.keys ++ later.vars.keys).eraseDups :=
  OrderedMap.keys_foldl id (fun m e => m.keys_insert e.1 e.2) v.vars later.vars.entries

theorem get?_overlay_eq_lastValue :
    (v.overlay later).get? name = (lastValue name later.vars.entries).or (v.get? name) := by
  have h := get_foldl some OrderedMap.get? (fun m e name => by rw [m.get?_insert]; rfl) v.vars
    later.vars.entries name
  have hentries : later.vars.entries.filterMap (fun e => (some e.2).map (Prod.mk e.1)) =
      later.vars.entries := by
    simp
  rw [hentries] at h
  exact h

theorem get?_eq_lastValue : v.get? name = lastValue name v.vars.entries := by
  have h := empty.get?_overlay_eq_lastValue v name
  rw [empty_overlay] at h
  rw [h]
  exact Option.or_none

theorem get?_overlay : (v.overlay later).get? name = (later.get? name).or (v.get? name) := by
  rw [get?_overlay_eq_lastValue, ← get?_eq_lastValue]

end VarContent

namespace StyleContent

variable (s later : StyleContent) (name : String)

/-- The properties that are given a text. -/
def texts : List (String × String) :=
  s.properties.entries.filterMap fun e => e.2.text?.map (Prod.mk e.1)

theorem keys_overlayProperty (v : StyleValue) :
    (s.overlayProperty name v).properties.keys =
      if name ∈ s.properties.keys then s.properties.keys else s.properties.keys ++ [name] := by
  unfold overlayProperty
  split
  · rename_i h
    have hmem : name ∈ s.properties.keys := by
      rw [← OrderedMap.contains_iff_mem_keys, OrderedMap.contains]
      rw [Bool.and_eq_true, get?] at h
      exact Option.isSome_of_isSome_bind h.2
    rw [if_pos hmem]
  · exact s.properties.keys_insert name v

theorem get?_overlayProperty (v : StyleValue) (other : String) :
    (s.overlayProperty name v).get? other =
      if name = other then v.text?.or (s.get? other) else s.get? other := by
  unfold overlayProperty
  split
  · rename_i h
    rw [Bool.and_eq_true] at h
    cases v with
    | concrete text => cases h.1
    | placeholder => simp [StyleValue.text?]
  · rename_i h
    rw [put, get?, OrderedMap.get?_insert]
    by_cases hname : name = other
    · subst hname
      cases v with
      | concrete text => simp [StyleValue.text?]
      | placeholder =>
        have hnone : s.get? name = none := by simpa [StyleValue.isPlaceholder] using h
        simp [StyleValue.text?, hnone]
    · rw [if_neg hname, if_neg hname, get?]

theorem keys_overlay :
    (s.overlay later).properties.keys = (s.properties.keys ++ later.properties.keys).eraseDups :=
  OrderedMap.keys_foldl properties (fun s e => s.keys_overlayProperty e.1 e.2) s
    later.properties.entries

theorem get?_overlay_eq_lastValue :
    (s.overlay later).get? name = (lastValue name later.texts).or (s.get? name) :=
  get_foldl StyleValue.text? get? (fun s e name => s.get?_overlayProperty e.1 e.2 name) s
    later.properties.entries name

theorem get?_eq_lastValue : s.get? name = lastValue name s.texts := by
  have h := empty.get?_overlay_eq_lastValue s name
  rw [empty_overlay] at h
  rw [h]
  exact Option.or_none

theorem get?_overlay : (s.overlay later).get? name = (later.get? name).or (s.get? name) := by
  rw [get?_overlay_eq_lastValue, ← get?_eq_lastValue]

theorem get?_of_mem_placeholders {name : String} (h : name ∈ s.placeholders) :
    s.get? name = none := by
  obtain ⟨⟨name, v⟩, hmem, rfl⟩ := List.mem_map.1 h
  obtain ⟨hentry, hopen⟩ := List.mem_filter.1 hmem
  rw [get?, OrderedMap.get?_eq_some_iff.2 hentry]
  cases v with
  | concrete text => cases hopen
  | placeholder => rfl

end StyleContent

/-! ## Contents of one kind, one after another -/

namespace Content

variable {b later r : Content} {parts more : List Content} {k : Kind}

/-- The nodes of an element group. -/
def nodes : Content → List Node
  | element nodes => nodes
  | _ => []

/-- The variables of a variable group with their values. -/
def assignments : Content → List (String × String)
  | var v => v.vars.entries
  | _ => []

/-- The names of the properties of a style group. -/
def propertyNames : Content → List String
  | style s => s.properties.keys
  | _ => []

/-- The properties of a style group that are given a text. -/
def propertyTexts : Content → List (String × String)
  | style s => s.texts
  | _ => []

/-- The content is what the parts, all of its kind, come to: all their nodes; every variable with its
last value; every property with the last text that is given to it, left open only if none is. Variables
and properties come in the order in which they first occur. -/
structure Joins (parts : List Content) (b : Content) : Prop where
  kinds : ∀ part ∈ parts, part.kind = b.kind
  element : ∀ nodes, b = .element nodes → nodes = parts.flatMap Content.nodes
  var : ∀ v, b = .var v →
    v.vars.keys = ((parts.flatMap Content.assignments).map Prod.fst).eraseDups ∧
    ∀ name, v.get? name = lastValue name (parts.flatMap Content.assignments)
  style : ∀ s, b = .style s →
    s.properties.keys = (parts.flatMap Content.propertyNames).eraseDups ∧
    (∀ name, s.get? name = lastValue name (parts.flatMap Content.propertyTexts)) ∧
    ∀ name ∈ s.placeholders, lastValue name (parts.flatMap Content.propertyTexts) = none

namespace Joins

theorem of_element {nodes : List Node} (hkinds : ∀ part ∈ parts, part.kind = .element)
    (h : nodes = parts.flatMap Content.nodes) : Joins parts (.element nodes) where
  kinds := hkinds
  element := by rintro _ ⟨⟩; exact h
  var := nofun
  style := nofun

theorem of_var {v : VarContent} (hkinds : ∀ part ∈ parts, part.kind = .var)
    (hkeys : v.vars.keys = ((parts.flatMap Content.assignments).map Prod.fst).eraseDups)
    (h : ∀ name, v.get? name = lastValue name (parts.flatMap Content.assignments)) :
    Joins parts (.var v) where
  kinds := hkinds
  element := nofun
  var := by rintro _ ⟨⟩; exact ⟨hkeys, h⟩
  style := nofun

theorem of_style {s : StyleContent} (hkinds : ∀ part ∈ parts, part.kind = .style)
    (hkeys : s.properties.keys = (parts.flatMap Content.propertyNames).eraseDups)
    (h : ∀ name, s.get? name = lastValue name (parts.flatMap Content.propertyTexts)) :
    Joins parts (.style s) where
  kinds := hkinds
  element := nofun
  var := nofun
  style := by
    rintro _ ⟨⟩
    exact ⟨hkeys, h, fun name hname => (h name).symm.trans (s.get?_of_mem_placeholders hname)⟩

theorem empty (k : Kind) : Joins [] (.empty k) := by
  cases k with
  | style => exact of_style nofun rfl fun _ => rfl
  | element => exact of_element nofun rfl
  | var => exact of_var nofun rfl fun _ => rfl

theorem single (b : Content) : Joins [b] b := by
  cases b with
  | style s =>
    refine of_style (by simp [kind]) ?_ ?_
    · simpa [propertyNames] using s.properties.eraseDups_keys.symm
    · simpa [propertyTexts] using s.get?_eq_lastValue
  | element nodes => exact of_element (by simp [kind]) (by simp [Content.nodes])
  | var v =>
    refine of_var (by simp [kind]) ?_ ?_
    · rw [List.flatMap_singleton]
      exact v.vars.eraseDups_keys.symm
    · simpa [assignments] using v.get?_eq_lastValue

/-- Content laid over content comes to the parts of both, one after another. -/
theorem append (hb : Joins parts b) (hlater : Joins more later) (h : b.overlay later = some r) :
    Joins (parts ++ more) r := by
  have hkinds (hkind : later.kind = b.kind) : ∀ part ∈ parts ++ more, part.kind = b.kind := by
    intro part hpart
    rcases List.mem_append.1 hpart with hpart | hpart
    · exact hb.kinds part hpart
    · exact (hlater.kinds part hpart).trans hkind
  cases b with
  | style s =>
    cases later with
    | style later =>
      cases h
      obtain ⟨hkeys, htexts, -⟩ := hb.style s rfl
      obtain ⟨hkeys', htexts', -⟩ := hlater.style later rfl
      refine of_style (hkinds rfl) ?_ fun name => ?_
      · rw [s.keys_overlay, hkeys, hkeys', List.flatMap_append, eraseDups_append_eraseDups]
      · rw [s.get?_overlay, htexts, htexts', List.flatMap_append, lastValue_append]
    | _ => cases h
  | element nodes =>
    cases later with
    | element later =>
      cases h
      refine of_element (hkinds rfl) ?_
      rw [hb.element nodes rfl, hlater.element later rfl, List.flatMap_append]
    | _ => cases h
  | var v =>
    cases later with
    | var later =>
      cases h
      obtain ⟨hkeys, hvalues⟩ := hb.var v rfl
      obtain ⟨hkeys', hvalues'⟩ := hlater.var later rfl
      refine of_var (hkinds rfl) ?_ fun name => ?_
      · rw [v.keys_overlay, hkeys, hkeys', List.flatMap_append, List.map_append,
          eraseDups_append_eraseDups]
      · rw [v.get?_overlay, hvalues, hvalues', List.flatMap_append, lastValue_append]
    | _ => cases h

end Joins
end Content

namespace Library

variable {l : Library} {id p : DefId} {d : Definition}

/-- The contents of all that a definition inherits, in the order of the inheritance and parents before
heirs, each as often as it is inherited, and its own content behind them. -/
def lineage (l : Library) (h : l.Acyclic) (id : DefId) : List Content :=
  match hd : l.definitions.get? id with
  | none => []
  | some d =>
    d.edges.attach.flatMap (fun e =>
      match hp : l.parentOf d e.1 with
      | .ok p =>
        have : l.Inherits id p := ⟨d, hd, e.1, e.2, hp⟩
        l.lineage h p
      | .error _ => []) ++ [d.ownContent]
termination_by h.wellFounded.wrap id
decreasing_by exact this

/-- What is inherited through one edge. -/
def inheritedLineage (l : Library) (h : l.Acyclic) (d : Definition) (e : Inheritance) :
    List Content :=
  match l.parentOf d e with
  | .ok p => l.lineage h p
  | .error _ => []

theorem inheritedLineage_of_ok (h : l.Acyclic) {e : Inheritance} (hp : l.parentOf d e = .ok p) :
    l.inheritedLineage h d e = l.lineage h p := by
  rw [inheritedLineage, hp]

theorem lineage_eq (h : l.Acyclic) (hd : l.definitions.get? id = some d) :
    l.lineage h id = d.edges.flatMap (l.inheritedLineage h d) ++ [d.ownContent] := by
  rw [lineage]
  split
  · rename_i hnone
    cases hnone.symm.trans hd
  · rename_i d' hd'
    obtain rfl := Option.some.inj (hd.symm.trans hd')
    conv_rhs => rw [← List.attach_map_subtype_val d.edges, List.flatMap_map]
    congr 2
    funext e
    split
    · rename_i p hp
      exact (inheritedLineage_of_ok h hp).symm
    · rename_i f hp
      rw [inheritedLineage, hp]

theorem edited_nil (l : Library) (flat : Finset DefId → Except Failure Content) (id : DefId)
    (excluded : Finset DefId) : l.edited flat id [] excluded = flat excluded := rfl

/-- Parents whose content is joined are joined to what was gathered before. -/
theorem overlayParents_joins (h : l.Acyclic) (hd : l.definitions.get? id = some d)
    {flat : l.ParentContent id} {edges : List Inheritance} (he : edges ⊆ d.edges)
    (hplain : ∀ e ∈ edges, e.edits = [] ∧ ∃ p, l.parentOf d e = .ok p)
    (hflat : ∀ p hp, ∃ b, flat p hp ∅ = .ok b ∧ b.kind = d.kind ∧ b.Joins (l.lineage h p))
    {parts : List Content} {gathered : Content} (hkind : gathered.kind = d.kind)
    (hparts : gathered.Joins parts) :
    ∃ b, l.overlayParents hd ∅ flat edges he gathered = .ok b ∧ b.kind = d.kind ∧
      b.Joins (parts ++ edges.flatMap (l.inheritedLineage h d)) := by
  induction edges generalizing parts gathered with
  | nil => exact ⟨gathered, rfl, hkind, by simpa using hparts⟩
  | cons e edges ih =>
    obtain ⟨hedits, p, hp⟩ := hplain e List.mem_cons_self
    obtain ⟨inherited, hinherited, hinheritedKind, hjoined⟩ :=
      hflat p ⟨d, hd, e, he List.mem_cons_self, hp⟩
    obtain ⟨body, hbody⟩ := Content.exists_overlay (hkind.trans hinheritedKind.symm)
    obtain ⟨b, hb, hbKind, hbJoined⟩ := ih (List.subset_of_cons_subset he)
      (fun e he => hplain e (List.mem_cons_of_mem _ he)) ((Content.kind_overlay hbody).trans hkind)
      (hparts.append hjoined hbody)
    refine ⟨b, ?_, hbKind, ?_⟩
    · have hover : overlayFor d gathered inherited = .ok body := by rw [overlayFor, hbody]
      have hallowed : checkEdits d [] = .ok () := rfl
      have hedited := (l.edited_nil (flat p ⟨d, hd, e, he List.mem_cons_self, hp⟩) p ∅).trans hinherited
      rw [overlayParents_of_ok hd he hp, hedits, hallowed]
      simp only [Finset.notMem_empty, if_false, hedited]
      change (do
        let body ← liftM (overlayFor d gathered inherited)
        l.overlayParents hd ∅ flat edges (List.subset_of_cons_subset he) body) = .ok b
      rw [hover]
      exact hb
    · rw [List.flatMap_cons, inheritedLineage_of_ok h hp, ← List.append_assoc]
      exact hbJoined

/-- Where all that a definition inherits is found and comes without edits, its content is what the
contents of its lineage come to. -/
theorem Plain.flattened_joins (h : l.Acyclic) (huniform : l.Uniform) (hplain : l.Plain id)
    (hd : l.definitions.get? id = some d) :
    ∃ b, l.flattened h id ∅ = .ok b ∧ b.kind = d.kind ∧ b.Joins (l.lineage h id) := by
  induction id using h.wellFounded.induction generalizing d with
  | _ id ih =>
    have hflat (p : DefId) (hp : l.Inherits id p) :
        ∃ b, l.flattened h p ∅ = .ok b ∧ b.kind = d.kind ∧ b.Joins (l.lineage h p) := by
      have hplainParent := hplain.parent huniform hp
      obtain ⟨d', hd'⟩ := hplainParent.stored.exists_get?
      obtain ⟨b, hb, hkind, hjoined⟩ := ih p hp hplainParent hd'
      exact ⟨b, hb, huniform.kind_eq hd hp ⟨d', hd', hkind⟩, hjoined⟩
    obtain ⟨gathered, hgathered, hkind, hjoined⟩ := overlayParents_joins h hd (List.Subset.refl _)
      (fun e he => hplain.edges id d .refl hd e he) hflat (Content.kind_empty d.kind) (.empty d.kind)
    have hown : d.ownContent.kind = d.kind := d.kind_ownContent.trans (huniform id d hd).1
    obtain ⟨b, hb⟩ := Content.exists_overlay (hkind.trans hown.symm)
    refine ⟨b, ?_, (Content.kind_overlay hb).trans hkind, ?_⟩
    · rw [flattened, merged_of_some hd, hgathered]
      have hover : overlayFor d gathered d.ownContent = .ok b := by rw [overlayFor, hb]
      change (liftM (overlayFor d gathered d.ownContent) : Except Failure Content) = .ok b
      rw [hover]
      rfl
    · rw [lineage_eq h hd]
      exact hjoined.append (.single d.ownContent) hb

end Library

namespace Compilation

/-- Where no definition inherits from itself, the content of a definition all whose inheritance is found
and comes without edits is what the contents of its lineage come to, whatever was asked before: of the
library alone, or of the compilation since nothing was remembered. -/
theorem Reachable.content_linear {c : Compilation} (hc : c.Reachable) (hfits : c.Fits)
    (h : c.library.Acyclic) {id : DefId} (hplain : c.library.Plain id) :
    ∃ b, c.library.HasKind id b ∧ b.Joins (c.library.lineage h id) ∧
      (∀ qs ds,
        (c.library.content id).outcome (Query.afterAll c.environment qs ⟨.empty, ds⟩) = .ok b) ∧
      (c.session.cache = .empty → ∀ rs,
        (Compiling.contentOf id).outcome (Request.afterAll rs c) = .ok b) := by
  have huniform := hc.intact.uniform (hc.filed hfits)
  obtain ⟨d, hd⟩ := hplain.stored.exists_get?
  obtain ⟨b, hb, hkind, hjoined⟩ := hplain.flattened_joins h huniform hd
  have hwalked : c.library.walked .empty [] id ∅ = .ok b := by
    rw [Library.walked_eq_flattened_root h, hb]
  have hcircular : ¬ IsCircular (c.library.walked .empty [] id ∅) := by
    rw [hwalked]
    exact not_isCircular_ok
  refine ⟨b, ⟨d, hd, hkind⟩, hjoined, ?_, ?_⟩
  · intro qs ds
    have hs : c.environment.library.Faithful .empty (Query.afterAll c.environment qs ⟨.empty, ds⟩) :=
      Query.afterAll_faithful qs (Library.Faithful.start c.library ⟨.empty, ds⟩)
    exact ((Library.content_tracks id _ hs).1.settles hcircular).trans hwalked
  · intro hempty rs
    have htracks := Compiling.contentOf_tracks hd rs
    rw [hempty] at htracks
    exact (htracks.settles hcircular).trans hwalked

end Compilation

/-- A frame that is inherited twice, through a door, which gives it another color, and through a window,
which gives it the width that it leaves open. -/
def facing : Compilation :=
  let style (name : String) (parents : List String) (properties : List (String × String))
      (noValue : List String) : Operation :=
    .addGroup ⟨.custom, .style, name⟩
      (.style (.ofList (properties.map fun p => (p.1, .concrete p.2))))
      (parents.map fun parent => ⟨.ofKind .style parent, .explicit, [], none⟩) (.ofList noValue) none
  Operation.afterAll
    [style "Frame" [] [("color", "red")] ["width"], style "Door" ["Frame"] [("color", "blue")] [],
      style "Window" ["Frame"] [("width", "2px")] [],
      style "Front" ["Door", "Window"] [("margin", "0")] ["height"]]
    (.initial .initial)

/-- The second time the frame gives the front its own color again, and leaves the width to the
window. Nothing gives a height. -/
theorem content_linear_facing :
    ∃ h : facing.library.Acyclic, facing.Reachable ∧ facing.Fits ∧ facing.library.Plain ⟨3⟩ ∧
      facing.session.cache = .empty ∧ ∃ b, b.Joins (facing.library.lineage h ⟨3⟩) ∧
        (Compiling.contentOf ⟨3⟩).outcome (Request.afterAll [.contentOf ⟨1⟩] facing) = .ok b ∧
        b.propertyNames = ["color", "width", "margin", "height"] ∧
        b.propertyTexts = [("color", "red"), ("width", "2px"), ("margin", "0")] := by
  have h : facing.library.Acyclic := Library.acyclic_of_inheritsOlder (by decide +kernel)
  have hreach : facing.Reachable := (Compilation.Reachable.initial .initial).afterAll _
  have hfits : facing.Fits := ⟨by decide +kernel, by decide +kernel⟩
  have hplain : facing.library.Plain ⟨3⟩ :=
    Library.plain_of_inheritsPlainly (by decide +kernel) (by decide +kernel)
  have hempty : facing.session.cache = .empty := by rfl
  obtain ⟨b, -, hjoined, -, hrequests⟩ := hreach.content_linear hfits h hplain
  have hb := hrequests hempty [.contentOf ⟨1⟩]
  have hnames : ((Compiling.contentOf ⟨3⟩).outcome (Request.afterAll [.contentOf ⟨1⟩]
      facing)).map (fun b => (b.propertyNames, b.propertyTexts)) =
      .ok (["color", "width", "margin", "height"],
        [("color", "red"), ("width", "2px"), ("margin", "0")]) := by
    decide +kernel
  rw [hb] at hnames
  obtain ⟨hnames, htexts⟩ := Prod.mk.inj (Except.ok.inj hnames)
  exact ⟨h, hreach, hfits, hplain, hempty, b, hjoined, hb, hnames, htexts⟩

end Stencil
