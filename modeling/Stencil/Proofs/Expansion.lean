import Stencil.Instance.Inline
import Stencil.Proofs.Session

/-! # What expansion makes of content

Expanded content is related to what it was made from, whatever the session does meanwhile. `C` tells
what may stand for a use; a use may also be left out.
-/
namespace Stencil

open Resolving

/-- One more line of a style block behind those already expanded. -/
inductive LineInlines (C : Kind → Usage → Content → Prop) (done : List StyleLine) :
    StyleLine → List StyleLine → Prop
  | property (name value filled : String) :
    LineInlines C done (.property name value) (Element.putProperty name filled done)
  | usage (u : Usage) (s : StyleContent) (h : C .style u (.style s)) :
    LineInlines C done (.usage u) (Expansion.putProperties s done)
  | dropped (u : Usage) : LineInlines C done (.usage u) done

/-- The lines of a style block behind those already expanded. -/
inductive LinesInline (C : Kind → Usage → Content → Prop) :
    List StyleLine → List StyleLine → List StyleLine → Prop
  | nil (done : List StyleLine) : LinesInline C done [] done
  | cons {done more result : List StyleLine} {line : StyleLine} {lines : List StyleLine}
    (hline : LineInlines C done line more) (hlines : LinesInline C more lines result) :
    LinesInline C done (line :: lines) result

mutual

inductive NodeInlines (C : Kind → Usage → Content → Prop) : Node → List Node → Prop
  | text (t : String) : NodeInlines C (.text t) [.text t]
  | usage (u : Usage) (nodes : List Node) (h : C .element u (.element nodes)) :
    NodeInlines C (.usage u) nodes
  | dropped (u : Usage) : NodeInlines C (.usage u) []
  | element {tag : String} {attributes : OrderedMap String String}
    {style style' : List StyleLine} {children children' : List Node}
    (hstyle : LinesInline C [] style style') (hchildren : NodesInline C children children') :
    NodeInlines C (.element ⟨tag, attributes, style, children⟩)
      [.element ⟨tag, attributes, style', children'⟩]

inductive NodesInline (C : Kind → Usage → Content → Prop) : List Node → List Node → Prop
  | nil : NodesInline C [] []
  | cons {n : Node} {ns front back : List Node} (hnode : NodeInlines C n front)
    (hnodes : NodesInline C ns back) : NodesInline C (n :: ns) (front ++ back)

end

theorem StyleContent.mem_foldl_erase {names : List String} {s : StyleContent}
    {e : String × StyleValue} (h : e ∈ (names.foldl erase s).properties.entries) :
    e ∈ s.properties.entries ∧ e.1 ∉ names := by
  induction names generalizing s with
  | nil => exact ⟨h, by simp⟩
  | cons name names ih =>
    obtain ⟨hmem, hnames⟩ := ih h
    have hfilter := List.mem_filter.1 hmem
    refine ⟨hfilter.1, ?_⟩
    simp only [List.mem_cons, not_or]
    exact ⟨by simpa using hfilter.2, hnames⟩

/-- The same properties, and those that have a value still have one. -/
def StyleContent.Fills (s filled : StyleContent) : Prop :=
  filled.properties.entries.map (fun e => (e.1, e.2.isPlaceholder)) =
    s.properties.entries.map fun e => (e.1, e.2.isPlaceholder)

inductive Content.Inlines (C : Kind → Usage → Content → Prop) : Content → Content → Prop
  | element {nodes nodes' : List Node} (h : NodesInline C nodes nodes') :
    Inlines C (.element nodes) (.element nodes')
  | style {s filled : StyleContent} (h : s.Fills filled) : Inlines C (.style s) (.style filled)
  | var (v : VarContent) : Inlines C (.var v) (.var v)

theorem Content.Inlines.kind_eq {C : Kind → Usage → Content → Prop} {b r : Content}
    (h : b.Inlines C r) : r.kind = b.kind := by
  cases h <;> rfl

namespace Expansion

variable {x : Expansion} {I : Session → Prop} {C : Kind → Usage → Content → Prop}

theorem inlineLine_gives
    (hcontent : ∀ k u, Gives I (x.content k u) fun r => ∀ c, r = some c → C k u c)
    (hvalue : ∀ t, Keeps I (x.value t)) (done : List StyleLine) (line : StyleLine) :
    Gives I (x.inlineLine done line) (LineInlines C done line) := by
  cases line with
  | property name value =>
    exact (hvalue value).bind fun filled _ => .pure (.property name value filled)
  | usage u =>
    apply (hcontent .style u).bind
    intro r hr
    split
    · rename_i s
      exact .pure (.usage u s (hr _ rfl))
    · exact .pure (.dropped u)

theorem inlineLines_gives
    (hcontent : ∀ k u, Gives I (x.content k u) fun r => ∀ c, r = some c → C k u c)
    (hvalue : ∀ t, Keeps I (x.value t)) (done lines : List StyleLine) :
    Gives I (lines.foldlM x.inlineLine done) (LinesInline C done lines) := by
  induction lines generalizing done with
  | nil => exact .pure (.nil done)
  | cons line lines ih =>
    rw [List.foldlM_cons]
    apply (inlineLine_gives hcontent hvalue done line).bind
    intro more hline
    exact (ih more).mono fun result hlines => .cons hline hlines

mutual

theorem inlineNode_gives
    (hcontent : ∀ k u, Gives I (x.content k u) fun r => ∀ c, r = some c → C k u c)
    (hvalue : ∀ t, Keeps I (x.value t)) :
    ∀ n : Node, Gives I (x.inlineNode n) (NodeInlines C n)
  | .text t => by
    rw [inlineNode]
    exact .pure (.text t)
  | .usage u => by
    rw [inlineNode]
    apply (hcontent .element u).bind
    intro r hr
    split
    · rename_i nodes
      exact .pure (.usage u nodes (hr _ rfl))
    · exact .pure (.dropped u)
  | .element ⟨tag, attributes, style, children⟩ => by
    rw [inlineNode]
    refine (inlineLines_gives hcontent hvalue [] style).bind fun style' hstyle => ?_
    refine (inlineNodes_gives hcontent hvalue children).bind fun children' hchildren => ?_
    exact .pure (.element hstyle hchildren)

theorem inlineNodes_gives
    (hcontent : ∀ k u, Gives I (x.content k u) fun r => ∀ c, r = some c → C k u c)
    (hvalue : ∀ t, Keeps I (x.value t)) :
    ∀ ns : List Node, Gives I (x.inlineNodes ns) (NodesInline C ns)
  | [] => by
    rw [inlineNodes]
    exact .pure .nil
  | n :: ns => by
    rw [inlineNodes]
    apply (inlineNode_gives hcontent hvalue n).bind
    intro front hfront
    apply (inlineNodes_gives hcontent hvalue ns).bind
    intro back hback
    exact .pure (.cons hfront hback)

end

/-- A property that has a value keeps its place when it gets another one. -/
theorem map_put_flags {name : String} {text : String} {es : List (String × StyleValue)}
    (hes : (es.map Prod.fst).Nodup) (h : (name, false) ∈ es.map fun e => (e.1, e.2.isPlaceholder)) :
    (OrderedMap.put name (.concrete text) es).map (fun e => (e.1, e.2.isPlaceholder)) =
      es.map fun e => (e.1, e.2.isPlaceholder) := by
  induction es with
  | nil => simp at h
  | cons e es ih =>
    rw [List.map_cons, List.nodup_cons] at hes
    by_cases hname : e.1 = name
    · have he : e.2.isPlaceholder = false := by
        rcases List.mem_cons.1 h with h | h
        · exact (Prod.mk.inj h).2.symm
        · obtain ⟨e', he', heq⟩ := List.mem_map.1 h
          have hfst : e'.1 = e.1 := (Prod.mk.inj heq).1.trans hname.symm
          exact absurd (hfst ▸ List.mem_map_of_mem he') hes.1
      have hnew : (StyleValue.concrete text).isPlaceholder = false := rfl
      simp [OrderedMap.put, hname, he, hnew]
    · have hrest : (name, false) ∈ es.map fun e => (e.1, e.2.isPlaceholder) := by
        rcases List.mem_cons.1 h with h | h
        · exact absurd (Prod.mk.inj h).1.symm hname
        · exact h
      simp [OrderedMap.put, hname, ih hes.2 hrest]

theorem fillProperties_gives (hvalue : ∀ t, Keeps I (x.value t)) (s : StyleContent) :
    Gives I (x.fillProperties s) s.Fills := by
  refine Gives.foldlM ?_ rfl
  rintro filled ⟨name, value⟩ hmem hfills
  cases value with
  | placeholder => exact .pure hfills
  | concrete text =>
    refine (hvalue text).bind fun v _ => .pure ?_
    have hname : (name, false) ∈ filled.properties.entries.map fun e =>
        (e.1, e.2.isPlaceholder) := by
      rw [hfills]
      exact List.mem_map_of_mem (f := fun e => (e.1, e.2.isPlaceholder)) hmem
    exact (map_put_flags filled.properties.nodup hname).trans hfills

/-- Expanded content is made from the content and from what stands for the uses in it. -/
theorem inlineContent_gives
    (hcontent : ∀ k u, Gives I (x.content k u) fun r => ∀ c, r = some c → C k u c)
    (hvalue : ∀ t, Keeps I (x.value t)) (b : Content) :
    Gives I (x.inlineContent b) (b.Inlines C) := by
  cases b with
  | element nodes =>
    exact (inlineNodes_gives hcontent hvalue nodes).bind fun nodes' h => .pure (.element h)
  | style s => exact (fillProperties_gives hvalue s).bind fun filled h => .pure (.style h)
  | var v => exact .pure (.var v)

end Expansion
end Stencil
