import Stencil.Content.Edit

/-! # Gaps in content

A gap is a place in which something may stand, among nodes, inside an element or in its style block.
Edits see of a node only whether it is an element, its tag and its attributes. So where they carry a
gap does not depend on the use or the value that stands in it, and they can take a use away only with
an element around it.
-/
namespace Stencil

/-- What edits see of a node: the tag and the attributes of an element. -/
def Node.label? : Node → Option (String × OrderedMap String String)
  | element e => some (e.tag, e.attributes)
  | text _ => none
  | usage _ => none

theorem Anchor.picks_congr (a : Anchor) {e e' : Element} (htag : e.tag = e'.tag)
    (hattributes : e.attributes = e'.attributes) : a.picks e = a.picks e' := by
  have hclass : e.hasClass = e'.hasClass := by
    funext name
    simp only [Element.hasClass, Element.classes, hattributes]
  have hselector (s : Selector) : s.picks e = s.picks e' := by
    simp only [Selector.picks, Element.id?, htag, hattributes, hclass]
  cases a with
  | index n => rfl
  | selector s => exact hselector s
  | nth s n => exact hselector s

theorem findElement_congr (a : Anchor) {nodes nodes' : List Node}
    (h : nodes.map Node.label? = nodes'.map Node.label?) (k : Nat) :
    findElement a.picks k nodes = findElement a.picks k nodes' := by
  induction nodes generalizing nodes' k with
  | nil =>
    obtain rfl := List.map_eq_nil_iff.1 h.symm
    rfl
  | cons n nodes ih =>
    obtain ⟨n', rest, rfl, hn, hrest⟩ := List.map_eq_cons_iff.1 h.symm
    have hih := ih hrest.symm
    cases n <;> cases n' <;>
      simp only [Node.label?, reduceCtorEq, Option.some.injEq, Prod.mk.injEq] at hn
    · cases k <;> simp only [findElement, a.picks_congr hn.1 hn.2, hih]
    all_goals simp only [findElement, hih]

theorem label?_of_findElement {p : Element → Bool} {k i : Nat} {nodes : List Node}
    (h : findElement p k nodes = some i) : ∃ n, nodes[i]? = some n ∧ n.label?.isSome := by
  induction nodes generalizing k i with
  | nil => cases h
  | cons n nodes ih =>
    have hlater {k : Nat} (h : (findElement p k nodes).map (· + 1) = some i) :
        ∃ m, (n :: nodes)[i]? = some m ∧ m.label?.isSome := by
      obtain ⟨j, hj, rfl⟩ := Option.map_eq_some_iff.1 h
      exact ih hj
    cases n with
    | text t => exact hlater h
    | usage u => exact hlater h
    | element e =>
      cases k with
      | zero =>
        rw [findElement] at h
        split at h
        · cases h
          exact ⟨_, rfl, rfl⟩
        · exact hlater h
      | succ k =>
        rw [findElement] at h
        split at h
        · exact hlater h
        · exact hlater h

/-! ## What an edit does to nodes -/

/-- A change at a place among nodes. -/
inductive Change where
  | splice (content : List Node) (start stop : Nat)
  | modify (i : Nat) (style : List StyleLine) (attributes : OrderedMap String String)

namespace Change

def run (nodes : List Node) : Change → List Node
  | splice content start stop => Stencil.splice nodes content start stop
  | modify i style attributes => nodes.modify i (modifyNode style attributes)

/-- It takes out no node or one element. -/
def Fits (nodes : List Node) : Change → Prop
  | splice _ start stop =>
    stop = start ∨ stop = start + 1 ∧ ∃ n, nodes[start]? = some n ∧ n.label?.isSome
  | modify _ _ _ => True

end Change

/-- The change that an edit makes, if it applies. -/
def Edit.change (base : Nat) (e : Edit) (nodes : List Node) : Option Change :=
  match e with
  | deleteProperty name =>
    match Selector.parse name.toList with
    | .ok s => ((Anchor.selector s).find base nodes).map fun i => .splice [] i (i + 1)
    | .error _ => none
  | deleteContent a => (a.find base nodes).map fun i => .splice [] i (i + 1)
  | insert place anchor content =>
    let found := anchor.bind fun a => a.find base nodes
    match place with
    | .atTop => some (.splice content 0 0)
    | .atBottom => some (.splice content nodes.length nodes.length)
    | .before => found.map fun i => .splice content i i
    | .after => found.map fun i => .splice content (i + 1) (i + 1)
    | .replace => found.map fun i => .splice content i (i + 1)
  | modify a style attributes => (a.find base nodes).map fun i => .modify i style attributes
  | deleteInheritance _ => some (.splice [] 0 0)
  | assign _ _ => none

namespace Edit

theorem editNodes_eq (base : Nat) (e : Edit) (nodes : List Node) :
    e.editNodes base nodes = (e.change base nodes).map fun ch => ch.run nodes := by
  cases e with
  | deleteProperty name =>
    simp only [editNodes, change]
    cases Selector.parse name.toList with
    | ok s => simp [deleteNode, Change.run, Function.comp_def]
    | error e => rfl
  | insert place anchor content =>
    cases place <;> simp [editNodes, change, insertNodes, Change.run, Function.comp_def, splice]
  | deleteContent a => simp [editNodes, change, deleteNode, Change.run, Function.comp_def]
  | modify a style attributes => simp [editNodes, change, Change.run, Function.comp_def]
  | deleteInheritance target => simp [editNodes, change, Change.run, splice]
  | assign name value => rfl

theorem change_congr (base : Nat) (e : Edit) {nodes nodes' : List Node}
    (h : nodes.map Node.label? = nodes'.map Node.label?) :
    e.change base nodes = e.change base nodes' := by
  have hfind (a : Anchor) : a.find base nodes = a.find base nodes' := by
    simp only [Anchor.find, findElement_congr a h]
  have hlength : nodes.length = nodes'.length := by
    simpa using congrArg List.length h
  cases e <;> simp only [change, hfind, hlength]

theorem change_fits {base : Nat} {e : Edit} {nodes : List Node} {ch : Change}
    (h : e.change base nodes = some ch) : ch.Fits nodes := by
  have hone {a : Anchor} {i : Nat} (hi : a.find base nodes = some i) (content : List Node) :
      (Change.splice content i (i + 1)).Fits nodes := by
    obtain ⟨k, -, hi⟩ := Option.bind_eq_some_iff.1 hi
    exact .inr ⟨rfl, label?_of_findElement hi⟩
  cases e with
  | deleteProperty name =>
    simp only [change] at h
    split at h
    · obtain ⟨i, hi, rfl⟩ := Option.map_eq_some_iff.1 h
      exact hone hi []
    · cases h
  | deleteContent a =>
    obtain ⟨i, hi, rfl⟩ := Option.map_eq_some_iff.1 h
    exact hone hi []
  | insert place anchor content =>
    cases place with
    | replace =>
      obtain ⟨i, hi, rfl⟩ := Option.map_eq_some_iff.1 h
      obtain ⟨a, -, hi⟩ := Option.bind_eq_some_iff.1 hi
      exact hone hi content
    | before | after =>
      obtain ⟨i, -, rfl⟩ := Option.map_eq_some_iff.1 h
      exact .inl rfl
    | atTop | atBottom =>
      cases h
      exact .inl rfl
  | modify a style attributes =>
    obtain ⟨i, -, rfl⟩ := Option.map_eq_some_iff.1 h
    trivial
  | deleteInheritance target =>
    cases h
    exact .inl rfl
  | assign name value => cases h

end Edit

/-! ## A node with others around it -/

theorem splice_before {front back content : List Node} {n : Node} {start stop : Nat}
    (hle : start ≤ stop) (h : stop ≤ front.length) :
    splice (front ++ n :: back) content start stop = splice front content start stop ++ n :: back := by
  simp [splice, List.take_append_of_le_length (Nat.le_trans hle h), List.drop_append_of_le_length h]

theorem splice_behind {front back content : List Node} {n : Node} {start stop : Nat}
    (hle : start ≤ stop) (h : front.length < start) :
    splice (front ++ n :: back) content start stop =
      front ++ n :: splice back content (start - front.length - 1) (stop - front.length - 1) := by
  obtain ⟨i, rfl⟩ : ∃ i, start = front.length + 1 + i := ⟨start - front.length - 1, by omega⟩
  obtain ⟨j, rfl⟩ : ∃ j, stop = front.length + 1 + j := ⟨stop - front.length - 1, by omega⟩
  have htake : (front ++ n :: back).take (front.length + 1 + i) = front ++ n :: back.take i := by
    rw [Nat.add_assoc, List.take_length_add_append, Nat.add_comm 1, List.take_succ_cons]
  have hdrop : (front ++ n :: back).drop (front.length + 1 + j) = back.drop j := by
    rw [Nat.add_assoc, List.drop_length_add_append, Nat.add_comm 1, List.drop_succ_cons]
  simp [splice, htake, hdrop, Nat.sub_sub]

theorem splice_at (front back content : List Node) (n : Node) :
    splice (front ++ n :: back) content front.length (front.length + 1) = front ++ content ++ back := by
  simp [splice]

theorem modify_around (f : Node → Node) (front back : List Node) (n : Node) (i : Nat) :
    (front ++ n :: back).modify i f =
      if i < front.length then front.modify i f ++ n :: back
      else if i = front.length then front ++ f n :: back
      else front ++ n :: back.modify (i - front.length - 1) f := by
  induction front generalizing i with
  | nil => cases i <;> simp
  | cons m front ih =>
    cases i with
    | zero => simp
    | succ i =>
      rw [List.cons_append, List.modify_succ_cons, ih]
      by_cases hlt : i < front.length
      · simp [hlt]
      · by_cases heq : i = front.length <;> simp [hlt, heq]

/-- A change keeps a node with others around it, or modifies it, or puts something in its place. -/
theorem Change.run_around (ch : Change) (front back : List Node) :
    (∃ front' back', ∀ n, ch.Fits (front ++ n :: back) →
        ch.run (front ++ n :: back) = front' ++ n :: back') ∨
      (∃ style attributes, ∀ n,
        ch.run (front ++ n :: back) = front ++ modifyNode style attributes n :: back) ∨
      ∃ content, ∀ n, ch.Fits (front ++ n :: back) →
        n.label?.isSome ∧ ch.run (front ++ n :: back) = front ++ content ++ back := by
  cases ch with
  | splice content start stop =>
    have hle {n : Node} (h : (Change.splice content start stop).Fits (front ++ n :: back)) :
        start ≤ stop := by
      rcases h with h | h <;> omega
    by_cases hbefore : stop ≤ front.length
    · exact .inl ⟨_, back, fun n hn => splice_before (hle hn) hbefore⟩
    by_cases hbehind : front.length < start
    · exact .inl ⟨front, _, fun n hn => splice_behind (hle hn) hbehind⟩
    · refine .inr (.inr ⟨content, fun n hn => ?_⟩)
      rcases hn with h | ⟨rfl, m, hm, hlabel⟩
      · omega
      · obtain rfl : start = front.length := by omega
        rw [List.getElem?_append_right (Nat.le_refl _), Nat.sub_self] at hm
        cases hm
        exact ⟨hlabel, splice_at front back content n⟩
  | modify i style attributes =>
    by_cases hlt : i < front.length
    · exact .inl ⟨_, back, fun n _ => by rw [run, modify_around, if_pos hlt]⟩
    by_cases heq : i = front.length
    · refine .inr (.inl ⟨style, attributes, fun n => ?_⟩)
      rw [run, modify_around, if_neg hlt, if_pos heq]
    · exact .inl ⟨front, _, fun n _ => by rw [run, modify_around, if_neg hlt, if_neg heq]⟩

/-! ## Style blocks under edits -/

/-- Adds a line to a style block as an edit does: a property takes the place of one of its name. -/
def StyleLine.addTo (style : List StyleLine) : StyleLine → List StyleLine
  | property name value => Element.putProperty name value style
  | usage u => style ++ [usage u]

namespace Element

theorem modify_eq (e : Element) (lines : List StyleLine) (more : OrderedMap String String) :
    e.modify lines more = ⟨e.tag, e.attributes.insertMany more.entries,
      lines.foldl StyleLine.addTo e.style, e.children⟩ := by
  have hlines : e.mergeLines lines = { e with style := lines.foldl StyleLine.addTo e.style } := by
    induction lines generalizing e with
    | nil => cases e; rfl
    | cons line lines ih =>
      cases line with
      | property name value => exact ih (e.setProperty name value)
      | usage u => exact ih (e.addLine (.usage u))
  rw [modify, hlines]

theorem putProperty_eq (name : String) (style : List StyleLine) :
    ∃ front back, ∀ value, putProperty name value style = front ++ .property name value :: back := by
  induction style with
  | nil => exact ⟨[], [], fun _ => rfl⟩
  | cons line style ih =>
    obtain ⟨front, back, h⟩ := ih
    have hlater (line : StyleLine) : ∃ front back, ∀ value,
        line :: putProperty name value style = front ++ .property name value :: back :=
      ⟨line :: front, back, fun value => by rw [h, List.cons_append]⟩
    cases line with
    | usage u => exact hlater (.usage u)
    | property n v =>
      by_cases hn : n = name
      · exact ⟨[], style, fun value => by rw [putProperty, if_pos hn, hn, List.nil_append]⟩
      · simpa only [putProperty, if_neg hn] using hlater (.property n v)

end Element

/-- A line added to a style block with a property either leaves the property there or takes its
place, whatever the value. -/
theorem StyleLine.addTo_around (line : StyleLine) (name : String) (front back : List StyleLine) :
    (∃ front' back', ∀ value, line.addTo (front ++ .property name value :: back) =
        front' ++ .property name value :: back') ∨
      ∃ style, ∀ value, line.addTo (front ++ .property name value :: back) = style := by
  cases line with
  | usage u => exact .inl ⟨front, back ++ [.usage u], fun _ => by simp [addTo]⟩
  | property n v =>
    simp only [addTo]
    induction front with
    | nil =>
      by_cases hn : name = n
      · exact .inr ⟨.property n v :: back, fun _ => by simp [Element.putProperty, hn]⟩
      · exact .inl ⟨[], Element.putProperty n v back, fun _ => by simp [Element.putProperty, hn]⟩
    | cons line front ih =>
      have hlater : (∃ front' back', ∀ value, line :: Element.putProperty n v
            (front ++ .property name value :: back) = front' ++ .property name value :: back') ∨
          ∃ style, ∀ value, line :: Element.putProperty n v
            (front ++ .property name value :: back) = style := by
        rcases ih with ⟨front', back', h⟩ | ⟨style, h⟩
        · exact .inl ⟨line :: front', back', fun value => by rw [h, List.cons_append]⟩
        · exact .inr ⟨line :: style, fun value => by rw [h]⟩
      cases line with
      | usage u => exact hlater
      | property m w =>
        by_cases hm : m = n
        · exact .inl ⟨.property n v :: front, back, fun _ => by simp [Element.putProperty, hm]⟩
        · simpa only [List.cons_append, Element.putProperty, if_neg hm] using hlater

theorem StyleLine.foldl_addTo_around (lines : List StyleLine) (name : String)
    (front back : List StyleLine) :
    (∃ front' back', ∀ value, lines.foldl addTo (front ++ .property name value :: back) =
        front' ++ .property name value :: back') ∨
      ∃ style, ∀ value, lines.foldl addTo (front ++ .property name value :: back) = style := by
  induction lines generalizing front back with
  | nil => exact .inl ⟨front, back, fun _ => rfl⟩
  | cons line lines ih =>
    simp only [List.foldl_cons]
    rcases line.addTo_around name front back with ⟨front', back', h⟩ | ⟨style, h⟩
    · simpa only [h] using ih front' back'
    · exact .inr ⟨lines.foldl addTo style, fun value => by rw [h]⟩

/-! ## Edits one after another -/

namespace Edit

/-- The nodes after edits; an edit that does not apply is passed over. -/
def editAll (base : Nat) (es : List Edit) (nodes : List Node) : List Node :=
  es.foldl (fun nodes e => (e.editNodes base nodes).getD nodes) nodes

theorem editAll_cons (base : Nat) (e : Edit) (es : List Edit) (nodes : List Node) :
    editAll base (e :: es) nodes = editAll base es ((e.editNodes base nodes).getD nodes) := rfl

theorem editAll_append (base : Nat) (es es' : List Edit) (nodes : List Node) :
    editAll base (es ++ es') nodes = editAll base es' (editAll base es nodes) :=
  List.foldl_append

theorem applyAll_element (base : Nat) (target : String) (es : List Edit) (nodes : List Node) :
    (applyAll base target es (.element nodes)).1 = .element (editAll base es nodes) := by
  induction es generalizing nodes with
  | nil => rfl
  | cons e es ih =>
    have happly : e.apply base (.element nodes) = (e.editNodes base nodes).map .element := rfl
    rw [applyAll, happly, editAll_cons]
    cases e.editNodes base nodes with
    | none => exact ih nodes
    | some nodes' => exact ih nodes'

variable {ι κ : Type} (n : κ → ι → Node) (hn : ∀ k i j, (n k i).label? = (n k j).label?) (i₀ : ι)
include hn

/-- An edit that applies to nodes around one that it cannot tell from others keeps it in its place,
modifies it, or takes it away if it is an element. -/
theorem editNodes_around (base : Nat) (e : Edit) (front back : List Node) (k : κ) :
    (∀ i, e.editNodes base (front ++ n k i :: back) = none) ∨
      (∃ front' back', ∀ i,
        e.editNodes base (front ++ n k i :: back) = some (front' ++ n k i :: back')) ∨
      (∃ style attributes, ∀ i, e.editNodes base (front ++ n k i :: back) =
        some (front ++ modifyNode style attributes (n k i) :: back)) ∨
      (n k i₀).label?.isSome ∧
        ∃ nodes, ∀ i, e.editNodes base (front ++ n k i :: back) = some nodes := by
  have hchange (i : ι) :
      e.change base (front ++ n k i :: back) = e.change base (front ++ n k i₀ :: back) :=
    e.change_congr base (by simp [hn k i i₀])
  cases hch : e.change base (front ++ n k i₀ :: back) with
  | none => exact .inl fun i => by rw [editNodes_eq, hchange, hch]; rfl
  | some ch =>
    have hrun (i : ι) :
        e.editNodes base (front ++ n k i :: back) = some (ch.run (front ++ n k i :: back)) := by
      rw [editNodes_eq, hchange, hch]
      rfl
    have hfits (i : ι) : ch.Fits (front ++ n k i :: back) := change_fits ((hchange i).trans hch)
    simp only [hrun, Option.some.injEq]
    rcases ch.run_around front back with ⟨front', back', h⟩ | ⟨style, attributes, h⟩ | ⟨content, h⟩
    · exact .inr (.inl ⟨front', back', fun i => h _ (hfits i)⟩)
    · exact .inr (.inr (.inl ⟨style, attributes, fun i => h _⟩))
    · exact .inr (.inr (.inr ⟨(h _ (hfits i₀)).1, _, fun i => (h _ (hfits i)).2⟩))

/-- If a modification either leaves one of the nodes `n` or no trace of which it was, then so do edits
one after another. -/
theorem editAll_around
    (hmodify : ∀ style attributes k, (∃ k', ∀ i, modifyNode style attributes (n k i) = n k' i) ∨
      (n k i₀).label?.isSome ∧ ∃ m, ∀ i, modifyNode style attributes (n k i) = m)
    (base : Nat) (es : List Edit) (front back : List Node) (k : κ) :
    (∃ front' k' back', ∀ i,
        editAll base es (front ++ n k i :: back) = front' ++ n k' i :: back') ∨
      (∃ k', (n k' i₀).label?.isSome) ∧
        ∃ nodes, ∀ i, editAll base es (front ++ n k i :: back) = nodes := by
  induction es generalizing front back k with
  | nil => exact .inl ⟨front, k, back, fun _ => rfl⟩
  | cons e es ih =>
    simp only [editAll_cons]
    rcases editNodes_around n hn i₀ base e front back k with
      h | ⟨front', back', h⟩ | ⟨style, attributes, h⟩ | ⟨hlabel, nodes, h⟩
    · simpa only [h, Option.getD_none] using ih front back k
    · simpa only [h, Option.getD_some] using ih front' back' k
    · simp only [h, Option.getD_some]
      rcases hmodify style attributes k with ⟨k', hk'⟩ | ⟨hlabel, m, hm⟩
      · simpa only [hk'] using ih front back k'
      · exact .inr ⟨⟨k, hlabel⟩, _, fun i => by rw [hm]⟩
    · exact .inr ⟨⟨k, hlabel⟩, _, fun i => by rw [h, Option.getD_some]⟩

end Edit

/-! ## Gaps among nodes -/

/-- Nodes with a gap among them or inside one of them. -/
inductive Gap where
  | top (front back : List Node)
  | inside (front : List Node) (tag : String) (attributes : OrderedMap String String)
    (style : List StyleLine) (gap : Gap) (back : List Node)

namespace Gap

/-- The nodes with something in the gap. -/
def fill (nodes : List Node) : Gap → List Node
  | top front back => front ++ nodes ++ back
  | inside front tag attributes style gap back =>
    front ++ .element ⟨tag, attributes, style, gap.fill nodes⟩ :: back

/-- The gap is not inside an element. -/
def IsTop : Gap → Prop
  | top _ _ => True
  | inside _ _ _ _ _ _ => False

/-- The gap with more nodes on both sides. -/
def within (front back : List Node) : Gap → Gap
  | top front' back' => top (front ++ front') (back' ++ back)
  | inside front' tag attributes style gap back' =>
    inside (front ++ front') tag attributes style gap (back' ++ back)

theorem fill_within (front back nodes : List Node) (g : Gap) :
    (g.within front back).fill nodes = front ++ g.fill nodes ++ back := by
  cases g <;> simp [within, fill]

theorem isTop_within {front back : List Node} {g : Gap} : (g.within front back).IsTop ↔ g.IsTop := by
  cases g <;> rfl

/-- Edits carry a gap with a use along, or they take it away with an element around it. -/
theorem editAll_fill (base : Nat) (es : List Edit) (g : Gap) (u : Usage) :
    (∃ g' : Gap, (g.IsTop → g'.IsTop) ∧
        ∀ w, Edit.editAll base es (g.fill [.usage w]) = g'.fill [.usage w]) ∨
      ¬ g.IsTop ∧ ∃ nodes, ∀ w, Edit.editAll base es (g.fill [.usage w]) = nodes := by
  cases g with
  | top front back =>
    have hfill (front back : List Node) (w : Usage) :
        (top front back).fill [.usage w] = front ++ .usage w :: back := by
      simp [fill]
    simp only [hfill]
    rcases Edit.editAll_around (fun (_ : Unit) w => .usage w) (fun _ _ _ => rfl) u
        (fun _ _ _ => .inl ⟨(), fun _ => rfl⟩) base es front back () with
      ⟨front', -, back', h⟩ | ⟨⟨-, hlabel⟩, -⟩
    · exact .inl ⟨top front' back', fun _ => trivial, fun w => by rw [h, hfill]⟩
    · cases hlabel
  | inside front tag attributes style gap back =>
    let around (k : OrderedMap String String × List StyleLine) (w : Usage) : Node :=
      .element ⟨tag, k.1, k.2, gap.fill [.usage w]⟩
    have hmodify (lines : List StyleLine) (more : OrderedMap String String)
        (k : OrderedMap String String × List StyleLine) :
        ∃ k', ∀ w, modifyNode lines more (around k w) = around k' w :=
      ⟨(k.1.insertMany more.entries, lines.foldl StyleLine.addTo k.2),
        fun _ => congrArg Node.element (Element.modify_eq _ lines more)⟩
    rcases Edit.editAll_around around (fun _ _ _ => rfl) u
        (fun lines more k => .inl (hmodify lines more k)) base es front back (attributes, style) with
      ⟨front', ⟨attributes', style'⟩, back', h⟩ | ⟨-, nodes, h⟩
    · exact .inl ⟨inside front' tag attributes' style' gap back', nofun, h⟩
    · exact .inr ⟨nofun, nodes, h⟩

end Gap

/-- Edits of which one inserts content with a gap in it. -/
structure Insertion where
  before : List Edit
  place : Place
  anchor : Option Anchor
  inner : Gap
  after : List Edit

namespace Insertion

/-- The edits where a use stands in the gap. -/
def edits (i : Insertion) (u : Usage) : List Edit :=
  i.before ++ .insert i.place i.anchor (i.inner.fill [.usage u]) :: i.after

/-- The position of the insertion is found in what the edits before it leave. -/
def Applies (i : Insertion) (base : Nat) (nodes : List Node) : Prop :=
  (insertNodes base i.place i.anchor [] (Edit.editAll base i.before nodes)).isSome

theorem exists_insertNodes {base : Nat} {place : Place} {anchor : Option Anchor}
    {content nodes result : List Node} (h : insertNodes base place anchor content nodes = some result) :
    ∃ front back, ∀ content',
      insertNodes base place anchor content' nodes = some (front ++ content' ++ back) := by
  cases place with
  | atTop => exact ⟨[], nodes, fun _ => rfl⟩
  | atBottom => exact ⟨nodes, [], fun _ => by simp [insertNodes]⟩
  | before | after | replace =>
    obtain ⟨i, hi, -⟩ := Option.map_eq_some_iff.1 h
    exact ⟨_, _, fun _ => Option.map_eq_some_iff.2 ⟨i, hi, rfl⟩⟩

/-- Wherever an edit inserts a use, the use stands in a gap of what the edits leave, whatever use it
is, unless a later edit takes it away with an element around it. -/
theorem editAll_edits {i : Insertion} {base : Nat} {nodes : List Node} (h : i.Applies base nodes)
    (u : Usage) :
    (∃ g : Gap, (i.inner.IsTop → g.IsTop) ∧
        ∀ w, Edit.editAll base (i.edits w) nodes = g.fill [.usage w]) ∨
      ¬ i.inner.IsTop ∧ ∃ r, ∀ w, Edit.editAll base (i.edits w) nodes = r := by
  obtain ⟨result, hresult⟩ := Option.isSome_iff_exists.1 h
  obtain ⟨front, back, hinsert⟩ := exists_insertNodes hresult
  have hedits (w : Usage) : Edit.editAll base (i.edits w) nodes =
      Edit.editAll base i.after ((i.inner.within front back).fill [.usage w]) := by
    have happlies : (Edit.insert i.place i.anchor (i.inner.fill [.usage w])).editNodes base
        (Edit.editAll base i.before nodes) = some ((i.inner.within front back).fill [.usage w]) := by
      rw [Gap.fill_within]
      exact hinsert _
    rw [edits, Edit.editAll_append, Edit.editAll_cons, happlies, Option.getD_some]
  simp only [hedits]
  rcases (i.inner.within front back).editAll_fill base i.after u with ⟨g, htop, hg⟩ | ⟨hinside, r, hr⟩
  · exact .inl ⟨g, fun h => htop (Gap.isTop_within.2 h), hg⟩
  · exact .inr ⟨fun h => hinside (Gap.isTop_within.2 h), r, hr⟩

end Insertion

/-! ## Gaps in style blocks -/

/-- Nodes with a gap in the style block of one of them. -/
structure BlockGap where
  front : List Node
  tag : String
  attributes : OrderedMap String String
  before : List StyleLine
  after : List StyleLine
  children : List Node
  back : List Node

namespace BlockGap

/-- The nodes with a line in the gap. -/
def fill (line : StyleLine) (g : BlockGap) : List Node :=
  g.front ++ .element ⟨g.tag, g.attributes, g.before ++ line :: g.after, g.children⟩ :: g.back

/-- Edits carry a gap with a property along, or the property leaves no trace. -/
theorem editAll_fill (base : Nat) (es : List Edit) (g : BlockGap) (name : String) :
    (∃ g' : BlockGap, ∀ v,
        Edit.editAll base es (g.fill (.property name v)) = g'.fill (.property name v)) ∨
      ∃ nodes, ∀ v, Edit.editAll base es (g.fill (.property name v)) = nodes := by
  let around (k : OrderedMap String String × List StyleLine × List StyleLine) (v : String) : Node :=
    .element ⟨g.tag, k.1, k.2.1 ++ .property name v :: k.2.2, g.children⟩
  have hmodify (lines : List StyleLine) (more : OrderedMap String String)
      (k : OrderedMap String String × List StyleLine × List StyleLine) :
      (∃ k', ∀ v, modifyNode lines more (around k v) = around k' v) ∨
        ∃ m, ∀ v, modifyNode lines more (around k v) = m := by
    simp only [around, modifyNode, Element.modify_eq]
    rcases StyleLine.foldl_addTo_around lines name k.2.1 k.2.2 with ⟨before, after, h⟩ | ⟨style, h⟩
    · exact .inl ⟨(_, before, after), fun v => by rw [h]⟩
    · exact .inr ⟨_, fun v => by rw [h]⟩
  rcases Edit.editAll_around around (fun _ _ _ => rfl) ""
      (fun lines more k => (hmodify lines more k).imp_right fun h => ⟨rfl, h⟩)
      base es g.front g.back (g.attributes, g.before, g.after) with
    ⟨front, ⟨attributes, before, after⟩, back, h⟩ | ⟨-, nodes, h⟩
  · exact .inl ⟨⟨front, g.tag, attributes, before, after, g.children, back⟩, h⟩
  · exact .inr ⟨nodes, h⟩

end BlockGap

/-- Edits of which one modifies an element and gives a property a value. -/
structure Modification where
  before : List Edit
  anchor : Anchor
  above : List StyleLine
  name : String
  below : List StyleLine
  attributes : OrderedMap String String
  after : List Edit

namespace Modification

/-- The edits where the property gets a value. -/
def edits (m : Modification) (value : String) : List Edit :=
  m.before ++ .modify m.anchor (m.above ++ .property m.name value :: m.below) m.attributes :: m.after

/-- The element to modify is found in what the edits before leave. -/
def Applies (m : Modification) (base : Nat) (nodes : List Node) : Prop :=
  (m.anchor.find base (Edit.editAll base m.before nodes)).isSome

theorem modify_eq (above : List StyleLine) (name : String) (below : List StyleLine)
    (attributes : OrderedMap String String) (e : Element) :
    (∃ before after, ∀ v, e.modify (above ++ .property name v :: below) attributes =
        ⟨e.tag, e.attributes.insertMany attributes.entries, before ++ .property name v :: after,
          e.children⟩) ∨
      ∃ e', ∀ v, e.modify (above ++ .property name v :: below) attributes = e' := by
  obtain ⟨front, back, h⟩ := Element.putProperty_eq name (above.foldl StyleLine.addTo e.style)
  have hlines (v : String) : (above ++ .property name v :: below).foldl StyleLine.addTo e.style =
      below.foldl StyleLine.addTo (front ++ .property name v :: back) := by
    rw [List.foldl_append, List.foldl_cons, StyleLine.addTo, h]
  simp only [Element.modify_eq, hlines]
  rcases StyleLine.foldl_addTo_around below name front back with ⟨before, after, h⟩ | ⟨style, h⟩
  · exact .inl ⟨before, after, fun v => by rw [h]⟩
  · exact .inr ⟨_, fun v => by rw [h]⟩

/-- Wherever an edit gives a property a value, the property stands in a style block of what the edits
leave, whatever value it is, unless a later line or edit takes it away. -/
theorem editAll_edits {m : Modification} {base : Nat} {nodes : List Node} (h : m.Applies base nodes) :
    (∃ g : BlockGap, ∀ v, Edit.editAll base (m.edits v) nodes = g.fill (.property m.name v)) ∨
      ∃ r, ∀ v, Edit.editAll base (m.edits v) nodes = r := by
  obtain ⟨j, hj⟩ := Option.isSome_iff_exists.1 h
  obtain ⟨k, -, hfound⟩ := Option.bind_eq_some_iff.1 hj
  obtain ⟨n, hn, hlabel⟩ := label?_of_findElement hfound
  have hedits (v : String) : Edit.editAll base (m.edits v) nodes =
      Edit.editAll base m.after ((Edit.editAll base m.before nodes).modify j
        (modifyNode (m.above ++ .property m.name v :: m.below) m.attributes)) := by
    have happlies : (Edit.modify m.anchor (m.above ++ .property m.name v :: m.below)
        m.attributes).editNodes base (Edit.editAll base m.before nodes) =
        some ((Edit.editAll base m.before nodes).modify j
          (modifyNode (m.above ++ .property m.name v :: m.below) m.attributes)) :=
      Option.map_eq_some_iff.2 ⟨j, hj, rfl⟩
    rw [edits, Edit.editAll_append, Edit.editAll_cons, happlies, Option.getD_some]
  cases n with
  | text t => cases hlabel
  | usage u => cases hlabel
  | element e =>
    obtain ⟨hlt, hget⟩ := List.getElem?_eq_some_iff.1 hn
    have hsplit (f : Node → Node) : (Edit.editAll base m.before nodes).modify j f =
        (Edit.editAll base m.before nodes).take j ++ f (.element e) ::
          (Edit.editAll base m.before nodes).drop (j + 1) := by
      rw [List.modify_eq_take_cons_drop hlt, hget]
    simp only [hedits, hsplit, modifyNode]
    rcases modify_eq m.above m.name m.below m.attributes e with ⟨before, after, hm⟩ | ⟨e', hm⟩
    · simp only [hm]
      exact BlockGap.editAll_fill base m.after ⟨_, e.tag, _, before, after, e.children, _⟩ m.name
    · exact .inr ⟨_, fun v => by rw [hm]⟩

end Modification

/-! ## Values of style groups -/

/-- The edit gives the property another value or takes it away. -/
def Edit.Touches (name : String) : Edit → Prop
  | deleteProperty n => n = name
  | assign n _ => n = name
  | _ => False

/-- Edits of which one gives a property of a style group a value. -/
structure Assignment where
  before : List Edit
  name : String
  after : List Edit

namespace Assignment

/-- The edits where the property gets a value. -/
def edits (a : Assignment) (value : String) : List Edit :=
  a.before ++ .assign a.name value :: a.after

/-- No later edit touches the property. -/
def Lasts (a : Assignment) : Prop := ∀ e ∈ a.after, ¬ e.Touches a.name

theorem get?_editStyle {name : String} {e : Edit} {s s' : StyleContent}
    (h : e.editStyle s = some s') (htouches : ¬ e.Touches name) :
    s'.properties.get? name = s.properties.get? name := by
  cases e with
  | deleteProperty n =>
    rw [Edit.editStyle] at h
    split at h
    · cases h
      exact (s.properties.get?_erase n name).trans (if_neg htouches)
    · cases h
  | assign n v =>
    cases h
    exact (s.properties.get?_insert n name _).trans (if_neg htouches)
  | deleteInheritance target =>
    cases h
    rfl
  | insert | deleteContent | modify => cases h

theorem get?_applyAll {name : String} (base : Nat) (target : String) {es : List Edit}
    (h : ∀ e ∈ es, ¬ e.Touches name) (s : StyleContent) :
    ∃ q, (Edit.applyAll base target es (.style s)).1 = .style q ∧
      q.properties.get? name = s.properties.get? name := by
  induction es generalizing s with
  | nil => exact ⟨s, rfl, rfl⟩
  | cons e es ih =>
    have hrest := ih fun e he => h e (List.mem_cons_of_mem _ he)
    have happly : e.apply base (.style s) = (e.editStyle s).map .style := rfl
    rw [Edit.applyAll, happly]
    cases hs : e.editStyle s with
    | none => exact hrest s
    | some s' =>
      obtain ⟨q, hq, hget⟩ := hrest s'
      exact ⟨q, hq, hget.trans (get?_editStyle hs (h e List.mem_cons_self))⟩

/-- A value that lasts is what the property has after the edits. -/
theorem get?_applyAll_edits {a : Assignment} (h : a.Lasts) (base : Nat) (target value : String)
    (s : StyleContent) :
    ∃ q, (Edit.applyAll base target (a.edits value) (.style s)).1 = .style q ∧
      q.properties.get? a.name = some (.concrete value) := by
  obtain ⟨before, name, after⟩ := a
  simp only [edits]
  induction before generalizing s with
  | nil =>
    obtain ⟨q, hq, hget⟩ := get?_applyAll base target h (s.set name value)
    exact ⟨q, hq, hget.trans ((s.properties.get?_insert name name _).trans (if_pos rfl))⟩
  | cons e before ih =>
    have happly : e.apply base (.style s) = (e.editStyle s).map .style := rfl
    rw [List.cons_append, Edit.applyAll, happly]
    cases e.editStyle s with
    | none => exact ih s h
    | some s' => exact ih s' h

end Assignment
end Stencil
