import Stencil.Proofs.Gaps

/-! # Edits as splices

An anchor counts elements, from a base on, and those only that its selector picks; an edit acts at a
place among nodes, where texts and uses stand between the elements. Here both are said without the
search: which element an anchor means, and which nodes each edit leaves around it. The edits of a
list are then a run, in which each either changes the body so or leaves it alone and is warned of.
-/
namespace Stencil

/-! ## The element that an anchor means -/

/-- How many elements that satisfy `p` stand among the nodes. -/
def countElements (p : Element → Bool) (nodes : List Node) : Nat :=
  (nodes.filterMap Node.element?).countP p

@[simp]
theorem countElements_nil (p : Element → Bool) : countElements p [] = 0 := rfl

@[simp]
theorem countElements_text (p : Element → Bool) (t : String) (nodes : List Node) :
    countElements p (.text t :: nodes) = countElements p nodes := rfl

@[simp]
theorem countElements_usage (p : Element → Bool) (u : Usage) (nodes : List Node) :
    countElements p (.usage u :: nodes) = countElements p nodes := rfl

@[simp]
theorem countElements_element (p : Element → Bool) (e : Element) (nodes : List Node) :
    countElements p (.element e :: nodes) = countElements p nodes + if p e then 1 else 0 :=
  List.countP_cons

/-- The search ends at an element that satisfies `p` and has `k` such elements before it. -/
theorem findElement_eq_some {p : Element → Bool} {k i : Nat} {nodes : List Node} :
    findElement p k nodes = some i ↔
      ∃ e, nodes[i]? = some (.element e) ∧ p e ∧ countElements p (nodes.take i) = k := by
  induction nodes generalizing k i with
  | nil => simp [findElement]
  | cons n nodes ih =>
    -- A node passed over moves the place on by one and counts if it satisfies `p`.
    have hpassed (j : Nat) : (findElement p j nodes).map (· + 1) = some i ↔
        ∃ i', i = i' + 1 ∧ ∃ e, nodes[i']? = some (.element e) ∧ p e ∧
          countElements p (nodes.take i') = j := by
      simp only [Option.map_eq_some_iff, ih, eq_comm (a := i), and_comm]
    cases n with
    | text t =>
      rw [findElement, hpassed]
      cases i <;> simp
    | usage u =>
      rw [findElement, hpassed]
      cases i <;> simp
    | element e =>
      by_cases hp : p e
      · cases k with
        | zero => cases i <;> simp [findElement, hp]
        | succ k =>
          rw [findElement, if_pos hp]
          simp only [hpassed]
          cases i <;> simp [hp]
      · have hnext : findElement p k (.element e :: nodes) = (findElement p k nodes).map (· + 1) := by
          cases k <;> rw [findElement, if_neg hp]
        rw [hnext, hpassed]
        cases i <;> simp [hp]

namespace Anchor

/-- The anchor means the element `e` with the nodes `front` before it: its selector picks the element,
and as many such elements stand before as its position, counted from `base` on, says. -/
def Means (base : Nat) : Anchor → List Node → Element → Prop
  | index n, front, _ => base ≤ n ∧ countElements (fun _ => true) front = n - base
  | selector s, front, e => s.picks e ∧ countElements s.picks front = 0
  | nth s n, front, e => s.picks e ∧ base ≤ n ∧ countElements s.picks front = n - base

/-- The position that is written in the anchor. -/
def position? : Anchor → Option Nat
  | index n => some n
  | selector _ => none
  | nth _ n => some n

theorem means_iff {base : Nat} {a : Anchor} {front : List Node} {e : Element} :
    a.Means base front e ↔ a.picks e ∧ a.rank base = some (countElements a.picks front) := by
  have hrank (n k : Nat) : (if base ≤ n then some (n - base) else none) = some k ↔
      base ≤ n ∧ k = n - base := by
    rw [Option.ite_none_right_eq_some, Option.some.injEq, eq_comm (a := k)]
  cases a with
  | index n => exact ⟨fun h => ⟨rfl, (hrank n _).2 h⟩, fun h => (hrank n _).1 h.2⟩
  | selector s => exact and_congr_right fun _ => eq_comm.trans (Option.some.injEq _ _).symm.to_iff
  | nth s n => exact and_congr_right fun _ => (hrank n _).symm

theorem find_eq_some {base : Nat} {a : Anchor} {nodes : List Node} {i : Nat} :
    a.find base nodes = some i ↔
      ∃ e, nodes[i]? = some (.element e) ∧ a.Means base (nodes.take i) e := by
  simp only [find, Option.bind_eq_some_iff, findElement_eq_some, means_iff]
  constructor
  · rintro ⟨k, hk, e, he, hp, rfl⟩
    exact ⟨e, he, hp, hk⟩
  · rintro ⟨e, he, hp, hk⟩
    exact ⟨_, hk, e, he, hp, rfl⟩

theorem find_eq_none {base n : Nat} {a : Anchor} (ha : a.position? = some n) (hn : n < base)
    (nodes : List Node) : a.find base nodes = none := by
  have hrank : a.rank base = none := by
    cases a <;> cases ha <;> exact if_neg (Nat.not_le.2 hn)
  rw [find, hrank, Option.bind_none]

/-- The nodes around the element that the anchor means. -/
theorem find_eq_some_iff_split {base : Nat} {a : Anchor} {nodes : List Node} {i : Nat} :
    a.find base nodes = some i ↔ ∃ front e back,
      nodes = front ++ .element e :: back ∧ front.length = i ∧ a.Means base front e := by
  rw [find_eq_some]
  constructor
  · rintro ⟨e, he, hmeans⟩
    obtain ⟨hlt, hget⟩ := List.getElem?_eq_some_iff.1 he
    refine ⟨nodes.take i, e, nodes.drop (i + 1), ?_, List.length_take_of_le (Nat.le_of_lt hlt), hmeans⟩
    rw [← hget, List.getElem_cons_drop, List.take_append_drop]
  · rintro ⟨front, e, back, rfl, rfl, hmeans⟩
    exact ⟨e, by simp, by simpa using hmeans⟩

theorem find_of_means {base : Nat} {a : Anchor} {front : List Node} {e : Element}
    (h : a.Means base front e) (back : List Node) :
    a.find base (front ++ .element e :: back) = some front.length :=
  find_eq_some_iff_split.2 ⟨front, e, back, rfl, rfl, h⟩

theorem map_find_eq_some {base : Nat} {a : Anchor} {nodes r : List Node} {f : Nat → List Node} :
    (a.find base nodes).map f = some r ↔ ∃ front e back,
      nodes = front ++ .element e :: back ∧ a.Means base front e ∧ f front.length = r := by
  simp only [Option.map_eq_some_iff, find_eq_some_iff_split]
  constructor
  · rintro ⟨i, ⟨front, e, back, hnodes, rfl, h⟩, hr⟩
    exact ⟨front, e, back, hnodes, h, hr⟩
  · rintro ⟨front, e, back, hnodes, h, hr⟩
    exact ⟨_, ⟨front, e, back, hnodes, rfl, h⟩, hr⟩

end Anchor

/-! ## What one edit leaves -/

theorem splice_front (front back content : List Node) (n : Node) :
    splice (front ++ n :: back) content front.length front.length =
      front ++ content ++ n :: back := by
  simp [splice]

theorem splice_back (front back content : List Node) (n : Node) :
    splice (front ++ n :: back) content (front.length + 1) (front.length + 1) =
      front ++ [n] ++ content ++ back := by
  simp [splice, List.take_length_add_append]

theorem modify_at (f : Node → Node) (front back : List Node) (n : Node) :
    (front ++ n :: back).modify front.length f = front ++ f n :: back := by
  rw [modify_around, if_neg (Nat.lt_irrefl _), if_pos rfl]

namespace Edit

variable {base : Nat} {nodes r : List Node}

/-- The edit turns the first nodes into the second. -/
inductive Splices (base : Nat) : Edit → List Node → List Node → Prop
  | deleteNamed {name : String} {s : Selector} {front back : List Node} {el : Element}
      (hs : Selector.parse name.toList = .ok s) (h : (Anchor.selector s).Means base front el) :
      Splices base (.deleteProperty name) (front ++ .element el :: back) (front ++ back)
  | delete {a : Anchor} {front back : List Node} {el : Element} (h : a.Means base front el) :
      Splices base (.deleteContent a) (front ++ .element el :: back) (front ++ back)
  | replace {a : Anchor} {content front back : List Node} {el : Element}
      (h : a.Means base front el) :
      Splices base (.insert .replace (some a) content) (front ++ .element el :: back)
        (front ++ content ++ back)
  | before {a : Anchor} {content front back : List Node} {el : Element}
      (h : a.Means base front el) :
      Splices base (.insert .before (some a) content) (front ++ .element el :: back)
        (front ++ content ++ .element el :: back)
  | after {a : Anchor} {content front back : List Node} {el : Element}
      (h : a.Means base front el) :
      Splices base (.insert .after (some a) content) (front ++ .element el :: back)
        (front ++ [.element el] ++ content ++ back)
  | atTop {anchor : Option Anchor} {content nodes : List Node} :
      Splices base (.insert .atTop anchor content) nodes (content ++ nodes)
  | atBottom {anchor : Option Anchor} {content nodes : List Node} :
      Splices base (.insert .atBottom anchor content) nodes (nodes ++ content)
  | modify {a : Anchor} {lines : List StyleLine} {more : OrderedMap String String}
      {front back : List Node} {el : Element} (h : a.Means base front el) :
      Splices base (.modify a lines more) (front ++ .element el :: back)
        (front ++ .element ⟨el.tag, el.attributes.insertMany more.entries,
          lines.foldl StyleLine.addTo el.style, el.children⟩ :: back)
  | deleteInheritance {target : Name} {nodes : List Node} :
      Splices base (.deleteInheritance target) nodes nodes

theorem splices_of_editNodes {e : Edit} (h : e.editNodes base nodes = some r) :
    e.Splices base nodes r := by
  cases e with
  | deleteProperty name =>
    rw [editNodes] at h
    split at h
    next s hs =>
      obtain ⟨front, el, back, rfl, hmeans, rfl⟩ := Anchor.map_find_eq_some.1 h
      rw [splice_at, List.append_nil]
      exact .deleteNamed hs hmeans
    · cases h
  | deleteInheritance target =>
    cases h
    exact .deleteInheritance
  | insert place anchor content =>
    cases place with
    | atTop =>
      cases h
      exact .atTop
    | atBottom =>
      cases h
      exact .atBottom
    | before =>
      cases anchor with
      | none => cases h
      | some a =>
        obtain ⟨front, el, back, rfl, hmeans, rfl⟩ := Anchor.map_find_eq_some.1 h
        rw [splice_front]
        exact .before hmeans
    | after =>
      cases anchor with
      | none => cases h
      | some a =>
        obtain ⟨front, el, back, rfl, hmeans, rfl⟩ := Anchor.map_find_eq_some.1 h
        rw [splice_back]
        exact .after hmeans
    | replace =>
      cases anchor with
      | none => cases h
      | some a =>
        obtain ⟨front, el, back, rfl, hmeans, rfl⟩ := Anchor.map_find_eq_some.1 h
        rw [splice_at]
        exact .replace hmeans
  | deleteContent a =>
    obtain ⟨front, el, back, rfl, hmeans, rfl⟩ := Anchor.map_find_eq_some.1 h
    rw [splice_at, List.append_nil]
    exact .delete hmeans
  | assign name value => cases h
  | modify a lines more =>
    obtain ⟨front, el, back, rfl, hmeans, rfl⟩ := Anchor.map_find_eq_some.1 h
    rw [modify_at, modifyNode, Element.modify_eq]
    exact .modify hmeans

theorem editNodes_of_splices {e : Edit} (h : e.Splices base nodes r) :
    e.editNodes base nodes = some r := by
  cases h with
  | deleteNamed hs h =>
    simp only [editNodes, hs, deleteNode, Anchor.find_of_means h, Option.map_some, splice_at,
      List.append_nil]
  | delete h => simp only [editNodes, deleteNode, Anchor.find_of_means h, Option.map_some, splice_at,
      List.append_nil]
  | replace h => simp only [editNodes, insertNodes, Option.bind_some, Anchor.find_of_means h,
      Option.map_some, splice_at]
  | before h => simp only [editNodes, insertNodes, Option.bind_some, Anchor.find_of_means h,
      Option.map_some, splice_front]
  | after h => simp only [editNodes, insertNodes, Option.bind_some, Anchor.find_of_means h,
      Option.map_some, splice_back]
  | atTop => rfl
  | atBottom => rfl
  | modify h => simp only [editNodes, Anchor.find_of_means h, Option.map_some, modify_at, modifyNode,
      Element.modify_eq]
  | deleteInheritance => rfl

theorem editNodes_eq_some {e : Edit} : e.editNodes base nodes = some r ↔ e.Splices base nodes r :=
  ⟨splices_of_editNodes, editNodes_of_splices⟩

/-- The edit turns the first body into the second. -/
inductive Turns (base : Nat) : Edit → Content → Content → Prop
  | dropsProperty {name : String} {s : StyleContent} (h : s.contains name) :
      Turns base (.deleteProperty name) (.style s) (.style (s.erase name))
  | setsProperty {name value : String} {s : StyleContent} :
      Turns base (.assign name value) (.style s) (.style (s.set name value))
  | keepsStyle {target : Name} {s : StyleContent} :
      Turns base (.deleteInheritance target) (.style s) (.style s)
  | dropsVariable {name : String} {v : VarContent} (h : v.vars.contains name) :
      Turns base (.deleteProperty name) (.var v) (.var (v.erase name))
  | setsVariable {name value : String} {v : VarContent} :
      Turns base (.assign name value) (.var v) (.var (v.set name value))
  | keepsVariables {target : Name} {v : VarContent} :
      Turns base (.deleteInheritance target) (.var v) (.var v)
  | splices {e : Edit} {nodes r : List Node} (h : e.Splices base nodes r) :
      Turns base e (.element nodes) (.element r)

theorem apply_eq_some {e : Edit} {b c : Content} : e.apply base b = some c ↔ e.Turns base b c := by
  constructor
  · intro h
    cases b with
    | style s =>
      obtain ⟨s', hs, rfl⟩ := Option.map_eq_some_iff.1 h
      cases e with
      | deleteProperty name =>
        obtain ⟨hname, hs⟩ := Option.ite_none_right_eq_some.1 hs
        cases hs
        exact .dropsProperty hname
      | assign name value => cases hs; exact .setsProperty
      | deleteInheritance target => cases hs; exact .keepsStyle
      | insert | deleteContent | modify => cases hs
    | var v =>
      obtain ⟨v', hv, rfl⟩ := Option.map_eq_some_iff.1 h
      cases e with
      | deleteProperty name =>
        obtain ⟨hname, hv⟩ := Option.ite_none_right_eq_some.1 hv
        cases hv
        exact .dropsVariable hname
      | assign name value => cases hv; exact .setsVariable
      | deleteInheritance target => cases hv; exact .keepsVariables
      | insert | deleteContent | modify => cases hv
    | element nodes =>
      obtain ⟨r, hr, rfl⟩ := Option.map_eq_some_iff.1 h
      exact .splices (editNodes_eq_some.1 hr)
  · intro h
    cases h with
    | dropsProperty hname => simp [apply, editStyle, hname]
    | dropsVariable hname => simp [apply, editVars, hname]
    | setsProperty | keepsStyle | setsVariable | keepsVariables => rfl
    | splices h => simp [apply, editNodes_eq_some.2 h]

/-! ## Runs of edits -/

/-- Edits in order lead from the first body to the second and leave the warnings: each edit either
turns the body into another, or leaves it as it is and is warned of once. -/
inductive Runs (base : Nat) (target : String) :
    List Edit → Content → Content → List Problem → Prop
  | done {b : Content} : Runs base target [] b b []
  | applied {e : Edit} {es : List Edit} {b b' c : Content} {warnings : List Problem}
      (h : e.Turns base b b') (hs : Runs base target es b' c warnings) :
      Runs base target (e :: es) b c warnings
  | dangling {e : Edit} {es : List Edit} {b c : Content} {warnings : List Problem}
      (h : ∀ b', ¬ e.Turns base b b') (hs : Runs base target es b c warnings) :
      Runs base target (e :: es) b c (.dangling e.render target :: warnings)

theorem runs_applyAll (base : Nat) (target : String) (es : List Edit) (b : Content) :
    Runs base target es b (applyAll base target es b).1 (applyAll base target es b).2 := by
  induction es generalizing b with
  | nil => exact .done
  | cons e es ih =>
    rw [applyAll]
    cases he : e.apply base b with
    | some b' => exact .applied (apply_eq_some.1 he) (ih b')
    | none =>
      refine .dangling (fun b' hb' => ?_) (ih b)
      rw [apply_eq_some.2 hb'] at he
      cases he

theorem applyAll_of_runs {target : String} {es : List Edit} {b c : Content}
    {warnings : List Problem} (h : Runs base target es b c warnings) :
    applyAll base target es b = (c, warnings) := by
  induction h with
  | done => rfl
  | applied h _ ih => rw [applyAll, apply_eq_some.2 h]; exact ih
  | @dangling e es b c warnings h _ ih =>
    have hnone : e.apply base b = none :=
      Option.eq_none_iff_forall_ne_some.2 fun b' hb' => h b' (apply_eq_some.1 hb')
    rw [applyAll, hnone]
    simp only [ih]

/-! ## Texts and uses -/

/-- The texts and the uses among the nodes. -/
def looseNodes (nodes : List Node) : List Node := nodes.filter fun n => n.element?.isNone

@[simp]
theorem looseNodes_append (nodes nodes' : List Node) :
    looseNodes (nodes ++ nodes') = looseNodes nodes ++ looseNodes nodes' :=
  List.filter_append nodes nodes'

@[simp]
theorem looseNodes_element (el : Element) (nodes : List Node) :
    looseNodes (.element el :: nodes) = looseNodes nodes := rfl

/-- An edit takes out no node but an element, and leaves the others in their order. -/
theorem Splices.looseNodes_sublist {e : Edit} (h : e.Splices base nodes r) :
    (looseNodes nodes).Sublist (looseNodes r) := by
  cases h with
  | deleteInheritance => exact .refl _
  | deleteNamed | delete | replace | before | after | atTop | atBottom | modify => simp

theorem Runs.looseNodes_sublist {target : String} {es : List Edit} {c : Content}
    {warnings : List Problem} (h : Runs base target es (.element nodes) c warnings) :
    ∃ r, c = .element r ∧ (looseNodes nodes).Sublist (looseNodes r) := by
  generalize hb : Content.element nodes = b at h
  induction h generalizing nodes with
  | done => exact ⟨nodes, hb.symm, .refl _⟩
  | applied h _ ih =>
    subst hb
    cases h with
    | splices h =>
      obtain ⟨r, hr, hsub⟩ := ih rfl
      exact ⟨r, hr, h.looseNodes_sublist.trans hsub⟩
  | dangling _ _ ih => exact ih hb

/-- Edits are splices. An anchor finds the element it means and no other, and none if its position
lies below the base. A list of edits runs edit by edit: one that applies acts at the place of that
element and keeps all other nodes, one that does not leaves the body and is warned of once. No text
and no use among the nodes is ever lost or moved past another. -/
theorem applyAll_splices (base : Nat) (target : String) :
    (∀ (a : Anchor) (nodes : List Node) (i : Nat), a.find base nodes = some i ↔
      ∃ el, nodes[i]? = some (.element el) ∧ a.Means base (nodes.take i) el) ∧
    (∀ (a : Anchor) (n : Nat) (nodes : List Node), a.position? = some n → n < base →
      a.find base nodes = none) ∧
    (∀ (es : List Edit) (b c : Content) (warnings : List Problem),
      applyAll base target es b = (c, warnings) ↔ Runs base target es b c warnings) ∧
    ∀ (es : List Edit) (nodes : List Node), ∃ r,
      (applyAll base target es (.element nodes)).1 = .element r ∧
        (looseNodes nodes).Sublist (looseNodes r) := by
  refine ⟨fun a nodes i => Anchor.find_eq_some, fun a n nodes ha hn => Anchor.find_eq_none ha hn nodes,
    fun es b c warnings => ⟨fun h => ?_, applyAll_of_runs⟩, fun es nodes => ?_⟩
  · have hruns := runs_applyAll base target es b
    rwa [h] at hruns
  · exact (runs_applyAll base target es (.element nodes)).looseNodes_sublist

/-- Two boxes with a text before and a line of text between them, and a label. -/
def boxes : List Node :=
  [.text "top", .element ⟨"div", .empty, [], []⟩, .text "between",
    .element ⟨"div", .empty, [], []⟩, .element ⟨"span", .empty, [], []⟩]

/-- With positions from one on, `div[2]` is the fourth of these nodes, and there is none at `[0]`.
Where a text goes before the second box, the first one goes and a missing `p` is looked for, the box
that counts as the first afterwards is the second one of before. -/
theorem applyAll_splices_boxes :
    (Anchor.nth ⟨some "div", [], none⟩ 2).find 1 boxes = some 3 ∧
      (Anchor.index 0).find 1 boxes = none ∧
      Runs 1 "Boxes"
        [.insert .before (some (.nth ⟨some "div", [], none⟩ 2)) [.text "new"],
          .deleteContent (.index 1), .deleteContent (.selector ⟨some "p", [], none⟩),
          .modify (.index 1) [.property "color" "red"] .empty]
        (.element boxes)
        (.element [.text "top", .text "between", .text "new",
          .element ⟨"div", .empty, [.property "color" "red"], []⟩,
          .element ⟨"span", .empty, [], []⟩])
        [.dangling "delete p" "Boxes"] := by
  obtain ⟨hfind, hbelow, hruns, -⟩ := applyAll_splices 1 "Boxes"
  refine ⟨(hfind _ _ _).2 ⟨_, rfl, ?_⟩, hbelow _ 0 _ rfl (by decide), (hruns _ _ _ _).1 ?_⟩
  · exact ⟨by decide, by decide, by decide⟩
  · rfl

end Edit
end Stencil
