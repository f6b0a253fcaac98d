import Stencil.Proofs.Import
import Stencil.Proofs.Paths

/-! # What opening a path and copying a tree leave

Opening a path makes only the namespaces that are missing on it, and they are empty. Copying a tree
opens one path after another, so that each path of the tree leads to the counterpart of where it led.
-/
namespace Stencil

namespace NamespaceTree

variable {t t' t'' : NamespaceTree} {a b x : NamespaceId} {name : String} {path : List String}

/-- The namespace was opened by a block of its own. -/
def Explicit (t : NamespaceTree) (id : NamespaceId) : Prop :=
  ∃ n, t.table.get? id = some n ∧ n.explicit = true

theorem SameOutline.explicit_iff (h : t.SameOutline t') : t'.Explicit a ↔ t.Explicit a := by
  have hmarked (t : NamespaceTree) :
      t.Explicit a ↔ (t.table.get? a).map Namespace.explicit = some true :=
    Option.map_eq_some_iff.symm
  rw [hmarked, hmarked, h.map_eq fun _ => rfl]

/-- Namespaces have been added, and no definition or alias. -/
structure Widens (t t' : NamespaceTree) : Prop where
  size : t.table.size ≤ t'.table.size
  children : ∀ a name b, t.child? a name = some b → t'.child? a name = some b
  definitions : t'.definition? = t.definition?
  aliases : t'.alias? = t.alias?

namespace Widens

theorem refl (t : NamespaceTree) : t.Widens t := ⟨Nat.le_refl _, fun _ _ _ h => h, rfl, rfl⟩

theorem trans (h : t.Widens t') (h' : t'.Widens t'') : t.Widens t'' where
  size := Nat.le_trans h.size h'.size
  children a name b hb := h'.children a name b (h.children a name b hb)
  definitions := h'.definitions.trans h.definitions
  aliases := h'.aliases.trans h.aliases

theorem leads (h : t.Widens t') (hb : t.Leads a path b) : t'.Leads a path b := hb.mono h.children

end Widens

/-! ## One child -/

theorem openChild_eq_ok (h : t.openChild a name = .ok (b, t')) :
    ∃ n, t.table.get? a = some n ∧
      (n.children.get? name = some b ∧ t' = t ∨
        n.children.get? name = none ∧ b = t.table.nextId ∧ t' = t.addChild a name) := by
  obtain ⟨r, hr, h⟩ := Except.bind_eq_ok h
  obtain ⟨n, hn, hchild⟩ := Except.bind_eq_ok hr
  refine ⟨n, Arena.get?_of_find hn, ?_⟩
  obtain rfl : n.children.get? name = r := Except.ok.inj hchild
  cases hr : n.children.get? name with
  | some c =>
    rw [hr] at h
    cases h
    exact .inl ⟨rfl, rfl⟩
  | none =>
    rw [hr] at h
    cases h
    exact .inr ⟨rfl, rfl, rfl⟩

/-- The path was opened from `a` on, and leads to `b`. -/
structure Opens (t : NamespaceTree) (a : NamespaceId) (path : List String) (b : NamespaceId)
    (t' : NamespaceTree) : Prop where
  widens : t.Widens t'
  leads : t'.Leads a path b
  only : t'.table.size ≤ idLimit → ∀ x, t'.table.Holds x →
    t.table.Holds x ∨ ∃ before, before <+: path ∧ t'.Leads a before x

theorem explicit_addChild {n : Namespace} (hn : t.table.get? a = some n) (name : String)
    (x : NamespaceId) : (t.addChild a name).Explicit x ↔ t.Explicit x := by
  unfold Explicit
  rw [get?_addChild hn]
  split
  · rename_i hx
    simp [hx, hn]
  · split
    · rename_i hx
      simp [get?_of_index_eq hx, Namespace.fresh]
    · rfl

theorem opens_of_openChild (h : t.openChild a name = .ok (b, t')) :
    t.Opens a [name] b t' ∧ ∀ x, t'.Explicit x ↔ t.Explicit x := by
  obtain ⟨n, hn, ⟨hchild, rfl⟩ | ⟨hnew, rfl, rfl⟩⟩ := openChild_eq_ok h
  · refine ⟨?_, fun _ => Iff.rfl⟩
    refine ⟨.refl _, ?_, fun _ x hx => .inl hx⟩
    refine leads_cons.2 ⟨b, ?_, leads_nil.2 rfl⟩
    rw [child?, hn]
    exact hchild
  · have hleads : (t.addChild a name).Leads a [name] t.table.nextId := by
      refine leads_cons.2 ⟨_, ?_, leads_nil.2 rfl⟩
      rw [child?_addChild hn, if_pos ⟨rfl, rfl⟩]
    refine ⟨⟨⟨?_, ?_, ?_, ?_⟩, hleads, ?_⟩, explicit_addChild hn name⟩
    · rw [size_addChild]
      exact Nat.le_succ _
    · intro x s b hb
      rw [child?_addChild hn, if_neg]
      · exact hb
      · rintro ⟨rfl, rfl⟩
        rw [child?, hn, Option.bind_some, hnew] at hb
        cases hb
    · funext x identity
      exact definition?_addChild hn name x identity
    · funext x s
      exact alias?_addChild hn name x s
    · intro hfits x hx
      by_cases hold : t.table.Holds x
      · exact .inl hold
      · refine .inr ⟨[name], List.prefix_rfl, ?_⟩
        have hnext : t.table.nextId = x := by
          obtain ⟨i⟩ := x
          rw [size_addChild] at hfits
          simp only [Arena.Holds, size_addChild] at hx hold
          obtain rfl : i = t.table.size := by omega
          exact Id.ofIndex_of_lt hfits
        exact hnext ▸ hleads

/-! ## A path -/

namespace Opens

theorem nil (t : NamespaceTree) (a : NamespaceId) : t.Opens a [] a t :=
  ⟨.refl t, leads_nil.2 rfl, fun _ _ hx => .inl hx⟩

theorem cons {m : NamespaceId} (h : t.Opens a [name] m t') (h' : t'.Opens m path b t'') :
    t.Opens a (name :: path) b t'' where
  widens := h.widens.trans h'.widens
  leads := leads_append.2 ⟨m, h'.widens.leads h.leads, h'.leads⟩
  only hfits x hx := by
    rcases h'.only hfits x hx with hx | ⟨before, hbefore, hx⟩
    · rcases h.only (Nat.le_trans h'.widens.size hfits) x hx with hx | ⟨before, hbefore, hx⟩
      · exact .inl hx
      · refine .inr ⟨before, hbefore.trans ?_, h'.widens.leads hx⟩
        exact List.prefix_append [name] path
    · refine .inr ⟨name :: before, List.cons_prefix_cons.2 ⟨rfl, hbefore⟩, ?_⟩
      exact leads_append.2 ⟨m, h'.widens.leads h.leads, hx⟩

/-- Marking a namespace afterwards changes nothing of that. -/
theorem setExplicit (h : t.Opens a path b t') (x : NamespaceId) :
    t.Opens a path b (t'.setExplicit x) := by
  have hsame : t'.Widens (t'.setExplicit x) := by
    refine ⟨Nat.le_of_eq (Arena.size_modify _ _ _).symm, fun a name b hb => ?_, ?_, ?_⟩
    · rw [child?_setExplicit]
      exact hb
    · funext id identity
      exact definition?_setExplicit x id identity
    · funext id name
      exact alias?_setExplicit x id name
  refine ⟨h.widens.trans hsame, hsame.leads h.leads, fun hfits y hy => ?_⟩
  have hold := h.only (Nat.le_trans hsame.size hfits) y (Arena.holds_modify.1 hy)
  rcases hold with hy | ⟨before, hbefore, hy⟩
  · exact .inl hy
  · exact .inr ⟨before, hbefore, hsame.leads hy⟩

end Opens

theorem opens_of_openPath (h : t.openPath a path = .ok (b, t')) :
    t.Opens a path b t' ∧ ∀ x, t'.Explicit x ↔ t.Explicit x := by
  induction path generalizing t a with
  | nil =>
    cases h
    exact ⟨.nil _ _, fun _ => Iff.rfl⟩
  | cons name path ih =>
    obtain ⟨⟨m, t₁⟩, hchild, hrest⟩ := Except.bind_eq_ok h
    obtain ⟨hopens, hexplicit⟩ := opens_of_openChild hchild
    obtain ⟨hopens', hexplicit'⟩ := ih hrest
    exact ⟨hopens.cons hopens', fun x => (hexplicit' x).trans (hexplicit x)⟩

theorem explicit_setExplicit {n : Namespace} (hn : t.table.get? b = some n) (x : NamespaceId) :
    (t.setExplicit b).Explicit x ↔ t.Explicit x ∨ x = b := by
  simp only [Explicit, setExplicit, modify, Arena.get?_modify]
  split
  · rename_i hx
    subst hx
    simp [hn]
  · rename_i hx
    simp [Ne.symm hx]

/-- A path is opened, and then its end is marked where that is wanted, unless it is the root. -/
theorem openAt_eq_ok {explicit : Bool} (h : t.openAt a path explicit = .ok (b, t')) :
    ∃ t₁, t.openPath a path = .ok (b, t₁) ∧
      ((explicit = false ∨ b = .root) ∧ t' = t₁ ∨
        explicit = true ∧ b ≠ .root ∧ (∃ n, t₁.table.get? b = some n) ∧ t' = t₁.setExplicit b) := by
  obtain ⟨⟨m, t₁⟩, hpath, hmark⟩ := Except.bind_eq_ok h
  cases explicit with
  | false =>
    cases hmark
    exact ⟨_, hpath, .inl ⟨.inl rfl, rfl⟩⟩
  | true =>
    obtain ⟨t₂, hmark, heq⟩ := Except.bind_eq_ok hmark
    cases heq
    unfold markExplicit at hmark
    split at hmark
    · rename_i hroot
      cases hmark
      exact ⟨_, hpath, .inl ⟨.inr hroot, rfl⟩⟩
    · rename_i hroot
      obtain ⟨n, hn, heq⟩ := Except.bind_eq_ok hmark
      exact ⟨_, hpath, .inr ⟨rfl, hroot, ⟨n, Arena.get?_of_find hn⟩, (Except.ok.inj heq).symm⟩⟩

theorem opens_of_openAt {explicit : Bool} (h : t.openAt a path explicit = .ok (b, t')) :
    t.Opens a path b t' ∧ ∀ x, t'.Explicit x ↔
      t.Explicit x ∨ explicit = true ∧ x = b ∧ x ≠ NamespaceId.root := by
  obtain ⟨t₁, hpath, ⟨hnot, rfl⟩ | ⟨rfl, hroot, ⟨n, hn⟩, rfl⟩⟩ := openAt_eq_ok h
  · obtain ⟨hopens, hexplicit⟩ := opens_of_openPath hpath
    refine ⟨hopens, fun x => ?_⟩
    rw [hexplicit x]
    constructor
    · exact .inl
    · rintro (hx | ⟨rfl, rfl, hne⟩)
      · exact hx
      · exact absurd (hnot.resolve_left nofun) hne
  · obtain ⟨hopens, hexplicit⟩ := opens_of_openPath hpath
    refine ⟨hopens.setExplicit b, fun x => ?_⟩
    rw [explicit_setExplicit hn, hexplicit x]
    constructor
    · rintro (hx | rfl)
      · exact .inl hx
      · exact .inr ⟨rfl, rfl, hroot⟩
    · rintro (hx | ⟨-, rfl, -⟩)
      · exact .inl hx
      · exact .inr rfl

/-! ## A tree -/

/-- The first namespaces of the tree `o` have counterparts, `under` being that of its root. -/
structure Copied (o : NamespaceTree) (under : NamespaceId) (t : NamespaceTree)
    (mapping : List NamespaceId) (t' : NamespaceTree) : Prop where
  widens : t.Widens t'
  head : mapping[0]? = some under
  child : ∀ k n p b, 0 < k → mapping[k]? = some b → o.table.get? ⟨k⟩ = some n → n.parent = some p →
    ∃ q, mapping[p.index]? = some q ∧ t'.child? q n.name = some b
  only : t'.table.size ≤ idLimit → ∀ x, t'.table.Holds x → t.table.Holds x ∨ x ∈ mapping
  explicit : ∀ x, t'.Explicit x ↔ t.Explicit x ∨
    x ≠ NamespaceId.root ∧ ∃ k, 0 < k ∧ mapping[k]? = some x ∧ o.Explicit ⟨k⟩

theorem copyNode_eq_ok {under : NamespaceId} {mapping mapping' : List NamespaceId} {n : Namespace}
    (h : copyNode under mapping t n = .ok (mapping', t')) :
    ∃ q b, n.placeIn under mapping = some q ∧ t.openAt q [n.name] n.explicit = .ok (b, t') ∧
      mapping' = mapping ++ [b] := by
  cases hq : n.placeIn under mapping with
  | none =>
    unfold Namespace.placeIn at hq
    unfold copyNode at h
    cases hp : n.parent with
    | none => simp [hp] at hq
    | some p =>
      simp only [hp] at hq h
      simp only [hq] at h
      cases h
  | some q =>
    rw [copyNode_eq hq] at h
    obtain ⟨⟨b, t₁⟩, hopen, heq⟩ := Except.bind_eq_ok h
    cases heq
    exact ⟨q, b, rfl, hopen, rfl⟩

namespace Copied

variable {o : NamespaceTree} {under : NamespaceId} {mapping mapping' : List NamespaceId}

theorem start (o : NamespaceTree) (under : NamespaceId) (t : NamespaceTree) :
    o.Copied under t [under] t where
  widens := .refl t
  head := rfl
  child k _ _ _ hk hb := by
    rw [List.getElem?_eq_none (Nat.succ_le_of_lt hk)] at hb
    cases hb
  only _ _ hx := .inl hx
  explicit x := by
    constructor
    · exact .inl
    · rintro (hx | ⟨-, k, hk, hb, -⟩)
      · exact hx
      · rw [List.getElem?_eq_none (Nat.succ_le_of_lt hk)] at hb
        cases hb

theorem mem_of_placeIn (h : o.Copied under t mapping t') {n : Namespace} {q : NamespaceId}
    (hq : n.placeIn under mapping = some q) : q ∈ mapping := by
  unfold Namespace.placeIn at hq
  split at hq
  · exact Option.some.inj hq ▸ List.mem_of_getElem? h.head
  · exact List.mem_of_getElem? hq

/-- One more counterpart is opened, below that of the parent. -/
theorem step (h : o.Copied under t mapping t') {n : Namespace}
    (hn : o.table.get? ⟨mapping.length⟩ = some n)
    (hcopy : copyNode under mapping t' n = .ok (mapping', t'')) :
    o.Copied under t mapping' t'' ∧ mapping'.length = mapping.length + 1 := by
  obtain ⟨q, b, hq, hopen, rfl⟩ := copyNode_eq_ok hcopy
  obtain ⟨hopens, hexplicit⟩ := opens_of_openAt hopen
  have hpos : 0 < mapping.length := (List.getElem?_eq_some_iff.1 h.head).1
  have hchild : t''.child? q n.name = some b := by
    obtain ⟨m, hm, hnil⟩ := leads_cons.1 hopens.leads
    rw [hm, leads_nil.1 hnil]
  have hget {k : Nat} {x : NamespaceId} (hx : (mapping ++ [b])[k]? = some x) :
      mapping[k]? = some x ∨ k = mapping.length ∧ x = b := by
    rcases Nat.lt_trichotomy k mapping.length with hk | rfl | hk
    · rw [List.getElem?_append_left hk] at hx
      exact .inl hx
    · rw [List.getElem?_concat_length] at hx
      exact .inr ⟨rfl, (Option.some.inj hx).symm⟩
    · rw [List.getElem?_eq_none (by simpa using Nat.succ_le_of_lt hk)] at hx
      cases hx
  have hold {k : Nat} {x : NamespaceId} (hx : mapping[k]? = some x) :
      (mapping ++ [b])[k]? = some x := by
    obtain ⟨hk, -⟩ := List.getElem?_eq_some_iff.1 hx
    rw [List.getElem?_append_left hk, hx]
  refine ⟨⟨h.widens.trans hopens.widens, hold h.head, ?_, ?_, ?_⟩, by simp⟩
  · intro k m p x hk hx hm hp
    rcases hget hx with hx | ⟨rfl, rfl⟩
    · obtain ⟨r, hr, hrx⟩ := h.child k m p x hk hx hm hp
      exact ⟨r, hold hr, hopens.widens.children r m.name x hrx⟩
    · obtain rfl := Option.some.inj (hn.symm.trans hm)
      unfold Namespace.placeIn at hq
      simp only [hp] at hq
      exact ⟨q, hold hq, hchild⟩
  · intro hfits x hx
    rcases hopens.only hfits x hx with hx | ⟨before, hbefore, hx⟩
    · rcases h.only (Nat.le_trans hopens.widens.size hfits) x hx with hx | hx
      · exact .inl hx
      · exact .inr (List.mem_append_left _ hx)
    · right
      rcases List.prefix_cons_iff.1 hbefore with rfl | ⟨rest, rfl, hrest⟩
      · exact List.mem_append_left _ (leads_nil.1 hx ▸ h.mem_of_placeIn hq)
      · obtain rfl := List.prefix_nil.1 hrest
        exact List.mem_append_right _ (List.mem_singleton.2 (hx.unique hopens.leads))
  · intro x
    rw [hexplicit x, h.explicit x]
    constructor
    · rintro ((hx | ⟨hroot, k, hk, hx, hmarked⟩) | ⟨hmarked, rfl, hroot⟩)
      · exact .inl hx
      · exact .inr ⟨hroot, k, hk, hold hx, hmarked⟩
      · exact .inr ⟨hroot, mapping.length, hpos, List.getElem?_concat_length, n, hn, hmarked⟩
    · rintro (hx | ⟨hroot, k, hk, hx, hmarked⟩)
      · exact .inl (.inl hx)
      · rcases hget hx with hx | ⟨rfl, rfl⟩
        · exact .inl (.inr ⟨hroot, k, hk, hx, hmarked⟩)
        · obtain ⟨m, hm, hmarked⟩ := hmarked
          obtain rfl := Option.some.inj (hn.symm.trans hm)
          exact .inr ⟨hmarked, rfl, hroot⟩

theorem foldlM (h : o.Copied under t mapping t') {nodes : List Namespace}
    (hnodes : ∀ i n, nodes[i]? = some n → o.table.get? ⟨mapping.length + i⟩ = some n)
    (hcopy : nodes.foldlM (fun (mapping, t) n => copyNode under mapping t n) (mapping, t') =
      .ok (mapping', t'')) :
    o.Copied under t mapping' t'' ∧ mapping'.length = mapping.length + nodes.length := by
  induction nodes generalizing mapping t' with
  | nil =>
    cases hcopy
    exact ⟨h, rfl⟩
  | cons n nodes ih =>
    rw [List.foldlM_cons] at hcopy
    obtain ⟨⟨mapping₁, t₁⟩, hfirst, hrest⟩ := Except.bind_eq_ok hcopy
    obtain ⟨h₁, hlength⟩ := h.step (hnodes 0 n rfl) hfirst
    have hnodes₁ : ∀ i m, nodes[i]? = some m → o.table.get? ⟨mapping₁.length + i⟩ = some m := by
      intro i m hm
      rw [hlength, Nat.add_assoc, Nat.add_comm 1 i]
      exact hnodes (i + 1) m hm
    obtain ⟨h₂, hlength₂⟩ := ih h₁ hnodes₁ hrest
    refine ⟨h₂, ?_⟩
    rw [hlength₂, hlength, List.length_cons]
    omega

/-- A path of the tree leads to the counterpart of where it led. -/
theorem leads (h : o.Copied under t mapping t') (ho : o.Linked)
    (hlength : mapping.length = o.table.size) {a a' b : NamespaceId} {path : List String}
    (ha : mapping[a.index]? = some a') (hb : o.Leads a path b) :
    ∃ b', mapping[b.index]? = some b' ∧ t'.Leads a' path b' := by
  induction path generalizing a a' with
  | nil =>
    obtain rfl := leads_nil.1 hb
    exact ⟨a', ha, leads_nil.2 rfl⟩
  | cons name path ih =>
    obtain ⟨m, hm, hrest⟩ := leads_cons.1 hb
    obtain ⟨hholds, hparent, hname⟩ := ho.up a name m hm
    obtain ⟨n, hn⟩ := hholds.exists_get?
    have hlt : m.index < mapping.length := by
      rw [hlength]
      exact hholds
    have hpos : 0 < m.index := Nat.lt_of_le_of_lt (Nat.zero_le _) (ho.index_lt hm)
    rw [parent?, hn, Option.bind_some] at hparent
    obtain ⟨q, hq, hchild⟩ := h.child m.index n a mapping[m.index] hpos
      (List.getElem?_eq_getElem hlt) hn hparent
    obtain rfl := Option.some.inj (ha.symm.trans hq)
    obtain ⟨b', hb', hleads⟩ := ih (List.getElem?_eq_getElem hlt) hrest
    refine ⟨b', hb', leads_cons.2 ⟨_, ?_, hleads⟩⟩
    rw [← hname, nameOf, hn]
    exact hchild

end Copied

theorem copied_of_copyTree {o : NamespaceTree} {under : NamespaceId} {mapping : List NamespaceId}
    (ho : 0 < o.table.size) (h : t.copyTree o under = .ok (mapping, t')) :
    o.Copied under t mapping t' ∧ mapping.length = o.table.size := by
  have hnodes : ∀ i n, (o.table.entries.toList.drop 1)[i]? = some n →
      o.table.get? ⟨[under].length + i⟩ = some n := by
    intro i n hn
    rw [List.getElem?_drop] at hn
    simpa [Arena.get?] using hn
  obtain ⟨hcopied, hlength⟩ := (Copied.start o under t).foldlM hnodes h
  refine ⟨hcopied, ?_⟩
  rw [hlength, List.length_singleton, List.length_drop, Array.length_toList]
  change 1 + (o.table.size - 1) = o.table.size
  omega

/-- The tree `o` was copied below `path`; `mapping` has the counterparts of its namespaces. -/
structure Grafted (t o : NamespaceTree) (path : List String) (mapping : List NamespaceId)
    (t' : NamespaceTree) : Prop where
  widens : t.Widens t'
  length : mapping.length = o.table.size
  placed : ∀ q b, o.Leads .root q b →
    ∃ b', mapping[b.index]? = some b' ∧ t'.Leads .root (path ++ q) b'
  only : t'.table.size ≤ idLimit → ∀ x, t'.table.Holds x →
    t.table.Holds x ∨ (∃ before, before <+: path ∧ t'.Leads .root before x) ∨ x ∈ mapping
  explicit : ∀ x, t'.Explicit x ↔ t.Explicit x ∨
    x ≠ NamespaceId.root ∧ ∃ k, 0 < k ∧ mapping[k]? = some x ∧ o.Explicit ⟨k⟩

namespace Grafted

variable {o : NamespaceTree} {mapping : List NamespaceId}

theorem of_ok {top : NamespaceId} (ho : o.Linked)
    (hopen : t.openAt .root path false = .ok (top, t'))
    (hcopy : t'.copyTree o top = .ok (mapping, t'')) : t.Grafted o path mapping t'' := by
  obtain ⟨hopens, hexplicit⟩ := opens_of_openAt hopen
  obtain ⟨hcopied, hlength⟩ :=
    copied_of_copyTree (Nat.lt_of_le_of_lt (Nat.zero_le _) ho.root) hcopy
  have hexplicit' : ∀ x, t'.Explicit x ↔ t.Explicit x := fun x => by simp [hexplicit x]
  refine ⟨hopens.widens.trans hcopied.widens, hlength, ?_, ?_, ?_⟩
  · intro q b hb
    obtain ⟨b', hb', hleads⟩ := hcopied.leads ho hlength (a := .root) hcopied.head hb
    exact ⟨b', hb', leads_append.2 ⟨top, hcopied.widens.leads hopens.leads, hleads⟩⟩
  · intro hfits x hx
    rcases hcopied.only hfits x hx with hx | hx
    · rcases hopens.only (Nat.le_trans hcopied.widens.size hfits) x hx with hx | ⟨r, hr, hx⟩
      · exact .inl hx
      · exact .inr (.inl ⟨r, hr, hcopied.widens.leads hx⟩)
    · exact .inr (.inr hx)
  · intro x
    rw [hcopied.explicit x, hexplicit' x]

/-- Different namespaces have different counterparts. -/
theorem injective (h : t.Grafted o path mapping t') (ho : o.Linked) (ht' : t'.Linked)
    {i j : Nat} {x : NamespaceId} (hi : mapping[i]? = some x) (hj : mapping[j]? = some x) :
    i = j := by
  have hpath {k : Nat} (hk : mapping[k]? = some x) :
      ∃ q, o.Leads .root q ⟨k⟩ ∧ t'.Leads .root (path ++ q) x := by
    have hholds : o.table.Holds ⟨k⟩ := by
      rw [Arena.Holds, ← h.length]
      exact (List.getElem?_eq_some_iff.1 hk).1
    obtain ⟨q, hq⟩ := ho.exists_leads hholds
    obtain ⟨x', hx', hleads⟩ := h.placed q _ hq
    obtain rfl := Option.some.inj (hk.symm.trans hx')
    exact ⟨q, hq, hleads⟩
  obtain ⟨q, hq, hx⟩ := hpath hi
  obtain ⟨q', hq', hx'⟩ := hpath hj
  obtain rfl := List.append_cancel_left (ht'.leads_unique hx hx')
  exact congrArg Id.index (hq.unique hq')

end Grafted

/-- At first there is the root, and nothing in it. -/
theorem initial_all : initial.table.All fun id n => id = NamespaceId.root ∧ n = .fresh "" none :=
  Arena.All.singleton ⟨rfl, rfl⟩

theorem initial_linked : initial.Linked := by
  have hchild (a : NamespaceId) (name : String) : initial.child? a name = none := by
    rw [child?, Option.bind_eq_none_iff]
    intro n hn
    rw [(initial_all a n hn).2]
    rfl
  have hparent (b : NamespaceId) : initial.parent? b = none := by
    rw [parent?, Option.bind_eq_none_iff]
    intro n hn
    rw [(initial_all b n hn).2]
    rfl
  refine ⟨Nat.zero_lt_one, fun b hb => ⟨fun _ => ?_, fun _ => hparent b⟩, ?_, ?_, ?_⟩
  · obtain ⟨n, hn⟩ := hb.exists_get?
    exact (initial_all b n hn).1
  · intro b p hp
    rw [hparent] at hp
    cases hp
  · intro a name b hb
    rw [hchild] at hb
    cases hb
  · intro b p hp
    rw [hparent] at hp
    cases hp

end NamespaceTree

theorem Compilation.Reachable.linked {c : Compilation} (h : c.Reachable) (hfits : c.Fits) :
    c.namespaces.Linked :=
  h.of_updates (fun _ => NamespaceTree.initial_linked) (fun _ _ hupdates => hupdates.linked) hfits

end Stencil
