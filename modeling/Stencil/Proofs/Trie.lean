import Stencil.Proofs.Opening

/-! # The namespaces form a trie

Parents, names and children are recorded apart from each other, and all of them are written while the
table grows. Whatever is done to a tree, each namespace stays where its path leads, and no other
namespace has that path.
-/
namespace Stencil
namespace NamespaceTree

variable {t t' t'' : NamespaceTree} {a b : NamespaceId} {name : String} {path : List String}

/-! ## What a change leaves as it was -/

/-- Every child on record is in the table. -/
def Inward (t : NamespaceTree) : Prop :=
  ∀ a name b, t.child? a name = some b → t.table.Holds b

theorem Linked.inward (h : t.Linked) : t.Inward := fun a name b hb => (h.up a name b hb).1

/-- Every namespace is still in its place and has lost nothing, and a tree is still a tree as long as
the ids suffice. -/
structure Continues (t t' : NamespaceTree) : Prop where
  grows : ∀ id n, t.table.get? id = some n → ∃ n', t'.table.get? id = some n' ∧ n.Grows n'
  inward : t.Inward → t'.Inward
  linked : t'.table.size ≤ idLimit → t.Linked → t'.Linked

namespace Continues

theorem refl (t : NamespaceTree) : t.Continues t :=
  ⟨fun _ n hn => ⟨n, hn, .refl n⟩, id, fun _ => id⟩

theorem holds (h : t.Continues t') (ha : t.table.Holds a) : t'.table.Holds a := by
  obtain ⟨n, hn⟩ := ha.exists_get?
  obtain ⟨n', hn', -⟩ := h.grows a n hn
  exact Arena.holds_of_get? hn'

theorem size_le (h : t.Continues t') : t.table.size ≤ t'.table.size :=
  Arena.size_le_of_holds fun _ => h.holds

theorem trans (h : t.Continues t') (h' : t'.Continues t'') : t.Continues t'' where
  grows id n hn := by
    obtain ⟨n', hn', hgrows⟩ := h.grows id n hn
    obtain ⟨n'', hn'', hgrows'⟩ := h'.grows id n' hn'
    exact ⟨n'', hn'', hgrows.trans hgrows'⟩
  inward := h'.inward ∘ h.inward
  linked hfits := h'.linked hfits ∘ h.linked (Nat.le_trans h'.size_le hfits)

theorem child? (h : t.Continues t') (hb : t.child? a name = some b) :
    t'.child? a name = some b := by
  obtain ⟨n, hn, hb⟩ := Option.bind_eq_some_iff.1 hb
  obtain ⟨n', hn', hgrows⟩ := h.grows a n hn
  rw [NamespaceTree.child?, hn']
  exact hgrows.children name b hb

theorem leads (h : t.Continues t') (hb : t.Leads a path b) : t'.Leads a path b :=
  hb.mono fun _ _ _ => h.child?

theorem explicit (h : t.Continues t') (ha : t.Explicit a) : t'.Explicit a := by
  obtain ⟨n, hn, hexplicit⟩ := ha
  obtain ⟨n', hn', hgrows⟩ := h.grows a n hn
  exact ⟨n', hn', hgrows.explicit hexplicit⟩

theorem path_eq (h : t.Continues t') (ht : t.Linked) (hfits : t'.table.size ≤ idLimit)
    (ha : t.table.Holds a) : t'.path a = t.path a := by
  obtain ⟨path, hpath⟩ := ht.exists_leads ha
  rw [ht.path_eq hpath, (h.linked hfits ht).path_eq (h.leads hpath)]

/-- One namespace has grown, but not by a child. -/
theorem modify {f : Namespace → Namespace} (hchildren : ∀ n, (f n).children = n.children)
    (hparent : ∀ n, (f n).parent = n.parent) (hname : ∀ n, (f n).name = n.name)
    (hf : ∀ n, t.table.get? a = some n → n.Grows (f n)) : t.Continues (t.modify a f) where
  grows id n hn := by
    simp only [NamespaceTree.modify, Arena.get?_modify]
    split
    · rename_i hid
      subst hid
      exact ⟨f n, by rw [hn]; rfl, hf n hn⟩
    · exact ⟨n, hn, .refl n⟩
  inward h x s b hb := by
    rw [NamespaceTree.child?, bind_modify (fun n => by rw [hchildren])] at hb
    exact Arena.holds_modify.2 (h x s b hb)
  linked _ h := h.modify hchildren hparent hname a

theorem addChild {n : Namespace} (hn : t.table.get? a = some n)
    (hnew : n.children.get? name = none) : t.Continues (t.addChild a name) where
  grows id m hm := by
    rw [get?_addChild hn]
    split
    · rename_i hid
      subst hid
      obtain rfl := Option.some.inj (hn.symm.trans hm)
      exact ⟨_, rfl, { Namespace.Grows.refl n with children := OrderedMap.sub_insert _ hnew }⟩
    · rw [if_neg (Nat.ne_of_lt (Arena.lt_size_of_get? hm))]
      exact ⟨m, hm, .refl m⟩
  inward h x s b hb := by
    rw [child?_addChild hn] at hb
    rw [Arena.Holds, size_addChild]
    split at hb
    · exact Option.some.inj hb ▸ Nat.lt_succ_of_le t.table.nextId_index_le
    · exact Nat.lt_succ_of_lt (h x s b hb)
  linked hfits h := h.addChild hn hnew hfits

end Continues

theorem continues_openPath (h : t.openPath a path = .ok (b, t')) : t.Continues t' := by
  induction path generalizing t a with
  | nil =>
    cases h
    exact .refl _
  | cons name path ih =>
    obtain ⟨⟨m, t₁⟩, hchild, hrest⟩ := Except.bind_eq_ok h
    obtain ⟨n, hn, ⟨-, rfl⟩ | ⟨hnew, -, rfl⟩⟩ := openChild_eq_ok hchild
    · exact ih hrest
    · exact (Continues.addChild hn hnew).trans (ih hrest)

theorem continues_openAt {explicit : Bool} (h : t.openAt a path explicit = .ok (b, t')) :
    t.Continues t' := by
  obtain ⟨t₁, hpath, ⟨-, rfl⟩ | ⟨-, -, -, rfl⟩⟩ := openAt_eq_ok h
  · exact continues_openPath hpath
  · refine (continues_openPath hpath).trans
      (.modify (fun _ => rfl) (fun _ => rfl) (fun _ => rfl) fun n _ => ?_)
    exact { Namespace.Grows.refl n with explicit := fun _ => rfl }

theorem continues_foldlM_copyNode {under : NamespaceId} {nodes : List Namespace}
    {mapping mapping' : List NamespaceId}
    (h : nodes.foldlM (fun (mapping, t) n => copyNode under mapping t n) (mapping, t) =
      .ok (mapping', t')) : t.Continues t' := by
  induction nodes generalizing t mapping with
  | nil =>
    cases h
    exact .refl _
  | cons n nodes ih =>
    rw [List.foldlM_cons] at h
    obtain ⟨⟨mapping₁, t₁⟩, hfirst, hrest⟩ := Except.bind_eq_ok h
    obtain ⟨q, b, -, hopen, -⟩ := copyNode_eq_ok hfirst
    exact (continues_openAt hopen).trans (ih hrest)

theorem addDefinition_eq_ok {identity : Identity} {d : DefId}
    (h : t.addDefinition a identity d = .ok t') :
    ∃ n, t.table.get? a = some n ∧ n.definitions.get? identity = none ∧
      t' = t.insertDefinition a identity d := by
  cases hn : t.table.get? a with
  | none =>
    unfold addDefinition find Arena.find at h
    rw [hn] at h
    cases h
  | some n =>
    cases hd : n.definitions.get? identity with
    | some kept =>
      rw [addDefinition_of_some hn hd] at h
      cases h
    | none =>
      rw [addDefinition_of_none hn hd] at h
      exact ⟨n, rfl, hd, (Except.ok.inj h).symm⟩

theorem addAlias_eq_ok {m : Meaning} (h : t.addAlias a name m = .ok t') :
    ∃ n, t.table.get? a = some n ∧ n.aliases.get? name = none ∧ t' = t.insertAlias a name m := by
  cases hn : t.table.get? a with
  | none =>
    unfold addAlias find Arena.find at h
    rw [hn] at h
    cases h
  | some n =>
    cases hm : n.aliases.get? name with
    | some kept =>
      rw [addAlias_of_some hn hm] at h
      cases h
    | none =>
      rw [addAlias_of_none hn hm] at h
      exact ⟨n, rfl, hm, (Except.ok.inj h).symm⟩

theorem continues_addDefinition {identity : Identity} {d : DefId}
    (h : t.addDefinition a identity d = .ok t') : t.Continues t' := by
  obtain ⟨n, hn, hnew, rfl⟩ := addDefinition_eq_ok h
  refine .modify (fun _ => rfl) (fun _ => rfl) (fun _ => rfl) fun n' hn' => ?_
  obtain rfl := Option.some.inj (hn.symm.trans hn')
  exact { Namespace.Grows.refl n with definitions := OrderedMap.sub_insert _ hnew }

theorem continues_addAlias {m : Meaning} (h : t.addAlias a name m = .ok t') : t.Continues t' := by
  obtain ⟨n, hn, hnew, rfl⟩ := addAlias_eq_ok h
  refine .modify (fun _ => rfl) (fun _ => rfl) (fun _ => rfl) fun n' hn' => ?_
  obtain rfl := Option.some.inj (hn.symm.trans hn')
  exact { Namespace.Grows.refl n with aliases := OrderedMap.sub_insert _ hnew }

/-! ## Whatever is done to a tree -/

/-- A path is opened, a tree is copied, a definition or an alias is registered. -/
inductive Change (t : NamespaceTree) : NamespaceTree → Prop
  | opened {a b : NamespaceId} {path : List String} {explicit : Bool} {t' : NamespaceTree}
    (h : t.openAt a path explicit = .ok (b, t')) : Change t t'
  | copied {o t' : NamespaceTree} {under : NamespaceId} {mapping : List NamespaceId}
    (h : t.copyTree o under = .ok (mapping, t')) : Change t t'
  | defined {a : NamespaceId} {identity : Identity} {d : DefId} {t' : NamespaceTree}
    (h : t.addDefinition a identity d = .ok t') : Change t t'
  | aliased {a : NamespaceId} {name : String} {m : Meaning} {t' : NamespaceTree}
    (h : t.addAlias a name m = .ok t') : Change t t'

/-- The tree has come from the first one by changes. -/
inductive Built : NamespaceTree → Prop
  | initial : Built initial
  | change {t t' : NamespaceTree} (h : Built t) (hlast : t.Change t') : Built t'

theorem Change.continues (h : t.Change t') : t.Continues t' := by
  cases h with
  | opened h => exact continues_openAt h
  | copied h => exact continues_foldlM_copyNode h
  | defined h => exact continues_addDefinition h
  | aliased h => exact continues_addAlias h

theorem Built.linked (h : t.Built) (hfits : t.table.size ≤ idLimit) : t.Linked := by
  induction h with
  | initial => exact initial_linked
  | change _ hlast ih =>
    have hcontinues := hlast.continues
    exact hcontinues.linked hfits (ih (Nat.le_trans hcontinues.size_le hfits))

/-! ## Paths are opened and followed -/

theorem exists_openPath (ht : t.Inward) (ha : t.table.Holds a) (path : List String) :
    ∃ b t', t.openPath a path = .ok (b, t') ∧ t'.table.Holds b := by
  induction path generalizing t a with
  | nil => exact ⟨a, t, rfl, ha⟩
  | cons name path ih =>
    obtain ⟨n, hn⟩ := ha.exists_get?
    have hchild : t.child a name = .ok (n.children.get? name) := by
      rw [child, find, Arena.find_of_get? hn]
      rfl
    cases hc : n.children.get? name with
    | some c =>
      have hopen : t.openChild a name = .ok (c, t) := by
        rw [openChild, hchild, hc]
        rfl
      have hholds : t.table.Holds c := ht a name c (by rw [child?, hn]; exact hc)
      rw [openPath, hopen]
      exact ih ht hholds
    | none =>
      have hopen : t.openChild a name = .ok (t.table.nextId, t.addChild a name) := by
        rw [openChild, hchild, hc]
        rfl
      have hholds : (t.addChild a name).table.Holds t.table.nextId := by
        rw [Arena.Holds, size_addChild]
        exact Nat.lt_succ_of_le t.table.nextId_index_le
      rw [openPath, hopen]
      exact ih ((Continues.addChild hn hc).inward ht) hholds

theorem exists_openAt (ht : t.Inward) (ha : t.table.Holds a) (path : List String)
    (explicit : Bool) : ∃ b t', t.openAt a path explicit = .ok (b, t') := by
  obtain ⟨b, t', hopen, hb⟩ := exists_openPath ht ha path
  rw [openAt, hopen]
  cases explicit with
  | false => exact ⟨b, t', rfl⟩
  | true =>
    by_cases hroot : b = .root
    · exact ⟨b, t', by simp [markExplicit, hroot, bind, Except.bind, pure, Except.pure]⟩
    · obtain ⟨n, hn⟩ := hb.exists_get?
      refine ⟨b, t'.setExplicit b, ?_⟩
      simp [markExplicit, hroot, find, Arena.find_of_get? hn, bind, Except.bind, pure,
        Except.pure, setExplicit]

theorem exists_follow (ht : t.Inward) (ha : t.table.Holds a) (path : List String) :
    ∃ r, t.follow a path = .ok r := by
  induction path generalizing a with
  | nil => exact ⟨some a, rfl⟩
  | cons name path ih =>
    obtain ⟨n, hn⟩ := ha.exists_get?
    rw [follow, child, find, Arena.find_of_get? hn]
    cases hc : n.children.get? name with
    | none => exact ⟨none, by simp [bind, Except.bind, pure, Except.pure, hc]⟩
    | some c =>
      obtain ⟨r, hr⟩ := ih (ht a name c (by rw [child?, hn]; exact hc))
      exact ⟨r, by simpa [bind, Except.bind, pure, Except.pure, hc] using hr⟩

namespace Linked

theorem leads_path (h : t.Linked) (ha : t.table.Holds a) : t.Leads .root (t.path a) a := by
  obtain ⟨path, hpath⟩ := h.exists_leads ha
  rw [h.path_eq hpath]
  exact hpath

/-- A path leads where the path from the root is longer by it. -/
theorem leads_iff (h : t.Linked) (ha : t.table.Holds a) :
    t.Leads a path b ↔ t.table.Holds b ∧ t.path b = t.path a ++ path := by
  have hroot := h.leads_path ha
  constructor
  · intro hb
    have hboth : t.Leads .root (t.path a ++ path) b := leads_append.2 ⟨a, hroot, hb⟩
    exact ⟨h.holds hboth, h.path_eq hboth⟩
  · rintro ⟨hb, hpath⟩
    obtain ⟨m, hm, hrest⟩ := leads_append.1 (hpath ▸ h.leads_path hb)
    obtain rfl := hm.unique hroot
    exact hrest

theorem child?_eq_some_iff (h : t.Linked) :
    t.child? a name = some b ↔ t.parent? b = some a ∧ t.nameOf b = name := by
  constructor
  · exact fun hb => (h.up a name b hb).2
  · rintro ⟨hparent, rfl⟩
    exact h.down b a hparent

/-- From parent to parent, the way outwards ends at the root. -/
theorem outward_chain (h : t.Linked) (ha : t.table.Holds a) :
    (t.outward a).head? = some a ∧ (t.outward a).IsChain (fun x y => t.parent? x = some y) ∧
      (t.outward a).getLast? = some .root := by
  have hpath := h.leads_path ha
  generalize t.path a = path at hpath
  induction path using List.reverseRecOn generalizing a with
  | nil =>
    obtain rfl := leads_nil.1 hpath
    simp [h.outward_root]
  | append_singleton path name ih =>
    obtain ⟨m, hm, hchild⟩ := leads_concat.1 hpath
    obtain ⟨-, hparent, -⟩ := h.up m name a hchild
    obtain ⟨hhead, hchain, hlast⟩ := ih (h.holds hm) hm
    obtain ⟨rest, hrest⟩ := List.head?_eq_some_iff.1 hhead
    rw [hrest] at hchain hlast
    rw [h.outward_child hchild, hrest]
    exact ⟨rfl, hchain.cons_cons hparent, hlast⟩

end Linked

/-! ## The trie -/

/-- Each namespace other than the root is on record with its parent, which is older, and is told from
the others by its path. -/
structure IsTrie (t : NamespaceTree) : Prop where
  root : t.table.Holds NamespaceId.root
  orphan : ∀ b, t.table.Holds b → (t.parent? b = none ↔ b = NamespaceId.root)
  older : ∀ b p, t.parent? b = some p → p.index < b.index
  listed : ∀ p name b, t.child? p name = some b ↔ t.parent? b = some p ∧ t.nameOf b = name
  outward : ∀ b, t.table.Holds b → (t.outward b).head? = some b ∧
    (t.outward b).IsChain (fun x y => t.parent? x = some y) ∧
    (t.outward b).getLast? = some .root
  found : ∀ b, t.table.Holds b → t.follow .root (t.path b) = .ok (some b)
  followed : ∀ a path, t.table.Holds a → ∃ r, t.follow a path = .ok r ∧
    ∀ b, r = some b ↔ t.table.Holds b ∧ t.path b = t.path a ++ path
  /-- What is opened is the only namespace of its path, and the one that was there if there was one. -/
  opened : ∀ a path explicit, t.table.Holds a →
    ∃ b t', t.openAt a path explicit = .ok (b, t') ∧ (t'.table.size ≤ idLimit →
      (∀ x, t'.table.Holds x ∧ t'.path x = t.path a ++ path ↔ x = b) ∧
      ∀ x, t.table.Holds x → t.path x = t.path a ++ path → x = b)
  kept : ∀ t', t.Change t' → t'.table.size ≤ idLimit → ∀ b, t.table.Holds b →
    t'.table.Holds b ∧ t'.path b = t.path b ∧ (t.Explicit b → t'.Explicit b)

theorem Linked.isTrie (h : t.Linked) : t.IsTrie where
  root := h.root
  orphan := h.orphan
  older := h.older
  listed _ _ _ := h.child?_eq_some_iff
  outward _ := h.outward_chain
  found _ := h.leads_path
  followed a path ha := by
    obtain ⟨r, hr⟩ := exists_follow h.inward ha path
    refine ⟨r, hr, fun b => ?_⟩
    rw [← h.leads_iff ha, Leads, hr, Except.ok.injEq]
  opened a path explicit ha := by
    obtain ⟨b, t', hopen⟩ := exists_openAt h.inward ha path explicit
    refine ⟨b, t', hopen, fun hfits => ?_⟩
    have hcontinues := continues_openAt hopen
    have hlinked := hcontinues.linked hfits h
    have honly (x : NamespaceId) :
        t'.table.Holds x ∧ t'.path x = t.path a ++ path ↔ x = b := by
      have hleads : t'.Leads a path b := (opens_of_openAt hopen).1.leads
      rw [← hcontinues.path_eq h hfits ha, ← hlinked.leads_iff (hcontinues.holds ha)]
      exact ⟨fun hx => hx.unique hleads, fun hx => hx ▸ hleads⟩
    refine ⟨honly, fun x hx hpath => (honly x).1 ⟨hcontinues.holds hx, ?_⟩⟩
    rw [hcontinues.path_eq h hfits hx, hpath]
  kept t' hchange hfits b hb := by
    have hcontinues := hchange.continues
    exact ⟨hcontinues.holds hb, hcontinues.path_eq h hfits hb, hcontinues.explicit⟩

/-- However a tree was made, it is a trie as long as the ids suffice. -/
theorem Built.trie (h : t.Built) (hfits : t.table.size ≤ idLimit) : t.IsTrie :=
  (h.linked hfits).isTrie

/-- The tree after a path was opened by a block. -/
def afterOpening (t : NamespaceTree) (path : List String) : NamespaceTree :=
  match t.openAt .root path true with
  | .ok (_, t') => t'
  | .error _ => t

theorem built_afterOpening (h : t.Built) (path : List String) : (t.afterOpening path).Built := by
  unfold afterOpening
  split
  · rename_i hopen
    exact h.change (.opened hopen)
  · exact h

/-- A garden below the house, and a house with a garden of its own copied into the garden. -/
def trellis : NamespaceTree :=
  match (initial.afterOpening ["house", "garden"]).copyTree
      (initial.afterOpening ["house", "garden"]) ⟨2⟩ with
  | .ok (_, t) => t
  | .error _ => initial

theorem trie_trellis : trellis.Built ∧ trellis.table.size = 5 ∧ trellis.IsTrie := by
  have hbuilt : trellis.Built := by
    unfold trellis
    split
    · rename_i hcopy
      exact (built_afterOpening .initial _).change (.copied hcopy)
    · exact .initial
  have hsize : trellis.table.size = 5 := by decide +kernel
  exact ⟨hbuilt, hsize, hbuilt.trie (by rw [hsize]; decide)⟩

end NamespaceTree
end Stencil
