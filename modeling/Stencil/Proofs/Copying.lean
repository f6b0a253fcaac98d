import Stencil.Proofs.Trie

/-! # A copied tree keeps its shape

The namespaces of a tree are opened one by one below a namespace of another, some of them where a
namespace of that path is already. Still no two come to lie on one another, each lies at its old path
below the new place, and of what was there nothing but children and marks has changed.
-/
namespace Stencil

theorem Arena.modify_eq_self {t : Table} {α : Type} {a : Arena t α} {id : Id t} {f : α → α}
    (h : ∀ x, a.get? id = some x → f x = x) : a.modify id f = a := by
  obtain ⟨entries⟩ := a
  refine congrArg mk (Array.ext_getElem? fun i => ?_)
  rw [Array.getElem?_modify]
  split
  · rename_i hi
    subst hi
    cases hx : entries[id.index]? with
    | none => rfl
    | some x => exact congrArg some (h x hx)
  · rfl

namespace NamespaceTree

variable {t t' t'' o : NamespaceTree} {a b under : NamespaceId} {name : String} {path : List String}
  {mapping mapping' : List NamespaceId} {nodes : List Namespace}

/-! ## What was there and what is new -/

/-- The new namespaces are empty, and those that were there differ in children and marks only. -/
structure Branches (t t' : NamespaceTree) : Prop where
  kept : ∀ x n, t.table.get? x = some n → ∃ children explicit,
    t'.table.get? x = some { n with children := children, explicit := explicit }
  bare : ∀ x n, t'.table.get? x = some n →
    t.table.Holds x ∨ n.definitions = .empty ∧ n.aliases = .empty

namespace Branches

theorem refl (t : NamespaceTree) : t.Branches t :=
  ⟨fun _ n hn => ⟨n.children, n.explicit, hn⟩, fun _ _ hn => .inl (Arena.holds_of_get? hn)⟩

theorem trans (h : t.Branches t') (h' : t'.Branches t'') : t.Branches t'' where
  kept x n hn := by
    obtain ⟨_, _, hn'⟩ := h.kept x n hn
    obtain ⟨children, explicit, hn''⟩ := h'.kept x _ hn'
    exact ⟨children, explicit, hn''⟩
  bare x n hn := by
    rcases h'.bare x n hn with hx | hempty
    · obtain ⟨n', hn'⟩ := hx.exists_get?
      obtain ⟨_, _, hsame⟩ := h'.kept x n' hn'
      obtain rfl := Option.some.inj (hn.symm.trans hsame)
      exact h.bare x n' hn'
    · exact .inr hempty

theorem addChild {n : Namespace} (hn : t.table.get? a = some n) (name : String) :
    t.Branches (t.addChild a name) where
  kept x m hm := by
    rw [get?_addChild hn, if_neg (Nat.ne_of_lt (Arena.lt_size_of_get? hm))]
    split
    · rename_i hx
      subst hx
      obtain rfl := Option.some.inj (hn.symm.trans hm)
      exact ⟨_, n.explicit, rfl⟩
    · exact ⟨m.children, m.explicit, hm⟩
  bare x m hm := by
    rw [get?_addChild hn] at hm
    split at hm
    · rename_i hx
      exact .inl (hx ▸ Arena.holds_of_get? hn)
    · split at hm
      · obtain rfl := Option.some.inj hm
        exact .inr ⟨rfl, rfl⟩
      · exact .inl (Arena.holds_of_get? hm)

theorem setExplicit (t : NamespaceTree) (a : NamespaceId) : t.Branches (t.setExplicit a) where
  kept x n hn := by
    rw [NamespaceTree.setExplicit, modify, Arena.get?_modify, hn]
    split
    · exact ⟨n.children, true, rfl⟩
    · exact ⟨n.children, n.explicit, rfl⟩
  bare x n hn := .inl (Arena.holds_modify.1 (Arena.holds_of_get? hn))

end Branches

theorem branches_openPath (h : t.openPath a path = .ok (b, t')) :
    t.Branches t' ∧ t'.table.size ≤ t.table.size + path.length := by
  induction path generalizing t a with
  | nil =>
    cases h
    exact ⟨.refl _, Nat.le_refl _⟩
  | cons name path ih =>
    obtain ⟨⟨m, t₁⟩, hchild, hrest⟩ := Except.bind_eq_ok h
    obtain ⟨hbranches, hsize⟩ := ih hrest
    rw [List.length_cons]
    obtain ⟨n, hn, ⟨-, rfl⟩ | ⟨-, -, rfl⟩⟩ := openChild_eq_ok hchild
    · exact ⟨hbranches, by omega⟩
    · rw [size_addChild] at hsize
      exact ⟨(Branches.addChild hn name).trans hbranches, by omega⟩

theorem branches_openAt {explicit : Bool} (h : t.openAt a path explicit = .ok (b, t')) :
    t.Branches t' ∧ t'.table.size ≤ t.table.size + path.length := by
  obtain ⟨t₁, hpath, ⟨-, rfl⟩ | ⟨-, -, -, rfl⟩⟩ := openAt_eq_ok h
  · exact branches_openPath hpath
  · obtain ⟨hbranches, hsize⟩ := branches_openPath hpath
    refine ⟨hbranches.trans (.setExplicit t₁ b), ?_⟩
    rw [setExplicit, modify, Arena.size_modify]
    exact hsize

/-! ## Copying comes to an end -/

/-- The counterpart of a parent is known if the parent is older than what is copied now. -/
theorem exists_placeIn {n : Namespace} (hunder : t.table.Holds under)
    (hmapping : ∀ q ∈ mapping, t.table.Holds q)
    (holder : ∀ p, n.parent = some p → p.index < mapping.length) :
    ∃ q, n.placeIn under mapping = some q ∧ t.table.Holds q := by
  unfold Namespace.placeIn
  cases hp : n.parent with
  | none => exact ⟨under, rfl, hunder⟩
  | some p =>
    have hlt := holder p hp
    exact ⟨_, List.getElem?_eq_getElem hlt, hmapping _ (List.getElem_mem hlt)⟩

theorem exists_foldlM_copyNode (mapping : List NamespaceId) (nodes : List Namespace)
    (ht : t.Inward) (hunder : t.table.Holds under)
    (hmapping : ∀ q ∈ mapping, t.table.Holds q)
    (holder : ∀ i n, nodes[i]? = some n → ∀ p, n.parent = some p → p.index < mapping.length + i) :
    ∃ mapping' t', nodes.foldlM (fun (mapping, t) n => copyNode under mapping t n) (mapping, t) =
        .ok (mapping', t') ∧
      t.Branches t' ∧ (∀ q ∈ mapping', t'.table.Holds q) ∧
      t'.table.size ≤ t.table.size + nodes.length := by
  induction nodes generalizing t mapping with
  | nil => exact ⟨mapping, t, rfl, .refl t, hmapping, Nat.le_refl _⟩
  | cons n nodes ih =>
    obtain ⟨q, hplace, hq⟩ := exists_placeIn hunder hmapping (holder 0 n rfl)
    obtain ⟨b, t₁, hopen⟩ := exists_openAt ht hq [n.name] n.explicit
    have hcontinues := continues_openAt hopen
    obtain ⟨hbranches, hsize⟩ := branches_openAt hopen
    have hb : t₁.table.Holds b := by
      obtain ⟨m, hm, hnil⟩ := leads_cons.1 (opens_of_openAt hopen).1.leads
      exact leads_nil.1 hnil ▸ hcontinues.inward ht q n.name m hm
    have hmapping₁ : ∀ q ∈ mapping ++ [b], t₁.table.Holds q := by
      intro q hq
      rcases List.mem_append.1 hq with hq | hq
      · exact hcontinues.holds (hmapping q hq)
      · exact List.mem_singleton.1 hq ▸ hb
    have holder₁ : ∀ i m, nodes[i]? = some m → ∀ p, m.parent = some p →
        p.index < (mapping ++ [b]).length + i := by
      intro i m hm p hp
      have := holder (i + 1) m hm p hp
      simp only [List.length_append, List.length_singleton]
      omega
    obtain ⟨mapping', t', hrest, hbranches', hholds, hsize'⟩ :=
      ih (mapping ++ [b]) (hcontinues.inward ht) (hcontinues.holds hunder) hmapping₁ holder₁
    refine ⟨mapping', t', ?_, hbranches.trans hbranches', hholds, ?_⟩
    · rw [List.foldlM_cons]
      change copyNode under mapping t n >>= _ = _
      rw [copyNode_eq hplace, hopen]
      exact hrest
    · simp only [List.length_cons, List.length_nil] at hsize ⊢
      omega

theorem getElem?_drop_entries {i : Nat} {n : Namespace}
    (h : (o.table.entries.toList.drop 1)[i]? = some n) : o.table.get? ⟨1 + i⟩ = some n := by
  rw [List.getElem?_drop] at h
  simpa [Arena.get?] using h

theorem exists_copyTree (ht : t.Inward) (hunder : t.table.Holds under) (ho : o.Linked) :
    ∃ mapping t', t.copyTree o under = .ok (mapping, t') ∧ t.Branches t' ∧
      (∀ q ∈ mapping, t'.table.Holds q) ∧ t'.table.size < t.table.size + o.table.size := by
  obtain ⟨mapping, t', hcopy, hbranches, hholds, hsize⟩ :=
    exists_foldlM_copyNode [under] (o.table.entries.toList.drop 1) ht hunder
      (by simpa using hunder) fun i n hn p hp => by
        have hparent : o.parent? ⟨1 + i⟩ = some p := by
          rw [parent?, getElem?_drop_entries hn]
          exact hp
        exact ho.older _ p hparent
  refine ⟨mapping, t', hcopy, hbranches, hholds, ?_⟩
  have hroot : 0 < o.table.size := ho.root
  rw [List.length_drop, Array.length_toList] at hsize
  change t'.table.size ≤ t.table.size + (o.table.size - 1) at hsize
  omega

/-! ## Copying once more -/

theorem setExplicit_of_explicit (h : t.Explicit a) : t.setExplicit a = t := by
  obtain ⟨n, hn, hexplicit⟩ := h
  refine congrArg mk (Arena.modify_eq_self fun m hm => ?_)
  obtain rfl := Option.some.inj (hn.symm.trans hm)
  cases n
  subst hexplicit
  rfl

/-- Opening a namespace that is there, and marked if it should be, changes nothing. -/
theorem openAt_of_child? {explicit : Bool} (hb : t.child? a name = some b)
    (hmarked : explicit = true → t.Explicit b) : t.openAt a [name] explicit = .ok (b, t) := by
  obtain ⟨n, hn, hchild⟩ := Option.bind_eq_some_iff.1 hb
  have hopen : t.openPath a [name] = .ok (b, t) := by
    rw [openPath, openChild, child, find, Arena.find_of_get? hn]
    simp [bind, Except.bind, pure, Except.pure, hchild, openPath]
  rw [openAt, hopen]
  cases explicit with
  | false => rfl
  | true =>
    obtain ⟨m, hm, -⟩ := hmarked rfl
    have hset : t.setExplicit b = t := setExplicit_of_explicit (hmarked rfl)
    by_cases hroot : b = .root
    · simp [markExplicit, hroot, bind, Except.bind, pure, Except.pure]
    · rw [setExplicit] at hset
      simp [markExplicit, hroot, find, Arena.find_of_get? hm, bind, Except.bind, pure, Except.pure,
        hset]

theorem Linked.exists_parent {n : Namespace} {k : Nat} (h : o.Linked)
    (hn : o.table.get? ⟨k⟩ = some n) (hk : 0 < k) : ∃ p, n.parent = some p := by
  refine Option.ne_none_iff_exists'.1 fun hp => ?_
  have horphan : o.parent? ⟨k⟩ = none := by rw [parent?, hn]; exact hp
  have hroot := (h.orphan _ (Arena.holds_of_get? hn)).1 horphan
  exact absurd (congrArg Id.index hroot) (Nat.ne_of_gt hk)

/-- Where all have counterparts, the rest of them is found again one by one. -/
theorem foldlM_copyNode_of_copied (h : o.Copied under t mapping t') (ht' : t'.Linked) (ho : o.Linked)
    {done rest : List NamespaceId} (hmapping : done ++ rest = mapping) (hpos : 0 < done.length)
    (hlength : nodes.length = rest.length)
    (hnodes : ∀ i n, nodes[i]? = some n → o.table.get? ⟨done.length + i⟩ = some n) :
    nodes.foldlM (fun (mapping, t) n => copyNode under mapping t n) (done, t') =
      .ok (mapping, t') := by
  induction nodes generalizing done rest with
  | nil =>
    obtain rfl := List.length_eq_zero_iff.1 hlength.symm
    rw [← hmapping, List.append_nil]
    rfl
  | cons n nodes ih =>
    obtain ⟨b, rest, rfl⟩ := List.exists_cons_of_length_eq_add_one hlength.symm
    have hn : o.table.get? ⟨done.length⟩ = some n := hnodes 0 n rfl
    have hb : mapping[done.length]? = some b := by
      rw [← hmapping, List.getElem?_append_right (Nat.le_refl _)]
      simp
    obtain ⟨p, hp⟩ := ho.exists_parent hn hpos
    obtain ⟨q, hq, hchild⟩ := h.child _ n p b hpos hb hn hp
    have hplace : n.placeIn under done = some q := by
      have hlt : p.index < done.length :=
        ho.older ⟨done.length⟩ p (by rw [parent?, hn]; exact hp)
      unfold Namespace.placeIn
      simp only [hp]
      rw [← hq, ← hmapping, List.getElem?_append_left hlt]
    have hopen : t'.openAt q [n.name] n.explicit = .ok (b, t') := by
      refine openAt_of_child? hchild fun hmarked => ?_
      exact (h.explicit b).2 (.inr ⟨ht'.ne_root hchild, done.length, hpos, hb, n, hn, hmarked⟩)
    rw [List.foldlM_cons]
    change copyNode under done t' n >>= _ = _
    rw [copyNode_eq hplace, hopen]
    have hmapping' : done ++ [b] ++ rest = mapping := by simpa using hmapping
    apply ih hmapping'
    · simp
    · simpa using hlength
    · intro i m hm
      have hget := hnodes (i + 1) m hm
      rw [List.length_append, List.length_singleton, Nat.add_assoc, Nat.add_comm 1 i]
      exact hget

/-! ## Where the copies lie -/

namespace Linked

theorem outward_contains (h : t.Linked) (ha : t.table.Holds a) (hb : t.table.Holds b) :
    (t.outward a).contains b = decide (t.path b <+: t.path a) := by
  rw [List.contains_eq_mem, decide_eq_decide, h.mem_outward_iff (h.leads_path ha)]
  constructor
  · rintro ⟨before, hbefore, hlead⟩
    rwa [h.path_eq hlead]
  · exact fun hprefix => ⟨t.path b, hprefix, h.leads_path hb⟩

/-- A namespace is inside another exactly if its path begins with that of the other. -/
theorem isInside_eq (h : t.Linked) (ha : t.table.Holds a) (hb : t.table.Holds b) :
    t.isInside a b = .ok (decide (t.path b <+: t.path a)) := by
  obtain ⟨n, hn⟩ := ha.exists_get?
  rw [← h.outward_contains ha hb, isInside, outwardFrom, find, Arena.find_of_get? hn]
  rfl

end Linked

/-- Every namespace of `o` has a counterpart in `t'`, at its path below that of `under`, and `t'` has
nothing else that `t` has not. -/
structure Embeds (t o : NamespaceTree) (under : NamespaceId) (mapping : List NamespaceId)
    (t' : NamespaceTree) : Prop where
  length : mapping.length = o.table.size
  placed : ∀ (i : Nat) x, mapping[i]? = some x → t'.path x = t.path under ++ o.path ⟨i⟩
  distinct : mapping.Nodup
  inside : ∀ (i j : Nat) x y, mapping[i]? = some x → mapping[j]? = some y →
    ∃ within, t'.isInside x y = .ok within ∧ o.isInside ⟨i⟩ ⟨j⟩ = .ok within
  only : ∀ x, t'.table.Holds x ↔ t.table.Holds x ∨ x ∈ mapping
  paths : ∀ x, t.table.Holds x → t'.path x = t.path x
  kept : ∀ x n, t.table.get? x = some n → ∃ n', t'.table.get? x = some n' ∧ n'.name = n.name ∧
    n'.parent = n.parent ∧ n'.definitions = n.definitions ∧ n'.aliases = n.aliases
  bare : ∀ x n, t'.table.get? x = some n → ¬ t.table.Holds x →
    n.definitions = .empty ∧ n.aliases = .empty
  explicit : ∀ x, t'.Explicit x ↔ t.Explicit x ∨
    ∃ i : Nat, i ≠ NamespaceId.root.index ∧ mapping[i]? = some x ∧ o.Explicit ⟨i⟩
  again : t'.copyTree o under = .ok (mapping, t')

namespace Copied

variable {i : Nat} {x : NamespaceId}

theorem holds_of_mapping (hlength : mapping.length = o.table.size) (hx : mapping[i]? = some x) :
    o.table.Holds ⟨i⟩ := by
  rw [Arena.Holds, ← hlength]
  exact (List.getElem?_eq_some_iff.1 hx).1

theorem path_eq (h : o.Copied under t mapping t') (hlength : mapping.length = o.table.size)
    (ho : o.Linked) (ht' : t'.Linked) (hunder : t'.table.Holds under) (hx : mapping[i]? = some x) :
    t'.path x = t'.path under ++ o.path ⟨i⟩ := by
  have hlead : o.Leads .root (o.path ⟨i⟩) ⟨i⟩ := ho.leads_path (holds_of_mapping hlength hx)
  obtain ⟨x', hx', hleads⟩ := h.leads ho hlength (a := .root) h.head hlead
  obtain rfl := Option.some.inj (hx.symm.trans hx')
  exact ((ht'.leads_iff hunder).1 hleads).2

/-- Counterparts at different paths are different. -/
theorem nodup_mapping (hlength : mapping.length = o.table.size) (ho : o.Linked)
    (hpath : ∀ (i : Nat) x, mapping[i]? = some x → t'.path x = t'.path under ++ o.path ⟨i⟩) :
    mapping.Nodup := by
  rw [List.nodup_iff_injective_getElem]
  intro i j hij
  have hi := List.getElem?_eq_getElem i.2
  have hj := List.getElem?_eq_getElem j.2
  have hsame : o.path ⟨i⟩ = o.path ⟨j⟩ :=
    List.append_cancel_left ((hpath i _ hi).symm.trans ((congrArg t'.path hij).trans (hpath j _ hj)))
  have hleads := ho.leads_path (holds_of_mapping hlength hi)
  rw [hsame] at hleads
  exact Fin.ext (congrArg Id.index (hleads.unique (ho.leads_path (holds_of_mapping hlength hj))))

theorem explicit_iff (h : o.Copied under t mapping t') (ht' : t'.Linked) (ho : o.Linked)
    (x : NamespaceId) : t'.Explicit x ↔ t.Explicit x ∨
      ∃ i : Nat, i ≠ NamespaceId.root.index ∧ mapping[i]? = some x ∧ o.Explicit ⟨i⟩ := by
  rw [h.explicit x]
  apply or_congr_right
  constructor
  · rintro ⟨-, i, hi, hx, hmarked⟩
    exact ⟨i, Nat.ne_of_gt hi, hx, hmarked⟩
  · rintro ⟨i, hi, hx, hmarked⟩
    have hpos : 0 < i := Nat.pos_of_ne_zero hi
    obtain ⟨n, hn, -⟩ := id hmarked
    obtain ⟨p, hp⟩ := ho.exists_parent hn hpos
    obtain ⟨q, -, hchild⟩ := h.child i n p x hpos hx hn hp
    exact ⟨ht'.ne_root hchild, i, hpos, hx, hmarked⟩

/-- What was copied once is there already. -/
theorem copyTree_again (h : o.Copied under t mapping t') (hlength : mapping.length = o.table.size)
    (ht' : t'.Linked) (ho : o.Linked) : t'.copyTree o under = .ok (mapping, t') := by
  obtain ⟨head, rest, rfl⟩ : ∃ head rest, mapping = head :: rest :=
    List.exists_cons_of_ne_nil (by rintro rfl; cases h.head)
  obtain rfl : head = under := Option.some.inj h.head
  have hmapping : [head] ++ rest = head :: rest := rfl
  refine foldlM_copyNode_of_copied h ht' ho hmapping Nat.one_pos ?_
    fun i n hn => getElem?_drop_entries hn
  rw [List.length_drop, Array.length_toList]
  rw [List.length_cons] at hlength
  change o.table.size - 1 = rest.length
  omega

theorem embeds (h : o.Copied under t mapping t') (hlength : mapping.length = o.table.size)
    (hbranches : t.Branches t') (hcontinues : t.Continues t')
    (hholds : ∀ q ∈ mapping, t'.table.Holds q) (hunder : t.table.Holds under) (ht : t.Linked)
    (ho : o.Linked) (hfits : t'.table.size ≤ idLimit) : t.Embeds o under mapping t' := by
  have ht' : t'.Linked := hcontinues.linked hfits ht
  have hpaths : ∀ x, t.table.Holds x → t'.path x = t.path x :=
    fun x hx => hcontinues.path_eq ht hfits hx
  have hplaced : ∀ (i : Nat) x, mapping[i]? = some x → t'.path x = t'.path under ++ o.path ⟨i⟩ :=
    fun i x hx => h.path_eq hlength ho ht' (hcontinues.holds hunder) hx
  constructor
  case length => exact hlength
  case placed =>
    intro i x hx
    rw [hplaced i x hx, hpaths under hunder]
  case distinct => exact nodup_mapping hlength ho hplaced
  case inside =>
    intro i j x y hx hy
    refine ⟨_, ?_, ho.isInside_eq (holds_of_mapping hlength hx) (holds_of_mapping hlength hy)⟩
    rw [ht'.isInside_eq (hholds x (List.mem_of_getElem? hx)) (hholds y (List.mem_of_getElem? hy)),
      hplaced i x hx, hplaced j y hy]
    simp only [List.prefix_append_right_inj]
  case only =>
    intro x
    constructor
    · exact h.only hfits x
    · rintro (hx | hx)
      · exact hcontinues.holds hx
      · exact hholds x hx
  case paths => exact hpaths
  case kept =>
    intro x n hn
    obtain ⟨children, explicit, hn'⟩ := hbranches.kept x n hn
    exact ⟨_, hn', rfl, rfl, rfl, rfl⟩
  case bare => exact fun x n hn hx => (hbranches.bare x n hn).resolve_left hx
  case explicit => exact h.explicit_iff ht' ho
  case again => exact h.copyTree_again hlength ht' ho

end Copied

theorem Built.inward (h : t.Built) : t.Inward := by
  induction h with
  | initial => exact initial_linked.inward
  | change _ hlast ih => exact hlast.continues.inward ih

/-- Copying a tree below a namespace comes to an end and embeds it there, as long as the ids suffice for
what comes out. -/
theorem Built.copyTree_embeds (ht : t.Built) (ho : o.Built) (hunder : t.table.Holds under)
    (hfits : o.table.size ≤ idLimit) :
    ∃ mapping t', t.copyTree o under = .ok (mapping, t') ∧
      t'.table.size < t.table.size + o.table.size ∧
      (t'.table.size ≤ idLimit → t.Embeds o under mapping t') := by
  have holinked : o.Linked := ho.linked hfits
  obtain ⟨mapping, t', hcopy, hbranches, hholds, hsize⟩ :=
    exists_copyTree ht.inward hunder holinked
  refine ⟨mapping, t', hcopy, hsize, fun hfits' => ?_⟩
  have hcontinues : t.Continues t' := (Change.copied hcopy).continues
  obtain ⟨hcopied, hlength⟩ :=
    copied_of_copyTree (Nat.lt_of_le_of_lt (Nat.zero_le _) holinked.root) hcopy
  exact hcopied.embeds hlength hbranches hcontinues hholds hunder
    (ht.linked (Nat.le_trans hcontinues.size_le hfits')) holinked hfits'

/-- A garden, and in it a bed, both opened by a block. -/
def beds : NamespaceTree := (initial.afterOpening ["garden"]).afterOpening ["garden", "bed"]

/-- The garden of `beds` comes to lie on the one the house has already, and only the bed is new. -/
theorem copyTree_embeds_beds : ∃ mapping t',
    (initial.afterOpening ["house", "garden"]).copyTree beds ⟨1⟩ = .ok (mapping, t') ∧
      mapping = [⟨1⟩, ⟨2⟩, ⟨3⟩] ∧ t'.path ⟨3⟩ = ["house", "garden", "bed"] ∧
      (initial.afterOpening ["house", "garden"]).Embeds beds ⟨1⟩ mapping t' := by
  have hhouse : (initial.afterOpening ["house", "garden"]).Built := built_afterOpening .initial _
  have hbeds : beds.Built := built_afterOpening (built_afterOpening .initial _) _
  have hunder : (initial.afterOpening ["house", "garden"]).table.Holds ⟨1⟩ := by decide +kernel
  have hfits : beds.table.size ≤ idLimit := by decide +kernel
  have htotal : (initial.afterOpening ["house", "garden"]).table.size + beds.table.size ≤ idLimit := by
    decide +kernel
  obtain ⟨mapping, t', hcopy, hsize, hembeds⟩ := hhouse.copyTree_embeds hbeds hunder hfits
  have hmapping : ((initial.afterOpening ["house", "garden"]).copyTree beds ⟨1⟩).toOption.map
      (fun r => (r.1, r.2.path ⟨3⟩)) = some ([⟨1⟩, ⟨2⟩, ⟨3⟩], ["house", "garden", "bed"]) := by
    decide +kernel
  rw [hcopy] at hmapping
  obtain ⟨rfl, hpath⟩ := Prod.mk.inj (Option.some.inj hmapping)
  exact ⟨_, t', hcopy, rfl, hpath, hembeds (by omega)⟩

end NamespaceTree
end Stencil
