import Mathlib.Data.List.Basic
import Mathlib.Data.List.Induction
import Stencil.Proofs.Updates

/-! # Namespaces and the paths that lead to them

As long as the ids suffice, the table of namespaces is a tree: a child has its parent on record and the
other way round. Then exactly one path leads from the root to each namespace.
-/
namespace Stencil

/-- The namespace without its definitions and aliases. -/
def Namespace.outline (n : Namespace) : Namespace :=
  { n with definitions := .empty, aliases := .empty }

namespace NamespaceTree

variable {t t' : NamespaceTree} {a b m : NamespaceId} {n : Namespace} {name : String}

def child? (t : NamespaceTree) (id : NamespaceId) (name : String) : Option NamespaceId :=
  (t.table.get? id).bind fun n => n.children.get? name

def parent? (t : NamespaceTree) (id : NamespaceId) : Option NamespaceId :=
  (t.table.get? id).bind Namespace.parent

def definition? (t : NamespaceTree) (id : NamespaceId) (identity : Identity) : Option DefId :=
  (t.table.get? id).bind fun n => n.definitions.get? identity

def alias? (t : NamespaceTree) (id : NamespaceId) (name : String) : Option Meaning :=
  (t.table.get? id).bind fun n => n.aliases.get? name

theorem holds_of_bind {α : Type} {f : Namespace → Option α} {x : α}
    (h : (t.table.get? a).bind f = some x) : t.table.Holds a := by
  obtain ⟨n, hn, -⟩ := Option.bind_eq_some_iff.1 h
  exact Arena.holds_of_get? hn

/-! ## Paths -/

/-- The path leads from `a` down to `b`. -/
def Leads (t : NamespaceTree) (a : NamespaceId) (path : List String) (b : NamespaceId) : Prop :=
  t.follow a path = .ok (some b)

theorem leads_nil : t.Leads a [] b ↔ a = b := by
  simp [Leads, follow]

theorem leads_cons {rest : List String} :
    t.Leads a (name :: rest) b ↔ ∃ m, t.child? a name = some m ∧ t.Leads m rest b := by
  rw [Leads, follow, child, find, Arena.find, child?]
  cases t.table.get? a with
  | none => simp [bind, Except.bind]
  | some n =>
    cases hc : n.children.get? name with
    | none => simp [bind, Except.bind, pure, Except.pure, hc]
    | some m => simp [bind, Except.bind, pure, Except.pure, hc, Leads]

theorem leads_append {path rest : List String} :
    t.Leads a (path ++ rest) b ↔ ∃ m, t.Leads a path m ∧ t.Leads m rest b := by
  induction path generalizing a with
  | nil => simp [leads_nil]
  | cons name path ih =>
    rw [List.cons_append, leads_cons]
    simp only [ih, leads_cons]
    constructor
    · rintro ⟨x, hx, y, hpath, hrest⟩
      exact ⟨y, ⟨x, hx, hpath⟩, hrest⟩
    · rintro ⟨y, ⟨x, hx, hpath⟩, hrest⟩
      exact ⟨x, hx, y, hpath, hrest⟩

theorem leads_concat {path : List String} :
    t.Leads a (path ++ [name]) b ↔ ∃ m, t.Leads a path m ∧ t.child? m name = some b := by
  simp only [leads_append, leads_cons, leads_nil, exists_eq_right]

theorem Leads.unique {path : List String} (h : t.Leads a path b) (h' : t.Leads a path m) : b = m :=
  Option.some.inj (Except.ok.inj (h.symm.trans h'))

theorem Leads.mono {path : List String} (h : t.Leads a path b)
    (hsub : ∀ a name b, t.child? a name = some b → t'.child? a name = some b) :
    t'.Leads a path b := by
  induction path generalizing a with
  | nil => exact leads_nil.2 (leads_nil.1 h)
  | cons name path ih =>
    obtain ⟨m, hm, hrest⟩ := leads_cons.1 h
    exact leads_cons.2 ⟨m, hsub a name m hm, ih hrest⟩

/-! ## Trees -/

/-- Parents and children are on record with each other, a parent is older, and only the root has
none. -/
structure Linked (t : NamespaceTree) : Prop where
  root : t.table.Holds NamespaceId.root
  orphan : ∀ b, t.table.Holds b → (t.parent? b = none ↔ b = NamespaceId.root)
  older : ∀ b p, t.parent? b = some p → p.index < b.index
  up : ∀ a name b, t.child? a name = some b →
    t.table.Holds b ∧ t.parent? b = some a ∧ t.nameOf b = name
  down : ∀ b p, t.parent? b = some p → t.child? p (t.nameOf b) = some b

namespace Linked

theorem index_lt (h : t.Linked) (hb : t.child? a name = some b) : a.index < b.index :=
  h.older b a (h.up a name b hb).2.1

theorem ne_root (h : t.Linked) (hb : t.child? a name = some b) : b ≠ .root := by
  rintro rfl
  exact Nat.not_lt_zero _ (h.index_lt hb)

theorem holds (h : t.Linked) {path : List String} (hb : t.Leads .root path b) :
    t.table.Holds b := by
  rcases List.eq_nil_or_concat' path with rfl | ⟨path, name, rfl⟩
  · exact leads_nil.1 hb ▸ h.root
  · obtain ⟨m, -, hm⟩ := leads_concat.1 hb
    exact (h.up m name b hm).1

theorem child_unique (h : t.Linked) {a' : NamespaceId} {name' : String}
    (hb : t.child? a name = some b) (hb' : t.child? a' name' = some b) :
    a = a' ∧ name = name' := by
  obtain ⟨-, hparent, hname⟩ := h.up a name b hb
  obtain ⟨-, hparent', hname'⟩ := h.up a' name' b hb'
  exact ⟨Option.some.inj (hparent.symm.trans hparent'), hname.symm.trans hname'⟩

/-- A path leads from the root to each namespace. -/
theorem exists_leads (h : t.Linked) (hb : t.table.Holds b) : ∃ path, t.Leads .root path b := by
  obtain ⟨i⟩ := b
  induction i using Nat.strongRecOn with
  | ind i ih =>
    cases hp : t.parent? ⟨i⟩ with
    | none => exact ⟨[], leads_nil.2 ((h.orphan _ hb).1 hp).symm⟩
    | some p =>
      have hlt := h.older _ p hp
      obtain ⟨path, hpath⟩ := ih p.index hlt (Nat.lt_trans hlt hb)
      exact ⟨path ++ [t.nameOf ⟨i⟩], leads_concat.2 ⟨p, hpath, h.down _ p hp⟩⟩

/-- No other path leads there. -/
theorem leads_unique (h : t.Linked) {path path' : List String} (hb : t.Leads .root path b)
    (hb' : t.Leads .root path' b) : path = path' := by
  induction hn : path.length generalizing path path' b with
  | zero =>
    obtain rfl := List.length_eq_zero_iff.1 hn
    obtain rfl := leads_nil.1 hb
    rcases List.eq_nil_or_concat' path' with rfl | ⟨path', name, rfl⟩
    · rfl
    · obtain ⟨m, -, hm⟩ := leads_concat.1 hb'
      exact absurd rfl (h.ne_root hm)
  | succ k ih =>
    rcases List.eq_nil_or_concat' path with rfl | ⟨path, name, rfl⟩
    · cases hn
    obtain ⟨m, hpath, hm⟩ := leads_concat.1 hb
    rcases List.eq_nil_or_concat' path' with rfl | ⟨path', name', rfl⟩
    · exact absurd (leads_nil.1 hb').symm (h.ne_root hm)
    obtain ⟨m', hpath', hm'⟩ := leads_concat.1 hb'
    obtain ⟨rfl, rfl⟩ := h.child_unique hm hm'
    rw [ih hpath hpath' (by simpa using hn)]

/-! The way outwards goes through the places at shorter and shorter paths. -/

theorem outward_root (h : t.Linked) : t.outward .root = [.root] := by
  have hparent : t.parent? .root = none := (h.orphan _ h.root).2 rfl
  rw [parent?] at hparent
  rw [outward, hparent]

theorem outward_child (h : t.Linked) (hb : t.child? a name = some b) :
    t.outward b = b :: t.outward a := by
  have hparent := (h.up a name b hb).2.1
  rw [parent?] at hparent
  rw [outward, hparent]
  simp [h.index_lt hb]

theorem mem_outward_iff (h : t.Linked) {path : List String} (ha : t.Leads .root path a) :
    b ∈ t.outward a ↔ ∃ before, before <+: path ∧ t.Leads .root before b := by
  induction path using List.reverseRecOn generalizing a with
  | nil =>
    obtain rfl := leads_nil.1 ha
    simp [h.outward_root, leads_nil, eq_comm]
  | append_singleton path name ih =>
    obtain ⟨m, hm, ha'⟩ := leads_concat.1 ha
    simp only [h.outward_child ha', List.mem_cons, ih hm, List.prefix_concat_iff]
    constructor
    · rintro (rfl | ⟨before, hbefore, hb⟩)
      · exact ⟨_, .inl rfl, ha⟩
      · exact ⟨before, .inr hbefore, hb⟩
    · rintro ⟨before, rfl | hbefore, hb⟩
      · exact .inl (hb.unique ha)
      · exact .inr ⟨before, hbefore, hb⟩

/-- The path of a namespace is the one that leads to it. -/
theorem path_eq (h : t.Linked) {path : List String} (ha : t.Leads .root path a) :
    t.path a = path := by
  induction path using List.reverseRecOn generalizing a with
  | nil =>
    obtain rfl := leads_nil.1 ha
    simp [NamespaceTree.path, h.outward_root]
  | append_singleton path name ih =>
    obtain ⟨m, hm, ha'⟩ := leads_concat.1 ha
    have hname := (h.up m name a ha').2.2
    have hpath : t.path a = t.path m ++ [name] := by
      simp [NamespaceTree.path, h.outward_child ha', h.ne_root ha', hname]
    rw [hpath, ih hm]

end Linked

/-! ## Views of a changed tree -/

section Views

variable {α : Type} {f : Namespace → Namespace}

theorem bind_modify {g : Namespace → Option α} (hf : ∀ n, g (f n) = g n) (a id : NamespaceId) :
    ((t.modify a f).table.get? id).bind g = (t.table.get? id).bind g := by
  simp only [modify, Arena.get?_modify]
  split
  · cases t.table.get? id with
    | none => rfl
    | some n => exact hf n
  · rfl

theorem map_modify {g : Namespace → α} (hf : ∀ n, g (f n) = g n) (a id : NamespaceId) :
    ((t.modify a f).table.get? id).map g = (t.table.get? id).map g := by
  simp only [modify, Arena.get?_modify]
  split
  · cases t.table.get? id with
    | none => rfl
    | some n => exact congrArg some (hf n)
  · rfl

theorem child?_setExplicit (a id : NamespaceId) (name : String) :
    (t.setExplicit a).child? id name = t.child? id name :=
  bind_modify (f := fun n => { n with explicit := true }) (fun _ => rfl) a id

theorem definition?_setExplicit (a id : NamespaceId) (identity : Identity) :
    (t.setExplicit a).definition? id identity = t.definition? id identity :=
  bind_modify (f := fun n => { n with explicit := true }) (fun _ => rfl) a id

theorem alias?_setExplicit (a id : NamespaceId) (name : String) :
    (t.setExplicit a).alias? id name = t.alias? id name :=
  bind_modify (f := fun n => { n with explicit := true }) (fun _ => rfl) a id

theorem get?_addChild (hn : t.table.get? a = some n) (name : String) (id : NamespaceId) :
    (t.addChild a name).table.get? id =
      if id = a then some { n with children := n.children.insert name t.table.nextId }
      else if id.index = t.table.size then some (.fresh name (some a))
      else t.table.get? id := by
  have hlt := Arena.lt_size_of_get? hn
  simp only [addChild, modify, Arena.get?_modify, Arena.get?_push]
  by_cases hid : a = id
  · subst hid
    simp [hn, Nat.ne_of_lt hlt]
  · simp [hid, Ne.symm hid]

theorem get?_of_index_eq {id : NamespaceId} (h : id.index = t.table.size) :
    t.table.get? id = none := by
  cases hn : t.table.get? id with
  | none => rfl
  | some n => exact absurd (Arena.lt_size_of_get? hn) (by omega)

/-- A view that tells nothing of a new namespace and does not look at children. -/
theorem bind_addChild {g : Namespace → Option α} (hn : t.table.get? a = some n)
    (hchildren : ∀ n children, g { n with children := children } = g n)
    (hfresh : ∀ name parent, g (.fresh name parent) = none) (name : String) (id : NamespaceId) :
    ((t.addChild a name).table.get? id).bind g = (t.table.get? id).bind g := by
  rw [get?_addChild hn]
  split
  · rename_i hid
    rw [hid, hn]
    exact hchildren n _
  · split
    · rename_i hid
      rw [get?_of_index_eq hid]
      exact hfresh name _
    · rfl

theorem definition?_addChild (hn : t.table.get? a = some n) (name : String) (id : NamespaceId)
    (identity : Identity) : (t.addChild a name).definition? id identity = t.definition? id identity :=
  bind_addChild hn (fun _ _ => rfl) (fun _ _ => rfl) name id

theorem alias?_addChild (hn : t.table.get? a = some n) (name : String) (id : NamespaceId)
    (other : String) : (t.addChild a name).alias? id other = t.alias? id other :=
  bind_addChild hn (fun _ _ => rfl) (fun _ _ => rfl) name id

theorem child?_addChild (hn : t.table.get? a = some n) (name : String) (id : NamespaceId)
    (other : String) :
    (t.addChild a name).child? id other =
      if id = a ∧ other = name then some t.table.nextId else t.child? id other := by
  rw [child?, get?_addChild hn]
  by_cases hid : id = a
  · subst hid
    simp only [if_pos, Option.bind_some, OrderedMap.get?_insert, true_and, child?, hn]
    by_cases hname : name = other <;> simp [hname, eq_comm]
  · simp only [hid, if_false, false_and]
    split
    · rename_i hindex
      rw [child?, get?_of_index_eq hindex]
      rfl
    · rfl

theorem parent?_addChild (hn : t.table.get? a = some n) (name : String) (id : NamespaceId) :
    (t.addChild a name).parent? id =
      if id.index = t.table.size then some a else t.parent? id := by
  have hlt := Arena.lt_size_of_get? hn
  rw [parent?, get?_addChild hn]
  split
  · rename_i hid
    subst hid
    simp [parent?, hn, Nat.ne_of_lt hlt]
  · split <;> rfl

theorem nameOf_addChild (hn : t.table.get? a = some n) (name : String) (id : NamespaceId) :
    (t.addChild a name).nameOf id = if id.index = t.table.size then name else t.nameOf id := by
  have hlt := Arena.lt_size_of_get? hn
  rw [nameOf, get?_addChild hn]
  split
  · rename_i hid
    subst hid
    simp [nameOf, hn, Nat.ne_of_lt hlt]
  · split <;> rfl

end Views

namespace Linked

/-- Being a tree depends on parents, children and names only. -/
theorem of_eq (h : t.Linked) (hsize : t'.table.size = t.table.size)
    (hchild : t'.child? = t.child?) (hparent : t'.parent? = t.parent?)
    (hname : t'.nameOf = t.nameOf) : t'.Linked := by
  have hholds (b : NamespaceId) : t'.table.Holds b ↔ t.table.Holds b := by
    rw [Arena.Holds, Arena.Holds, hsize]
  constructor
  · exact (hholds _).2 h.root
  · intro b hb
    rw [hparent]
    exact h.orphan b ((hholds b).1 hb)
  · rw [hparent]
    exact h.older
  · intro a name b hb
    rw [hchild] at hb
    rw [hparent, hname, hholds]
    exact h.up a name b hb
  · rw [hchild, hparent, hname]
    exact h.down

theorem modify (h : t.Linked) {f : Namespace → Namespace}
    (hchildren : ∀ n, (f n).children = n.children) (hparent : ∀ n, (f n).parent = n.parent)
    (hname : ∀ n, (f n).name = n.name) (a : NamespaceId) : (t.modify a f).Linked := by
  refine h.of_eq (Arena.size_modify _ _ _) ?_ ?_ ?_
  · funext id name
    exact bind_modify (fun n => by rw [hchildren]) a id
  · funext id
    exact bind_modify hparent a id
  · funext id
    exact congrArg (·.getD "") (map_modify hname a id)

theorem addChild (h : t.Linked) (hn : t.table.get? a = some n) {name : String}
    (hnew : n.children.get? name = none) (hfits : (t.addChild a name).table.size ≤ idLimit) :
    (t.addChild a name).Linked := by
  have hlt := Arena.lt_size_of_get? hn
  rw [size_addChild] at hfits
  have hnext : t.table.nextId = ⟨t.table.size⟩ := Id.ofIndex_of_lt hfits
  have hholds (b : NamespaceId) : (t.addChild a name).table.Holds b ↔
      t.table.Holds b ∨ b = ⟨t.table.size⟩ := by
    obtain ⟨i⟩ := b
    simp only [Arena.Holds, size_addChild, Id.mk.injEq]
    omega
  have hne {b : NamespaceId} (hb : t.table.Holds b) : b.index ≠ t.table.size := Nat.ne_of_lt hb
  constructor
  · exact (hholds _).2 (.inl h.root)
  · intro b hb
    rw [parent?_addChild hn]
    rcases (hholds b).1 hb with hb | rfl
    · rw [if_neg (hne hb)]
      exact h.orphan b hb
    · have hroot : (⟨t.table.size⟩ : NamespaceId) ≠ NamespaceId.root := by
        intro heq
        have hzero : t.table.size = 0 := congrArg Id.index heq
        omega
      simp [hroot]
  · intro b p hp
    rw [parent?_addChild hn] at hp
    split at hp
    · rename_i hb
      rw [← Option.some.inj hp, hb]
      exact hlt
    · exact h.older b p hp
  · intro x s b hb
    rw [child?_addChild hn, hnext] at hb
    rw [parent?_addChild hn, nameOf_addChild hn, hholds]
    split at hb
    · rename_i heq
      rw [← Option.some.inj hb, if_pos rfl, if_pos rfl, heq.1, heq.2]
      exact ⟨.inr rfl, rfl, rfl⟩
    · obtain ⟨hb, hparent, hname⟩ := h.up x s b hb
      rw [if_neg (hne hb), if_neg (hne hb)]
      exact ⟨.inl hb, hparent, hname⟩
  · intro b p hp
    rw [parent?_addChild hn] at hp
    rw [child?_addChild hn, nameOf_addChild hn]
    split at hp
    · rename_i hb
      obtain ⟨i⟩ := b
      obtain rfl : i = t.table.size := hb
      rw [if_pos ⟨(Option.some.inj hp).symm, if_pos rfl⟩, hnext]
    · rename_i hb
      have hdown := h.down b p hp
      rw [if_neg hb, if_neg]
      · exact hdown
      · rintro ⟨rfl, rfl⟩
        rw [child?, hn, Option.bind_some, hnew] at hdown
        cases hdown

end Linked

/-! ## Trees that differ in what is registered -/

/-- The two trees differ in the definitions and aliases of their namespaces only. -/
def SameOutline (t t' : NamespaceTree) : Prop :=
  ∀ id, (t'.table.get? id).map Namespace.outline = (t.table.get? id).map Namespace.outline

namespace SameOutline

theorem refl (t : NamespaceTree) : t.SameOutline t := fun _ => rfl

theorem trans {t'' : NamespaceTree} (h : t.SameOutline t') (h' : t'.SameOutline t'') :
    t.SameOutline t'' :=
  fun id => (h' id).trans (h id)

theorem symm (h : t.SameOutline t') : t'.SameOutline t := fun id => (h id).symm

theorem modify (t : NamespaceTree) (a : NamespaceId) {f : Namespace → Namespace}
    (hf : ∀ n, (f n).outline = n.outline) : t.SameOutline (t.modify a f) :=
  map_modify hf a

theorem map_eq {α : Type} {g : Namespace → α} (h : t.SameOutline t')
    (hg : ∀ n, g n.outline = g n) (id : NamespaceId) :
    (t'.table.get? id).map g = (t.table.get? id).map g := by
  have hid := congrArg (Option.map g) (h id)
  simpa only [Option.map_map, Function.comp_def, hg] using hid

theorem bind_eq {α : Type} {g : Namespace → Option α} (h : t.SameOutline t')
    (hg : ∀ n, g n.outline = g n) (id : NamespaceId) :
    (t'.table.get? id).bind g = (t.table.get? id).bind g := by
  have hid := h.map_eq hg id
  cases hn : t.table.get? id <;> cases hn' : t'.table.get? id <;> simp_all

theorem holds (h : t.SameOutline t') (ha : t.table.Holds a) : t'.table.Holds a := by
  obtain ⟨n, hn⟩ := ha.exists_get?
  have hid := h a
  rw [hn] at hid
  obtain ⟨n', hn', -⟩ := Option.map_eq_some_iff.1 hid
  exact Arena.holds_of_get? hn'

theorem size_le (h : t.SameOutline t') : t.table.size ≤ t'.table.size :=
  Arena.size_le_of_holds fun _ => h.holds

theorem child?_eq (h : t.SameOutline t') : t'.child? = t.child? := by
  funext id name
  exact h.bind_eq (fun _ => rfl) id

theorem nameOf_eq (h : t.SameOutline t') : t'.nameOf = t.nameOf := by
  funext id
  exact congrArg (·.getD "") (h.map_eq (g := Namespace.name) (fun _ => rfl) id)

theorem outward_eq (h : t.SameOutline t') (id : NamespaceId) : t'.outward id = t.outward id := by
  rw [NamespaceTree.outward_eq, NamespaceTree.outward_eq]
  exact Arena.chain_congr (fun id => h.bind_eq (fun _ => rfl) id) id

theorem title_eq (h : t.SameOutline t') (id : NamespaceId) : t'.title id = t.title id := by
  rw [title, title, renderPath, renderPath, path, path, h.outward_eq, h.nameOf_eq]

theorem leads_iff (h : t.SameOutline t') {path : List String} :
    t'.Leads a path b ↔ t.Leads a path b := by
  constructor
  · exact fun hb => hb.mono fun a name b hchild => h.child?_eq ▸ hchild
  · exact fun hb => hb.mono fun a name b hchild => h.child?_eq.symm ▸ hchild

end SameOutline
end NamespaceTree

namespace Compilation

variable {c c' : Compilation}

/-- An update keeps the namespaces a tree as long as the ids suffice. -/
theorem Update.linked (h : c.Update c') (hfits : c'.Fits) (hc : c.namespaces.Linked) :
    c'.namespaces.Linked := by
  cases h with
  | session s => exact hc
  | config config => exact hc
  | fileScope opened h => exact hc
  | rule r h => exact hc
  | openScope kind home h => exact hc
  | goTo s h => exact hc
  | bind scopes hm h => exact hc
  | child name hn hnew => exact hc.addChild hn hnew hfits.namespaces
  | explicit ns => refine hc.modify ?_ ?_ ?_ ns <;> exact fun _ => rfl
  | aliased hn hnew hm hlisted => refine hc.modify ?_ ?_ ?_ _ <;> exact fun _ => rfl
  | store d hhome hscope hkind => exact hc
  | register hn hnew hid hstored => refine hc.modify ?_ ?_ ?_ _ <;> exact fun _ => rfl

theorem Updates.linked (h : c.Updates c') (hfits : c'.Fits) (hc : c.namespaces.Linked) :
    c'.namespaces.Linked := by
  induction h with
  | refl => exact hc
  | tail _ hlast ih => exact hlast.linked hfits (ih (hlast.grows.fits hfits))

end Compilation
end Stencil
