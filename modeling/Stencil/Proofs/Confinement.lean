import Stencil.Proofs.Denials
import Stencil.Proofs.Sparing
import Stencil.Proofs.Union

/-! # An import is confined to its place

An import writes to the counterparts of the imported namespaces only; any other namespace at most gets
children. What a bare name means, what is denied and what is visible depends on the namespaces around a
place, and not on their children. So none of it changes outside the place of the import.
-/
namespace Stencil

open Compiling (Moved Spares importDefinition importAlias importRule importInto)

/-- The namespace without its children. -/
def Namespace.childless (n : Namespace) : Namespace := { n with children := .empty }

theorem Namespace.eq_of_childless {n n' : Namespace} (h : n'.childless = n.childless) :
    n' = { n with children := n'.children } := by
  cases n
  cases n'
  simp_all [childless]

namespace NamespaceTree

variable {t t' t'' : NamespaceTree} {a b x : NamespaceId} {name : String} {path : List String}

/-! ## Opening namespaces -/

/-- The namespace `x` has at most got other children. -/
def SameAt (t t' : NamespaceTree) (x : NamespaceId) : Prop :=
  (t'.table.get? x).map Namespace.childless = (t.table.get? x).map Namespace.childless

namespace SameAt

theorem trans (h : t.SameAt t' x) (h' : t'.SameAt t'' x) : t.SameAt t'' x := Eq.trans h' h

theorem holds (h : t.SameAt t' x) (hx : t.table.Holds x) : t'.table.Holds x := by
  obtain ⟨n, hn⟩ := hx.exists_get?
  rw [SameAt, hn] at h
  obtain ⟨n', hn', -⟩ := Option.map_eq_some_iff.1 h
  exact Arena.holds_of_get? hn'

theorem exists_find (h : t.SameAt t' x) (hx : t.table.Holds x) :
    ∃ n children, t.table.get? x = some n ∧ t.find x = .ok n ∧
      t'.find x = .ok { n with children := children } := by
  obtain ⟨n, hn⟩ := hx.exists_get?
  rw [SameAt, hn] at h
  obtain ⟨n', hn', heq⟩ := Option.map_eq_some_iff.1 h
  refine ⟨n, n'.children, hn, Arena.find_of_get? hn, ?_⟩
  rw [← Namespace.eq_of_childless heq]
  exact Arena.find_of_get? hn'

end SameAt

theorem sameAt_of_openChild (h : t.openChild a name = .ok (b, t')) (hx : t.table.Holds x) :
    t.SameAt t' x := by
  obtain ⟨n, hn, ⟨-, rfl⟩ | ⟨-, -, rfl⟩⟩ := openChild_eq_ok h
  · rfl
  · rw [SameAt, get?_addChild hn]
    by_cases hxa : x = a
    · simp [hxa, hn, Namespace.childless]
    · simp [hxa, Nat.ne_of_lt hx]

theorem sameAt_of_openPath (h : t.openPath a path = .ok (b, t')) (hx : t.table.Holds x) :
    t.SameAt t' x := by
  induction path generalizing t a with
  | nil =>
    cases h
    rfl
  | cons name path ih =>
    obtain ⟨⟨m, t₁⟩, hchild, hrest⟩ := Except.bind_eq_ok h
    have hfirst := sameAt_of_openChild hchild hx
    exact hfirst.trans (ih hrest (hfirst.holds hx))

/-- Only the end of the path may be marked. -/
theorem sameAt_of_openAt {explicit : Bool} (h : t.openAt a path explicit = .ok (b, t'))
    (hx : t.table.Holds x) (hne : explicit = true → x ≠ b) : t.SameAt t' x := by
  obtain ⟨t₁, hpath, ⟨-, rfl⟩ | ⟨hexplicit, -, -, rfl⟩⟩ := openAt_eq_ok h
  · exact sameAt_of_openPath hpath hx
  · refine (sameAt_of_openPath hpath hx).trans ?_
    rw [SameAt, setExplicit, modify, Arena.get?_modify, if_neg (Ne.symm (hne hexplicit))]

/-- What is no counterpart is not marked when a tree is copied. -/
theorem sameAt_of_copyNodes {under : NamespaceId} {nodes : List Namespace}
    {mapping mapping' : List NamespaceId}
    (h : nodes.foldlM (fun (mapping, t) n => copyNode under mapping t n) (mapping, t) =
      .ok (mapping', t')) (hx : t.table.Holds x) :
    mapping <+: mapping' ∧ (x ∉ mapping' → t.SameAt t' x) := by
  induction nodes generalizing mapping t with
  | nil =>
    cases h
    exact ⟨List.prefix_rfl, fun _ => rfl⟩
  | cons n nodes ih =>
    rw [List.foldlM_cons] at h
    obtain ⟨⟨mapping₁, t₁⟩, hfirst, hrest⟩ := Except.bind_eq_ok h
    obtain ⟨q, b, -, hopen, rfl⟩ := copyNode_eq_ok hfirst
    have hx₁ : t₁.table.Holds x :=
      Nat.lt_of_lt_of_le hx (opens_of_openAt hopen).1.widens.size
    obtain ⟨hgrown, hsame⟩ := ih hrest hx₁
    refine ⟨(List.prefix_append _ _).trans hgrown, fun hout => ?_⟩
    have hne : x ≠ b := by
      rintro rfl
      exact hout (hgrown.subset (by simp))
    exact (sameAt_of_openAt hopen hx fun _ => hne).trans (hsame hout)

/-! ## Writing to one namespace -/

theorem get?_addDefinition {identity : Identity} {id : DefId}
    (h : t.addDefinition a identity id = .ok t') (hx : x ≠ a) :
    t'.table.get? x = t.table.get? x := by
  obtain ⟨n, -, h⟩ := Except.bind_eq_ok h
  split at h
  · cases h
  · cases h
    rw [modify, Arena.get?_modify, if_neg (Ne.symm hx)]

theorem get?_addAlias {m : Meaning} (h : t.addAlias a name m = .ok t') (hx : x ≠ a) :
    t'.table.get? x = t.table.get? x := by
  obtain ⟨n, -, h⟩ := Except.bind_eq_ok h
  split at h
  · cases h
  · cases h
    rw [modify, Arena.get?_modify, if_neg (Ne.symm hx)]

end NamespaceTree

namespace Compiling

variable {other : Compilation} {target x : NamespaceId} {mapping : List NamespaceId}

/-- The table entry of a namespace. -/
abbrev entryOf (x : NamespaceId) (c : Compilation) : Option Namespace := c.namespaces.table.get? x

theorem overlooks_entryOf (x : NamespaceId) : Overlooks (entryOf x) (x ≠ ·) where
  session _ _ := rfl
  rules _ _ := rfl
  definitions _ _ := rfl
  registered _ _ _ _ _ hns h := NamespaceTree.get?_addDefinition h hns
  aliased _ _ _ _ _ hns h := NamespaceTree.get?_addAlias h hns

end Compiling

/-! ## Looking around from a place -/

section Congruence

variable {m : Type → Type} [Monad m] {α β : Type} {as : List α}

theorem findSomeM?_congr {f g : α → m (Option β)} (h : ∀ a ∈ as, f a = g a) :
    as.findSomeM? f = as.findSomeM? g := by
  induction as with
  | nil => rfl
  | cons a as ih =>
    rw [List.findSomeM?, List.findSomeM?, h a List.mem_cons_self,
      ih fun a ha => h a (List.mem_cons_of_mem _ ha)]

theorem findM?_congr {f g : α → Except Fault Bool} (h : ∀ a ∈ as, f a = g a) :
    as.findM? f = as.findM? g := by
  induction as with
  | nil => rfl
  | cons a as ih =>
    rw [List.findM?, List.findM?, h a List.mem_cons_self,
      ih fun a ha => h a (List.mem_cons_of_mem _ ha)]

theorem foldlM_congr {f g : β → α → m β} (h : ∀ b, ∀ a ∈ as, f b a = g b a) (b : β) :
    as.foldlM f b = as.foldlM g b := by
  induction as generalizing b with
  | nil => rfl
  | cons a as ih =>
    rw [List.foldlM_cons, List.foldlM_cons, h b a List.mem_cons_self]
    congr 1
    funext b
    exact ih (fun b a ha => h b a (List.mem_cons_of_mem _ ha)) b

theorem mapM_congr [LawfulMonad m] {f g : α → m β} (h : ∀ a ∈ as, f a = g a) :
    as.mapM f = as.mapM g := by
  induction as with
  | nil => simp
  | cons a as ih =>
    rw [List.mapM_cons, List.mapM_cons, h a List.mem_cons_self,
      ih fun a ha => h a (List.mem_cons_of_mem _ ha)]

end Congruence

/-- An ambiguity is only ever among the candidates. -/
theorem Library.mem_of_choose {l : Library} {levels : List (List DefId)} {ids : List DefId}
    (h : l.choose levels = .ok (.ambiguous ids)) {id : DefId} (hid : id ∈ ids) :
    id ∈ levels.flatten := by
  have hcandidates {all : List DefId} (h : Outcome.ofCandidates all = .ambiguous ids) :
      all = ids := by
    unfold Outcome.ofCandidates at h
    split at h <;> cases h
    rfl
  change (if _ then _ else _ : Except Fault Outcome) = _ at h
  split at h
  · exact hcandidates (Except.ok.inj h) ▸ hid
  · split at h
    · rw [← hcandidates (Except.ok.inj h)] at hid
      cases levels with
      | nil => cases hid
      | cons first rest => exact List.mem_flatten.2 ⟨first, List.mem_cons_self, hid⟩
    · obtain ⟨r, -, h⟩ := Except.bind_eq_ok h
      cases r with
      | some id => cases h
      | none => cases hall : levels.flatten <;> rw [hall] at h <;> cases h
    · cases h
      exact hid

/-- The definitions of a namespace, which has to be one. -/
def NamespaceTree.registeredIn (t : NamespaceTree) (id : NamespaceId) :
    Except Fault (List DefId) := do
  return (← t.find id).registered

namespace Compilation

variable {c c' : Compilation} {start x : NamespaceId} {id : DefId} {name : String} {k : Category}

/-- From `start` the two compilations look alike: the namespaces around it differ in children only, and
the definitions of the first are stored in the second. -/
structure LooksAlike (c c' : Compilation) (start : NamespaceId) : Prop where
  config : c'.config = c.config
  holds : c.namespaces.table.Holds start
  outward : ∀ x ∈ c.namespaces.outward start,
    c'.namespaces.outward x = c.namespaces.outward x
  spaces : ∀ x ∈ c.namespaces.outward start, c.namespaces.SameAt c'.namespaces x
  definitions : ∀ id d, c.definitions.get? id = some d → c'.definitions.get? id = some d

/-- The definition belongs to a namespace around `start`. -/
def Around (c : Compilation) (start : NamespaceId) (id : DefId) : Prop :=
  ∃ d, c.definitions.get? id = some d ∧ d.home ∈ c.namespaces.outward start

theorem Around.holds (h : c.Around start id) : c.definitions.Holds id :=
  Arena.holds_of_get? h.choose_spec.1

theorem Filed.around (hc : c.Filed) {n : Namespace} (hx : x ∈ c.namespaces.outward start)
    (hn : c.namespaces.table.get? x = some n) {identity : Identity}
    (hid : n.definitions.get? identity = some id) : c.Around start id := by
  obtain ⟨d, hd, -, rfl⟩ := hc x n hn identity id hid
  exact ⟨d, hd, hx⟩

namespace LooksAlike

theorem exists_find (h : c.LooksAlike c' start) (hx : x ∈ c.namespaces.outward start) :
    ∃ n children, c.namespaces.table.get? x = some n ∧ c.namespaces.find x = .ok n ∧
      c'.namespaces.find x = .ok { n with children := children } :=
  (h.spaces x hx).exists_find (NamespaceTree.holds_of_mem_outward h.holds hx)

theorem outwardFrom_eq (h : c.LooksAlike c' start) :
    c.namespaces.outwardFrom start = .ok (c.namespaces.outward start) ∧
      c'.namespaces.outwardFrom start = .ok (c.namespaces.outward start) := by
  have hself : start ∈ c.namespaces.outward start :=
    c.namespaces.outward_eq start ▸ Arena.mem_chain_self _ _ _
  obtain ⟨n, children, -, hn, hn'⟩ := h.exists_find hself
  constructor
  · rw [NamespaceTree.outwardFrom, hn]
    rfl
  · rw [NamespaceTree.outwardFrom, hn', ← h.outward start hself]
    rfl

theorem find_eq (h : c.LooksAlike c' start) (hid : c.definitions.Holds id) :
    c'.definitions.find id = c.definitions.find id := by
  obtain ⟨d, hd⟩ := hid.exists_get?
  rw [Arena.find_of_get? hd, Arena.find_of_get? (h.definitions id d hd)]

theorem aliasIn_eq (h : c.LooksAlike c' start) (hc : c.Closed)
    (hx : x ∈ c.namespaces.outward start) :
    c'.library.aliasIn name k x = c.library.aliasIn name k x := by
  obtain ⟨n, children, hget, hn, hn'⟩ := h.exists_find hx
  simp only [Library.aliasIn, library, hn, hn']
  cases hm : n.aliases.get? name with
  | none => simp [bind, Except.bind, hm]
  | some m =>
    cases m with
    | space ns => simp [bind, Except.bind, hm]
    | definition id =>
      have hid : c.definitions.Holds id := hc.library.aliased hget hm
      simp [bind, Except.bind, hm, Library.find, h.find_eq hid]

theorem aliasFor_eq (h : c.LooksAlike c' start) (hc : c.Closed) :
    c'.library.aliasFor start name k = c.library.aliasFor start name k := by
  obtain ⟨hfrom, hfrom'⟩ := h.outwardFrom_eq
  simp only [Library.aliasFor, library, hfrom, hfrom']
  exact findSomeM?_congr fun x hx => h.aliasIn_eq hc hx

theorem named_eq (h : c.LooksAlike c' start) (hx : x ∈ c.namespaces.outward start) :
    c'.namespaces.named x name k = c.namespaces.named x name k := by
  obtain ⟨n, children, -, hn, hn'⟩ := h.exists_find hx
  simp only [NamespaceTree.named, hn, hn']
  rfl

theorem levels_eq (h : c.LooksAlike c' start) :
    c'.library.levels start name k = c.library.levels start name k := by
  obtain ⟨hfrom, hfrom'⟩ := h.outwardFrom_eq
  have hall : (c.namespaces.outward start).mapM (fun x => c'.namespaces.named x name k) =
      (c.namespaces.outward start).mapM fun x => c.namespaces.named x name k :=
    mapM_congr fun x hx => h.named_eq hx
  simp only [Library.levels, library, hfrom, hfrom']
  simp [bind, Except.bind, hall]

/-- The candidates for a bare name belong to namespaces around. -/
theorem finds_levels (h : c.LooksAlike c' start) (hfiled : c.Filed) (name : String)
    (k : Category) :
    Finds (c.library.levels start name k) fun levels =>
      ∀ id ∈ levels.flatten, c.Around start id := by
  have hnamed : ∀ x ∈ c.namespaces.outward start,
      Finds (c.namespaces.named x name k) fun ids => ∀ id ∈ ids, c.Around start id := by
    intro x hx
    obtain ⟨n, children, hget, hn, -⟩ := h.exists_find hx
    refine ⟨n.named name k, by rw [NamespaceTree.named, hn]; rfl, fun id hid => ?_⟩
    obtain ⟨⟨origin, kind⟩, -, hid⟩ := List.mem_filterMap.1 hid
    exact hfiled.around hx hget hid
  refine Finds.bind ⟨_, h.outwardFrom_eq.1, rfl⟩ ?_
  rintro _ rfl
  apply (Finds.mapM hnamed).bind
  intro all hall
  refine .pure fun id hid => ?_
  obtain ⟨ids, hids, hid⟩ := List.mem_flatten.1 hid
  exact hall ids (List.mem_filter.1 hids).1 id hid

theorem isExplicit_eq (h : c.LooksAlike c' start) (hid : c.Around start id) :
    c'.library.isExplicit id = c.library.isExplicit id := by
  obtain ⟨d, hd, hhome⟩ := hid
  obtain ⟨n, children, -, hn, hn'⟩ := h.exists_find hhome
  simp only [Library.isExplicit, Library.find, library, Arena.find_of_get? hd,
    Arena.find_of_get? (h.definitions id d hd)]
  simp [bind, Except.bind, hn, hn']

theorem choose_eq (h : c.LooksAlike c' start) {levels : List (List DefId)}
    (hlevels : ∀ id ∈ levels.flatten, c.Around start id) :
    c'.library.choose levels = c.library.choose levels := by
  have hstrategy : c'.library.strategy = c.library.strategy := congrArg Config.strategy h.config
  have hfind : levels.flatten.findM? c'.library.isExplicit =
      levels.flatten.findM? c.library.isExplicit :=
    findM?_congr fun id hid => h.isExplicit_eq (hlevels id hid)
  simp only [Library.choose, hstrategy, hfind]

theorem lookup_eq (h : c.LooksAlike c' start) (hc : c.Closed) (hfiled : c.Filed) {n : Name}
    (hbare : n.path = []) : c'.library.lookup start n k = c.library.lookup start n k := by
  have hpath : n.hasPath = false := by simp [Name.hasPath, hbare]
  obtain ⟨levels, hlevels, haround⟩ := h.finds_levels hfiled n.name k
  simp only [Library.lookup, hpath, Library.lookupBare, h.aliasFor_eq hc, h.levels_eq, hlevels]
  simp [bind, Except.bind, h.choose_eq haround]

/-- An ambiguous bare name could mean definitions of namespaces around. -/
theorem around_of_ambiguous (h : c.LooksAlike c' start) (hfiled : c.Filed) {n : Name}
    (hbare : n.path = []) {ids : List DefId}
    (hids : c.library.lookup start n k = .ok (.ambiguous ids)) (hid : id ∈ ids) :
    c.Around start id := by
  have hpath : n.hasPath = false := by simp [Name.hasPath, hbare]
  obtain ⟨levels, hlevels, haround⟩ := h.finds_levels hfiled n.name k
  simp only [Library.lookup, hpath, Library.lookupBare, hlevels] at hids
  obtain ⟨r, -, hids⟩ := Except.bind_eq_ok hids
  cases r with
  | some id => cases hids
  | none => exact haround id (Library.mem_of_choose hids hid)

theorem path_eq (h : c.LooksAlike c' start) (hx : x ∈ c.namespaces.outward start) :
    c'.namespaces.path x = c.namespaces.path x := by
  have hname : ∀ y ∈ c.namespaces.outward x, c'.namespaces.nameOf y = c.namespaces.nameOf y := by
    intro y hy
    rw [NamespaceTree.outward_eq] at hy
    have hx := c.namespaces.outward_eq start ▸ hx
    have hsame := h.spaces y (c.namespaces.outward_eq start ▸ Arena.mem_chain_trans hy hx)
    have hnames := congrArg (Option.map Namespace.name) hsame
    simp only [Option.map_map] at hnames
    exact congrArg (·.getD "") hnames
  simp only [NamespaceTree.path, h.outward x hx]
  congr 1
  exact List.map_congr_left fun y hy => hname y (List.mem_filter.1 hy).1

theorem title_eq (h : c.LooksAlike c' start) (hid : c.Around start id) :
    c'.library.title id = c.library.title id := by
  obtain ⟨d, hd, hhome⟩ := hid
  obtain ⟨n, children, -, hn, hn'⟩ := h.exists_find hhome
  have hpath : c'.namespaces.pathOf d.home = c.namespaces.pathOf d.home := by
    rw [NamespaceTree.pathOf, NamespaceTree.pathOf, hn, hn', h.path_eq hhome]
    rfl
  simp only [Library.title, Library.find, library, Arena.find_of_get? hd,
    Arena.find_of_get? (h.definitions id d hd)]
  simp [bind, Except.bind, hpath]

theorem missing_eq (h : c.LooksAlike c' start) (hc : c.Closed) (hfiled : c.Filed) {n : Name}
    (hbare : n.path = []) : c'.library.missing start n k = c.library.missing start n k := by
  unfold Library.missing
  split
  · rfl
  · obtain ⟨r, hr, hoffered⟩ := hc.library.finds_lookup n .any h.holds
    rw [h.lookup_eq hc hfiled hbare, hr]
    simp only [bind, Except.bind]
    split
    · rfl
    · rename_i id hid
      have hoffers : c.library.Offers .any id := by
        cases r with
        | found id' => exact Option.some.inj hid ▸ hoffered
        | ambiguous ids => exact hoffered id (List.mem_of_head? hid)
        | notFound => cases hid
      have hfind : c'.library.find id = c.library.find id := h.find_eq (hoffers.holds hc.library)
      rw [hfind]

/-- A bare name means the same, and fails with the same error. -/
theorem resolve_eq (h : c.LooksAlike c' start) (hc : c.Closed) (hfiled : c.Filed) {n : Name}
    (hbare : n.path = []) (expected : Category) :
    c'.library.resolve start n expected = c.library.resolve start n expected := by
  unfold Library.resolve
  cases n.combine expected with
  | error e => rfl
  | ok k =>
    change (liftM (c'.library.lookup start n k) >>= _ : Except Failure DefId) =
      (liftM (c.library.lookup start n k) >>= _)
    rw [h.lookup_eq hc hfiled hbare]
    cases hr : c.library.lookup start n k with
    | error f => rfl
    | ok r =>
      cases r with
      | found id => rfl
      | ambiguous ids =>
        have htitles : ids.mapM c'.library.title = ids.mapM c.library.title :=
          mapM_congr fun id hid => h.title_eq (h.around_of_ambiguous hfiled hbare hr hid)
        have hambiguous : c'.library.ambiguous n ids = c.library.ambiguous n ids := by
          rw [Library.ambiguous, Library.ambiguous, htitles]
        change (liftM (c'.library.ambiguous n ids) >>= _ : Except Failure DefId) =
          (liftM (c.library.ambiguous n ids) >>= _)
        rw [hambiguous]
      | notFound =>
        change (liftM (c'.library.missing start n k) >>= _ : Except Failure DefId) =
          (liftM (c.library.missing start n k) >>= _)
        rw [h.missing_eq hc hfiled hbare]

theorem addVisible_eq (h : c.LooksAlike c' start) (hid : c.definitions.Holds id)
    (seen : List (Identity × DefId)) :
    c'.library.addVisible k seen id = c.library.addVisible k seen id := by
  simp only [Library.addVisible, Library.find, library, h.find_eq hid]

theorem registered_eq (h : c.LooksAlike c' start) (hx : x ∈ c.namespaces.outward start) :
    c'.namespaces.registeredIn x = c.namespaces.registeredIn x := by
  obtain ⟨n, children, -, hn, hn'⟩ := h.exists_find hx
  simp only [NamespaceTree.registeredIn, hn, hn']
  rfl

theorem finds_registered (h : c.LooksAlike c' start) (hfiled : c.Filed)
    (hx : x ∈ c.namespaces.outward start) :
    Finds (c.namespaces.registeredIn x) fun ids => ∀ id ∈ ids, c.definitions.Holds id := by
  obtain ⟨n, children, hget, hn, -⟩ := h.exists_find hx
  refine ⟨n.registered, by rw [NamespaceTree.registeredIn, hn]; rfl, fun id hid => ?_⟩
  obtain ⟨identity, hid⟩ := Namespace.mem_registered.1 hid
  exact (hfiled.around hx hget hid).holds

/-- The same definitions are visible, in the same order. -/
theorem visible_eq (h : c.LooksAlike c' start) (hfiled : c.Filed) :
    c'.library.visible start k = c.library.visible start k := by
  obtain ⟨hfrom, hfrom'⟩ := h.outwardFrom_eq
  have hsame : (c.namespaces.outward start).mapM c'.namespaces.registeredIn =
      (c.namespaces.outward start).mapM c.namespaces.registeredIn :=
    mapM_congr fun x hx => h.registered_eq hx
  obtain ⟨ids, hids, hall⟩ := Finds.mapM fun x hx => h.finds_registered hfiled hx
  have hseen : ids.flatten.foldlM (c'.library.addVisible k) [] =
      ids.flatten.foldlM (c.library.addVisible k) [] := by
    refine foldlM_congr (fun seen id hid => h.addVisible_eq ?_ seen) []
    obtain ⟨level, hlevel, hid⟩ := List.mem_flatten.1 hid
    exact hall level hlevel id hid
  change (do
      let ids ← (← c'.namespaces.outwardFrom start).mapM c'.namespaces.registeredIn
      return (← ids.flatten.foldlM (c'.library.addVisible k) []).map Prod.snd) = (do
      let ids ← (← c.namespaces.outwardFrom start).mapM c.namespaces.registeredIn
      return (← ids.flatten.foldlM (c.library.addVisible k) []).map Prod.snd)
  simp only [bind, Except.bind, hfrom, hfrom', hsame, hids, hseen]

end LooksAlike

/-! ## Outside the place of an import -/

variable {other : Compilation} {path q : List String} {ns : NamespaceId}

/-- The namespaces around a place outside of the import at most get children. -/
theorem Reachable.mount_sameAt (hc : c.Reachable) (hother : other.Reachable) (hofits : other.Fits)
    (hfits : ((Compiling.mount other path).after c).Fits) (hns : c.SpaceAt q ns)
    (hout : ¬ path <+: q) :
    c.namespaces.SameAt ((Compiling.mount other path).after c).namespaces ns := by
  obtain ⟨top, t, mapping, t', hopen, hcopy, hupdates, hlength, hmapping⟩ :=
    hc.intact.exists_places hother.intact path
  have hgrafted := NamespaceTree.Grafted.of_ok (hother.linked hofits) hopen hcopy
  have hafter : (Compiling.mount other path).after c =
      (importInto other mapping).after { c with namespaces := t' } :=
    congrArg Prod.snd (Compiling.run_mount hopen hcopy)
  have hlast : Updates { c with namespaces := t' } ((Compiling.mount other path).after c) := by
    rw [hafter]
    exact (Compiling.importInto_runs (hupdates.intact hc.intact) hother.intact hlength hmapping).1
  have hbase := hlast.grows.fits hfits
  have hlinked := hc.linked (hupdates.grows.fits hbase)
  have htree : t'.Linked := hupdates.linked hbase hlinked
  -- A counterpart has a path that begins with that of the import.
  have hnot : ns ∉ mapping := by
    intro hmem
    obtain ⟨k, hk⟩ := List.mem_iff_getElem?.1 hmem
    have hholds : other.namespaces.table.Holds ⟨k⟩ := by
      rw [Arena.Holds, ← hlength]
      exact (List.getElem?_eq_some_iff.1 hk).1
    obtain ⟨r, hr⟩ := (hother.linked hofits).exists_leads hholds
    obtain ⟨x, hx, hleads⟩ := hgrafted.placed r _ hr
    obtain rfl := Option.some.inj (hk.symm.trans hx)
    have hq := htree.leads_unique (hgrafted.widens.leads hns) hleads
    exact hout (hq ▸ List.prefix_append path r)
  have hholds := hlinked.holds hns
  have hopened := NamespaceTree.sameAt_of_openAt hopen hholds fun h => Bool.noConfusion h
  have hcopied := (NamespaceTree.sameAt_of_copyNodes hcopy (hopened.holds hholds)).2 hnot
  have hentry : ((importInto other mapping).after
      { c with namespaces := t' }).namespaces.table.get? ns = t'.table.get? ns :=
    Compiling.importInto_spares (Compiling.overlooks_entryOf ns)
      (fun q hq hx => hnot (hx ▸ hq)) _
  rw [hafter, NamespaceTree.SameAt, hentry]
  exact hopened.trans hcopied

/-- The compilation under other settings. -/
def under (config : Config) (c : Compilation) : Compilation := { c with config := config }

theorem Closed.under (h : c.Closed) (config : Config) : (c.under config).Closed := { h with }

/-- From a place outside of the import everything looks as before, under whatever settings. -/
theorem Reachable.mount_looksAlike (hc : c.Reachable) (hother : other.Reachable)
    (hofits : other.Fits) (hfits : ((Compiling.mount other path).after c).Fits)
    (hns : c.SpaceAt q ns) (hout : ¬ path <+: q) (config : Config) :
    (c.under config).LooksAlike (((Compiling.mount other path).after c).under config) ns := by
  have hgrows := (Compiling.mount_runs hc.intact hother.intact path).1.grows
  have hlinked := hc.linked (hgrows.fits hfits)
  have hholds := hlinked.holds hns
  refine ⟨rfl, hholds, fun x hx => ?_, fun x hx => ?_, hgrows.definitions⟩
  · exact hgrows.namespaces_outward (NamespaceTree.holds_of_mem_outward hholds hx)
  · obtain ⟨before, hbefore, hx⟩ := (hlinked.mem_outward_iff hns).1 hx
    exact hc.mount_sameAt hother hofits hfits hx fun hin => hout (hin.trans hbefore)

/-- Rules that come along do not reach a place outside of the import. -/
theorem Union.violation_eq {mapping : List NamespaceId} (h : Union c other path mapping c')
    (hgrows : c.Grows c') (hlinked : c.namespaces.Linked) (hlinked' : c'.namespaces.Linked)
    (hns : c.SpaceAt q ns) (hout : ¬ path <+: q) {scope : ScopeId}
    (hscope : c.scopes.table.Holds scope) (target : Use) :
    c'.violation ⟨scope, ns⟩ target = c.violation ⟨scope, ns⟩ target := by
  have hsite : UseSite.Within c.environment ⟨scope, ns⟩ := ⟨hscope, hlinked.holds hns⟩
  have harrived : ∀ r ∈ other.rules.filterMap (Rule.relocated mapping),
      ∃ x, r.site = .within x ∧ x ∉ c'.namespaces.outward ns := by
    intro r hr
    obtain ⟨r₀, hr₀, hr⟩ := List.mem_filterMap.1 hr
    cases hr₀' : r₀.site with
    | scope s => simp [Rule.relocated, hr₀'] at hr
    | within o =>
      obtain ⟨p, x, -, hx, hrelocated⟩ := h.rules_placed r₀ hr₀ o hr₀'
      obtain rfl := Option.some.inj (hr.symm.trans hrelocated)
      refine ⟨x, rfl, fun hmem => ?_⟩
      obtain ⟨before, hbefore, hleads⟩ :=
        (hlinked'.mem_outward_iff (h.spaces_kept q ns hns)).1 hmem
      obtain rfl := hlinked'.leads_unique hleads hx
      exact hout ((List.prefix_append path p).trans hbefore)
  have hwithin : (other.rules.filterMap (Rule.relocated mapping)).find?
      (Rule.deniesIn (c'.namespaces.outward ns) target) = none := by
    refine List.find?_eq_none.2 fun r hr => ?_
    obtain ⟨x, hsite, hx⟩ := harrived r hr
    simp [Rule.deniesIn, hsite, hx]
  have hscoped (s : ScopeId) : (other.rules.filterMap (Rule.relocated mapping)).find?
      (Rule.deniesAt s target) = none := by
    refine List.find?_eq_none.2 fun r hr => ?_
    obtain ⟨x, hsite, -⟩ := harrived r hr
    simp [Rule.deniesAt, hsite]
  rw [Compilation.violation_eq (hgrows.within hsite), Compilation.violation_eq hsite, h.rules,
    h.scopes, ← hgrows.namespaces_outward hsite.home]
  simp only [List.find?_append, hwithin, hscoped, Option.or_none]

/-- An import below `path` changes nothing for a namespace that is neither at that path nor further
inside: what a bare name means there under any settings, or why it means nothing; what is denied
there, in any scope; and which definitions are visible there. -/
theorem Reachable.mount_confined (hc : c.Reachable) (hother : other.Reachable)
    (hofits : other.Fits) (path : List String)
    (hfits : ((Compiling.mount other path).after c).Fits) (hns : c.SpaceAt q ns)
    (hout : ¬ path <+: q) :
    (∀ config n expected, n.path = [] →
      (((Compiling.mount other path).after c).under config).library.resolve ns n expected =
        (c.under config).library.resolve ns n expected) ∧
    (∀ scope target, c.scopes.table.Holds scope →
      ((Compiling.mount other path).after c).violation ⟨scope, ns⟩ target =
        c.violation ⟨scope, ns⟩ target) ∧
    ∀ scope k, ((Compiling.mount other path).after c).visible ⟨scope, ns⟩ k =
      c.visible ⟨scope, ns⟩ k := by
  have hgrows := (Compiling.mount_runs hc.intact hother.intact path).1.grows
  have hcfits := hgrows.fits hfits
  have halike := hc.mount_looksAlike hother hofits hfits hns hout
  refine ⟨fun config n expected hbare => ?_, fun scope target hscope => ?_, fun scope k => ?_⟩
  · exact (halike config).resolve_eq (hc.intact.toClosed.under config) (hc.filed hcfits) hbare
      expected
  · obtain ⟨-, mapping, h⟩ := hc.mount_union hother hofits path hfits
    exact h.violation_eq hgrows (hc.linked hcfits) ((hc.mount path hother).linked hfits) hns hout
      hscope target
  · exact (halike c.config).visible_eq (hc.filed hcfits)

end Compilation

/-- A box of its own, and an empty library. -/
def hall : Compilation :=
  Operation.afterAll
    [.addGroup ⟨.custom, .style, "Box"⟩ (.empty .style) [] .empty none,
      .openNamespacePath ["lib"], .closeNamespace]
    (.initial .initial)

/-- The box outside stays what the name means at the root, whatever comes into the library. -/
theorem mount_confined_hall :
    hall.Reachable ∧ stock.Reachable ∧ stock.Fits ∧
    ((Compiling.mount stock ["lib"]).after hall).Fits ∧ hall.SpaceAt [] .root ∧
    ((∀ config n expected, n.path = [] →
      (((Compiling.mount stock ["lib"]).after hall).under config).library.resolve .root n expected =
        (hall.under config).library.resolve .root n expected) ∧
    (∀ scope target, hall.scopes.table.Holds scope →
      ((Compiling.mount stock ["lib"]).after hall).violation ⟨scope, .root⟩ target =
        hall.violation ⟨scope, .root⟩ target) ∧
    ∀ scope k, ((Compiling.mount stock ["lib"]).after hall).visible ⟨scope, .root⟩ k =
      hall.visible ⟨scope, .root⟩ k) ∧
    hall.library.resolve .root (.ofKind .style "Box") .any = .ok ⟨0⟩ ∧
    ((Compiling.mount stock ["lib"]).after hall).library.resolve ⟨1⟩ (.ofKind .style "Box") .any =
      .ok ⟨1⟩ := by
  have hhall : hall.Reachable := (Compilation.Reachable.initial .initial).afterAll _
  have hstock : stock.Reachable := (Compilation.Reachable.initial .initial).afterAll _
  have hofits : stock.Fits := ⟨by decide +kernel, by decide +kernel⟩
  have hfits : ((Compiling.mount stock ["lib"]).after hall).Fits :=
    ⟨by decide +kernel, by decide +kernel⟩
  have hroot : hall.SpaceAt [] .root := NamespaceTree.leads_nil.2 rfl
  exact ⟨hhall, hstock, hofits, hfits, hroot,
    hhall.mount_confined hstock hofits ["lib"] hfits hroot (by decide), by decide +kernel,
    by decide +kernel⟩

end Stencil
