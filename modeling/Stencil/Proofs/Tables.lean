import Stencil.Compilation.Basic

/-! # Ids that point into their tables

Namespaces, definitions, scopes and rules refer to each other by ids. A compilation is closed if every
id that is stored in it points into its table. Along parents the ids also get older, so that the way
outwards ends.
-/
namespace Stencil

namespace Arena

variable {t : Table} {α : Type} {a : Arena t α} {id : Id t} {x : α} {P Q : Id t → α → Prop}

/-- The id points into the table. -/
def Holds (a : Arena t α) (id : Id t) : Prop := id.index < a.size

instance (a : Arena t α) (id : Id t) : Decidable (a.Holds id) :=
  inferInstanceAs (Decidable (id.index < a.size))

theorem holds_of_get? (h : a.get? id = some x) : a.Holds id := lt_size_of_get? h

theorem Holds.exists_get? (h : a.Holds id) : ∃ x, a.get? id = some x := by
  rw [Holds, size] at h
  exact ⟨a.entries[id.index], by simp [get?, h]⟩

theorem find_of_get? (h : a.get? id = some x) : a.find id = .ok x := by
  simp [find, h]

theorem get?_of_find (h : a.find id = .ok x) : a.get? id = some x := by
  unfold find at h
  split at h
  · rename_i hget
    rw [hget, Except.ok.inj h]
  · cases h

@[simp] theorem holds_modify {f : α → α} {id' : Id t} : (a.modify id' f).Holds id ↔ a.Holds id := by
  simp [Holds]

theorem get?_modify_self (f : α → α) (h : a.get? id = some x) :
    (a.modify id f).get? id = some (f x) := by
  rw [get?_modify, if_pos rfl, h]
  rfl

theorem nextId_index_le (a : Arena t α) : a.nextId.index ≤ a.size := Nat.mod_le _ _

theorem holds_nextId (a : Arena t α) (x : α) : (a.push x).Holds a.nextId := by
  rw [Holds, size_push]
  exact Nat.lt_succ_of_le a.nextId_index_le

/-- The next id is the place of the next entry as long as the ids suffice. -/
theorem nextId_of_le (h : (a.push x).size ≤ idLimit) : a.nextId = ⟨a.size⟩ := by
  rw [size_push] at h
  exact Id.ofIndex_of_lt h

theorem get?_push_nextId (h : (a.push x).size ≤ idLimit) :
    (a.push x).get? a.nextId = some x := by
  rw [get?_push, nextId_of_le h, if_pos rfl]

theorem size_le_of_holds {a' : Arena t α} (h : ∀ id, a.Holds id → a'.Holds id) :
    a.size ≤ a'.size :=
  Nat.le_of_not_lt fun hlt => Nat.lt_irrefl _ (h ⟨a'.size⟩ hlt)

/-- Every entry satisfies `P` with its id. -/
def All (a : Arena t α) (P : Id t → α → Prop) : Prop := ∀ id x, a.get? id = some x → P id x

theorem All.mono (h : a.All P) (hPQ : ∀ id x, P id x → Q id x) : a.All Q :=
  fun id x hx => hPQ id x (h id x hx)

theorem All.push (h : a.All P) (hx : ∀ id : Id t, id.index = a.size → P id x) :
    (a.push x).All P := by
  intro id y hy
  rw [get?_push] at hy
  split at hy
  · rename_i hid
    obtain rfl := Option.some.inj hy
    exact hx id hid
  · exact h id y hy

theorem All.singleton (h : P ⟨0⟩ x) : (⟨#[x]⟩ : Arena t α).All P := by
  rintro ⟨i⟩ y hy
  obtain ⟨hi, rfl⟩ := Array.getElem?_eq_some_iff.1 hy
  obtain rfl : i = 0 := Nat.lt_one_iff.1 hi
  exact h

theorem All.modify {f : α → α} (h : a.All P)
    (hf : ∀ x, a.get? id = some x → P id x → P id (f x)) : (a.modify id f).All P := by
  intro id' y hy
  rw [get?_modify] at hy
  split at hy
  · rename_i hid
    subst hid
    obtain ⟨x, hx, rfl⟩ := Option.map_eq_some_iff.1 hy
    exact hf x hx (h id x hx)
  · exact h id' y hy

/-! ## The way outwards -/

variable {parent : α → Option (Id t)} {p q : Id t}

/-- The ids from `id` along parents, as long as these are older. -/
def chain (a : Arena t α) (parent : α → Option (Id t)) (id : Id t) : List (Id t) :=
  match (a.get? id).bind parent with
  | none => [id]
  | some p => if p.index < id.index then id :: a.chain parent p else [id]
termination_by id.index

theorem mem_chain_self (a : Arena t α) (parent : α → Option (Id t)) (id : Id t) :
    id ∈ a.chain parent id := by
  rw [chain]
  split
  · simp
  · split <;> simp

theorem mem_chain_parent (hx : a.get? id = some x) (hp : parent x = some p)
    (hlt : p.index < id.index) : p ∈ a.chain parent id := by
  rw [chain, hx, Option.bind_some, hp]
  simp [hlt, mem_chain_self]

theorem index_le_of_mem_chain (h : p ∈ a.chain parent id) : p.index ≤ id.index := by
  fun_induction a.chain parent id with
  | case1 id _ => simp_all
  | case2 id q _ hq ih =>
    rcases List.mem_cons.1 h with rfl | h
    · exact Nat.le_refl _
    · exact Nat.le_trans (ih h) (Nat.le_of_lt hq)
  | case3 id q _ hq => simp_all

theorem holds_of_mem_chain (hid : a.Holds id) (h : p ∈ a.chain parent id) : a.Holds p :=
  Nat.lt_of_le_of_lt (index_le_of_mem_chain h) hid

theorem mem_chain_trans (hp : p ∈ a.chain parent q) (hq : q ∈ a.chain parent id) :
    p ∈ a.chain parent id := by
  fun_induction a.chain parent id with
  | case1 id h =>
    obtain rfl := List.mem_singleton.1 hq
    rw [chain, h] at hp
    exact hp
  | case2 id r h hr ih =>
    rcases List.mem_cons.1 hq with rfl | hq
    · rw [chain, h] at hp
      simpa [hr] using hp
    · exact List.mem_cons_of_mem _ (ih hq)
  | case3 id r h hr =>
    obtain rfl := List.mem_singleton.1 hq
    rw [chain, h] at hp
    simpa [hr] using hp

/-- An id from which something else is on the way outwards is in the table. -/
theorem holds_of_chain (hp : a.Holds p) (h : p ∈ a.chain parent id) : a.Holds id := by
  cases hx : a.get? id with
  | some x => exact holds_of_get? hx
  | none =>
    rw [chain, hx] at h
    exact List.mem_singleton.1 h ▸ hp

/-- The way outwards depends on the parents only. -/
theorem chain_congr {a' : Arena t α}
    (h : ∀ id, (a'.get? id).bind parent = (a.get? id).bind parent) (id : Id t) :
    a'.chain parent id = a.chain parent id := by
  fun_induction a.chain parent id with
  | case1 id hnone => rw [chain, h, hnone]
  | case2 id p hsome hp ih => rw [chain, h, hsome]; simp [hp, ih]
  | case3 id p hsome hp => rw [chain, h, hsome]; simp [hp]

/-- Entries that are added later do not change the way outwards. -/
theorem chain_of_grows {a' : Arena t α} (h : ∀ id x, a.get? id = some x →
    ∃ x', a'.get? id = some x' ∧ parent x' = parent x) (hid : a.Holds id) :
    a'.chain parent id = a.chain parent id := by
  fun_induction a.chain parent id with
  | case1 id hnone =>
    obtain ⟨x, hx⟩ := hid.exists_get?
    obtain ⟨x', hx', hparent⟩ := h id x hx
    rw [hx, Option.bind_some] at hnone
    rw [chain, hx', Option.bind_some, hparent, hnone]
  | case2 id p hsome hp ih =>
    obtain ⟨x, hx⟩ := hid.exists_get?
    obtain ⟨x', hx', hparent⟩ := h id x hx
    rw [hx, Option.bind_some] at hsome
    rw [chain, hx', Option.bind_some, hparent, hsome]
    simp [hp, ih (Nat.lt_trans hp hid)]
  | case3 id p hsome hp =>
    obtain ⟨x, hx⟩ := hid.exists_get?
    obtain ⟨x', hx', hparent⟩ := h id x hx
    rw [hx, Option.bind_some] at hsome
    rw [chain, hx', Option.bind_some, hparent, hsome]
    simp [hp]

end Arena

theorem Scopes.outward_eq (s : Scopes) (id : ScopeId) :
    s.outward id = s.table.chain Scope.parent id := by
  fun_induction s.outward id with
  | case1 id h => rw [Arena.chain, h]
  | case2 id p h hp ih => rw [Arena.chain, h]; simp [hp, ih]
  | case3 id p h hp => rw [Arena.chain, h]; simp [hp]

theorem NamespaceTree.outward_eq (t : NamespaceTree) (id : NamespaceId) :
    t.outward id = t.table.chain Namespace.parent id := by
  fun_induction t.outward id with
  | case1 id h => rw [Arena.chain, h]
  | case2 id p h hp ih => rw [Arena.chain, h]; simp [hp, ih]
  | case3 id p h hp => rw [Arena.chain, h]; simp [hp]

/-- What the name stands for is among so many namespaces and definitions. -/
def Meaning.Within (spaces defs : Nat) : Meaning → Prop
  | .definition id => id.index < defs
  | .space id => id.index < spaces

theorem Meaning.Within.mono {s s' d d' : Nat} {m : Meaning} (h : m.Within s d) (hs : s ≤ s')
    (hd : d ≤ d') : m.Within s' d' := by
  cases m with
  | definition id => exact Nat.lt_of_lt_of_le h hd
  | space id => exact Nat.lt_of_lt_of_le h hs

/-- All that the namespace `id` refers to is among so many namespaces and definitions, and its
parent is older. -/
structure Namespace.Within (spaces defs : Nat) (id : NamespaceId) (n : Namespace) : Prop where
  parent : ∀ p, n.parent = some p → p.index < id.index
  children : ∀ name child, n.children.get? name = some child → child.index < spaces
  definitions : ∀ identity d, n.definitions.get? identity = some d → d.index < defs
  aliases : ∀ name m, n.aliases.get? name = some m → m.Within spaces defs

theorem Namespace.Within.mono {s s' d d' : Nat} {id : NamespaceId} {n : Namespace}
    (h : n.Within s d id) (hs : s ≤ s') (hd : d ≤ d') : n.Within s' d' id where
  parent := h.parent
  children name child hc := Nat.lt_of_lt_of_le (h.children name child hc) hs
  definitions identity id hid := Nat.lt_of_lt_of_le (h.definitions identity id hid) hd
  aliases name m hm := (h.aliases name m hm).mono hs hd

/-- All that the scope `id` refers to is in the tables, and its parent is older. -/
structure Scope.Within (scopes spaces defs : Nat) (id : ScopeId) (s : Scope) : Prop where
  parent : ∀ p, s.parent = some p → p.index < id.index
  home : s.home.index < spaces
  children : ∀ child ∈ s.children, child.index < scopes
  meanings : ∀ name m, s.meanings.get? name = some m → m.Within spaces defs

theorem Scope.Within.mono {k k' s s' d d' : Nat} {id : ScopeId} {x : Scope}
    (h : x.Within k s d id) (hk : k ≤ k') (hs : s ≤ s') (hd : d ≤ d') :
    x.Within k' s' d' id where
  parent := h.parent
  home := Nat.lt_of_lt_of_le h.home hs
  children child hc := Nat.lt_of_lt_of_le (h.children child hc) hk
  meanings name m hm := (h.meanings name m hm).mono hs hd

def RuleSite.Within (scopes spaces : Nat) : RuleSite → Prop
  | .scope id => id.index < scopes
  | .within id => id.index < spaces

theorem RuleSite.Within.mono {k k' s s' : Nat} {site : RuleSite} (h : site.Within k s)
    (hk : k ≤ k') (hs : s ≤ s') : site.Within k' s' := by
  cases site with
  | scope id => exact Nat.lt_of_lt_of_le h hk
  | within id => exact Nat.lt_of_lt_of_le h hs

/-- Every id that is stored in the namespaces and definitions points into its table. -/
structure Library.Closed (l : Library) : Prop where
  namespaces : l.namespaces.table.All
    (Namespace.Within l.namespaces.table.size l.definitions.size)
  definitions : l.definitions.All fun _ d => d.home.index < l.namespaces.table.size

/-- The place is in the tables. -/
structure UseSite.Within (env : Environment) (site : UseSite) : Prop where
  scope : env.scopes.table.Holds site.scope
  home : env.library.namespaces.table.Holds site.home

namespace Compilation

/-- Every id that is stored in the compilation points into its table. -/
structure Closed (c : Compilation) : Prop where
  namespaces : c.namespaces.table.All
    (Namespace.Within c.namespaces.table.size c.definitions.size)
  definitions : c.definitions.All fun _ d =>
    d.home.index < c.namespaces.table.size ∧ d.scope.index < c.scopes.table.size
  scopes : c.scopes.table.All
    (Scope.Within c.scopes.table.size c.namespaces.table.size c.definitions.size)
  rules : ∀ r ∈ c.rules, r.site.Within c.scopes.table.size c.namespaces.table.size
  current : c.scopes.table.Holds c.scopes.current
  root : c.namespaces.table.Holds NamespaceId.root
  fileScope : ∀ s, c.fileScope = some s → c.scopes.table.Holds s

variable {c : Compilation}

theorem Closed.library (h : c.Closed) : c.library.Closed where
  namespaces := h.namespaces
  definitions := h.definitions.mono fun _ _ hd => hd.1

theorem Closed.global (h : c.Closed) : c.scopes.table.Holds ScopeId.global :=
  Nat.lt_of_le_of_lt (Nat.zero_le _) h.current

/-- The tables of namespaces and definitions have no more entries than there are ids. -/
structure Fits (c : Compilation) : Prop where
  namespaces : c.namespaces.table.size ≤ idLimit
  definitions : c.definitions.size ≤ idLimit

end Compilation
end Stencil
