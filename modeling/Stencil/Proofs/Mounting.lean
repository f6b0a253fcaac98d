import Stencil.Proofs.Opening

/-! # What an import leaves

An import adds to the tables of the namespaces what they do not have yet. Of two that both sides have,
the one that was there stays, and each such conflict is told once.
-/
namespace Stencil

open Compilation

namespace NamespaceTree

variable {t : NamespaceTree} {ns : NamespaceId} {n : Namespace}

theorem definition?_of_get? (hn : t.table.get? ns = some n) (identity : Identity) :
    t.definition? ns identity = n.definitions.get? identity := by
  rw [definition?, hn, Option.bind_some]

theorem alias?_of_get? (hn : t.table.get? ns = some n) (name : String) :
    t.alias? ns name = n.aliases.get? name := by
  rw [alias?, hn, Option.bind_some]

theorem definition?_insertDefinition (hn : t.table.get? ns = some n) (identity : Identity)
    (id : DefId) (x : NamespaceId) (other : Identity) :
    (t.insertDefinition ns identity id).definition? x other =
      if x = ns ∧ other = identity then some id else t.definition? x other := by
  simp only [definition?, insertDefinition, modify, Arena.get?_modify]
  by_cases hx : ns = x
  · subst hx
    simp only [if_pos, hn, Option.map_some, Option.bind_some, OrderedMap.get?_insert, true_and]
    by_cases hi : identity = other <;> simp [hi, eq_comm]
  · simp [hx, Ne.symm hx]

theorem alias?_insertDefinition (t : NamespaceTree) (ns : NamespaceId) (identity : Identity)
    (id : DefId) : (t.insertDefinition ns identity id).alias? = t.alias? := by
  funext x name
  exact bind_modify (f := fun n => { n with definitions := n.definitions.insert identity id })
    (fun _ => rfl) ns x

theorem definition?_insertAlias (t : NamespaceTree) (ns : NamespaceId) (name : String)
    (m : Meaning) : (t.insertAlias ns name m).definition? = t.definition? := by
  funext x identity
  exact bind_modify (f := fun n => { n with aliases := n.aliases.insert name m }) (fun _ => rfl) ns x

theorem alias?_insertAlias (hn : t.table.get? ns = some n) (name : String) (m : Meaning)
    (x : NamespaceId) (other : String) :
    (t.insertAlias ns name m).alias? x other =
      if x = ns ∧ other = name then some m else t.alias? x other := by
  simp only [alias?, insertAlias, modify, Arena.get?_modify]
  by_cases hx : ns = x
  · subst hx
    simp only [if_pos, hn, Option.map_some, Option.bind_some, OrderedMap.get?_insert, true_and]
    by_cases hi : name = other <;> simp [hi, eq_comm]
  · simp [hx, Ne.symm hx]

end NamespaceTree

namespace Compilation

/-- What is told of an imported definition if `c` has its identity at the place; `t` names the
place. -/
def duplicateOf (c other : Compilation) (t : NamespaceTree) (e : NamespaceId × DefId) :
    Option Diagnostic :=
  (other.definitions.get? e.2).bind fun d =>
    if (c.namespaces.definition? e.1 d.identity).isSome then
      some (.ofError (.duplicate d.identity.render (t.title e.1)) d.span)
    else none

/-- What is told of an imported alias if `c` has one of that name at the place. -/
def duplicateAlias (c : Compilation) (t : NamespaceTree) (e : NamespaceId × String × Meaning) :
    Option Diagnostic :=
  if (c.namespaces.alias? e.1 e.2.1).isSome then
    some (.ofError (.duplicate ("alias " ++ e.2.1) (t.title e.1)) none)
  else none

/-- A definition that is imported, as it is stored at the place. -/
def copyOf (other : Compilation) (e : NamespaceId × DefId) : Option Definition :=
  (other.definitions.get? e.2).map (·.movedTo e.1)

/-- Neither the settings nor scopes nor rules have changed. -/
structure SameFrame (c c' : Compilation) : Prop where
  config : c'.config = c.config
  scopes : c'.scopes = c.scopes
  rules : c'.rules = c.rules
  fileScope : c'.fileScope = c.fileScope

theorem SameFrame.refl (c : Compilation) : c.SameFrame c := ⟨rfl, rfl, rfl, rfl⟩

end Compilation

/-- Where a rule of an imported compilation holds afterwards, if it is one for a namespace. -/
def Rule.relocated (mapping : List NamespaceId) (r : Rule) : Option Rule :=
  match r.site with
  | .scope _ => none
  | .within ns => mapping[ns.index]?.map fun target => { r with site := .within target }

namespace Compiling

variable {α β : Type} {c c' base other : Compilation} {x : Compiling α} {f : α → Compiling β}
  {moved moved' : Moved}

theorem run_bind_of_ok {a : α} (h : x.run c = (.ok a, c')) : (x >>= f).run c = (f a).run c' := by
  rw [run_bind, outcome, after, h]

/-! ## Definitions -/

/-- The definitions in `done` have been imported into `base`, and `moved` has those that stand for
them. -/
structure Copying (base other : Compilation) (done : List (NamespaceId × DefId)) (moved : Moved)
    (c : Compilation) : Prop where
  frame : base.SameFrame c
  diagnostics : c.diagnostics =
    base.diagnostics ++ done.filterMap (base.duplicateOf other base.namespaces)
  outline : base.namespaces.SameOutline c.namespaces
  aliases : c.namespaces.alias? = base.namespaces.alias?
  entries : c.definitions.entries.toList =
    base.definitions.entries.toList ++ done.filterMap other.copyOf
  table : ∀ ns identity id, c.namespaces.definition? ns identity = some id ↔
    base.namespaces.definition? ns identity = some id ∨
    base.namespaces.definition? ns identity = none ∧ ∃ old d, (ns, old) ∈ done ∧
      other.definitions.get? old = some d ∧ d.identity = identity ∧ moved.get? old = some id
  kept : ∀ ns old d id, (ns, old) ∈ done → other.definitions.get? old = some d →
    base.namespaces.definition? ns d.identity = some id → moved.get? old = some id
  copied : ∀ ns old d, (ns, old) ∈ done → other.definitions.get? old = some d →
    base.namespaces.definition? ns d.identity = none → ∃ id, moved.get? old = some id ∧
      (c.definitions.size ≤ idLimit →
        ¬ base.definitions.Holds id ∧ c.definitions.get? id = some (d.movedTo ns))

namespace Copying

theorem start (base other : Compilation) : Copying base other [] .empty base where
  frame := .refl base
  diagnostics := by simp
  outline := .refl _
  aliases := rfl
  entries := by simp
  table ns identity id := by simp
  kept := nofun
  copied := nofun

variable {done : List (NamespaceId × DefId)} {target : NamespaceId} {old : DefId} {d : Definition}

/-- What was stored is still there. -/
theorem stored (h : Copying base other done moved c) {id : DefId} {d : Definition}
    (hd : base.definitions.get? id = some d) : c.definitions.get? id = some d := by
  have hlt : id.index < base.definitions.entries.toList.length := by
    rw [Array.length_toList]
    exact Arena.lt_size_of_get? hd
  rw [Arena.get?, ← Array.getElem?_toList] at hd ⊢
  rw [h.entries, List.getElem?_append_left hlt, hd]

theorem entries_push (h : Copying base other done moved c)
    (hd : other.definitions.get? old = some d) (target : NamespaceId) :
    (c.definitions.push (d.movedTo target)).entries.toList =
      base.definitions.entries.toList ++ (done ++ [(target, old)]).filterMap other.copyOf := by
  have hcopy : other.copyOf (target, old) = some (d.movedTo target) := by simp [copyOf, hd]
  rw [Arena.push, Array.toList_push, h.entries, List.filterMap_append, List.append_assoc]
  simp [hcopy]

/-- The identity that is imported is not one of those imported before. -/
def New (other : Compilation) (done : List (NamespaceId × DefId)) (target : NamespaceId)
    (old : DefId) (d : Definition) : Prop :=
  ∀ ns old' d', (ns, old') ∈ done → other.definitions.get? old' = some d' →
    old' ≠ old ∧ ¬ (ns = target ∧ d'.identity = d.identity)

theorem get?_insert_of_new {moved : Moved} (hnew : New other done target old d) {ns : NamespaceId}
    {old' : DefId} {d' : Definition} (hmem : (ns, old') ∈ done)
    (hd' : other.definitions.get? old' = some d') (id : DefId) :
    (moved.insert old id).get? old' = moved.get? old' := by
  rw [OrderedMap.get?_insert, if_neg]
  exact fun heq => (hnew ns old' d' hmem hd').1 heq.symm

theorem definition?_of_new (h : Copying base other done moved c)
    (hnew : New other done target old d) :
    c.namespaces.definition? target d.identity = base.namespaces.definition? target d.identity := by
  apply Option.ext
  intro id
  rw [h.table]
  constructor
  · rintro (hid | ⟨-, old', d', hmem, hd', hidentity, -⟩)
    · exact hid
    · exact absurd ⟨rfl, hidentity⟩ (hnew target old' d' hmem hd').2
  · exact .inl

theorem mem_concat {ns : NamespaceId} {old' : DefId} :
    (ns, old') ∈ done ++ [(target, old)] ↔ (ns, old') ∈ done ∨ ns = target ∧ old' = old := by
  simp [List.mem_append]

/-- The table of one more definition, for what stands for the ones before. -/
theorem imported_iff {moved : Moved} (hnew : New other done target old d)
    (hd : other.definitions.get? old = some d) {ns : NamespaceId} {identity : Identity}
    {id new : DefId} :
    (∃ old' d', (ns, old') ∈ done ++ [(target, old)] ∧ other.definitions.get? old' = some d' ∧
      d'.identity = identity ∧ (moved.insert old new).get? old' = some id) ↔
    (∃ old' d', (ns, old') ∈ done ∧ other.definitions.get? old' = some d' ∧
      d'.identity = identity ∧ moved.get? old' = some id) ∨
    ns = target ∧ d.identity = identity ∧ new = id := by
  constructor
  · rintro ⟨old', d', hmem, hd', hidentity, hid⟩
    rcases mem_concat.1 hmem with hmem | ⟨rfl, rfl⟩
    · rw [get?_insert_of_new hnew hmem hd'] at hid
      exact .inl ⟨old', d', hmem, hd', hidentity, hid⟩
    · obtain rfl := Option.some.inj (hd.symm.trans hd')
      rw [OrderedMap.get?_insert, if_pos rfl] at hid
      exact .inr ⟨rfl, hidentity, Option.some.inj hid⟩
  · rintro (⟨old', d', hmem, hd', hidentity, hid⟩ | ⟨rfl, hidentity, rfl⟩)
    · refine ⟨old', d', mem_concat.2 (.inl hmem), hd', hidentity, ?_⟩
      rw [get?_insert_of_new hnew hmem hd']
      exact hid
    · refine ⟨old, d, mem_concat.2 (.inr ⟨rfl, rfl⟩), hd, hidentity, ?_⟩
      rw [OrderedMap.get?_insert, if_pos rfl]

theorem get?_push_of_some {a : Definitions} {id : DefId} {x : Definition} (y : Definition)
    (h : a.get? id = some x) : (a.push y).get? id = some x := by
  rw [Arena.get?_push, if_neg (Nat.ne_of_lt (Arena.lt_size_of_get? h))]
  exact h

/-- A copy that was made before is still there. -/
theorem copied_push (h : Copying base other done moved c) (hnew : New other done target old d)
    {ns : NamespaceId} {old' : DefId} {d' : Definition} (hmem : (ns, old') ∈ done)
    (hd' : other.definitions.get? old' = some d')
    (hnone : base.namespaces.definition? ns d'.identity = none) (new : DefId) (y : Definition) :
    ∃ id, (moved.insert old new).get? old' = some id ∧
      ((c.definitions.push y).size ≤ idLimit →
        ¬ base.definitions.Holds id ∧ (c.definitions.push y).get? id = some (d'.movedTo ns)) := by
  obtain ⟨id, hid, hcopy⟩ := h.copied ns old' d' hmem hd' hnone
  refine ⟨id, by rw [get?_insert_of_new hnew hmem hd', hid], fun hfits => ?_⟩
  rw [Arena.size_push] at hfits
  obtain ⟨hfresh, hstored⟩ := hcopy (Nat.le_of_succ_le hfits)
  exact ⟨hfresh, get?_push_of_some y hstored⟩

/-- The identity is there: the imported definition is stored but not registered. -/
theorem step_of_some (h : Copying base other done moved c)
    (hd : other.definitions.get? old = some d) (hnew : New other done target old d) {kept : DefId}
    (hkept : base.namespaces.definition? target d.identity = some kept) :
    Copying base other (done ++ [(target, old)]) (moved.insert old kept) { c with
      definitions := c.definitions.push (d.movedTo target)
      session := c.session.reporting
        (.duplicate d.identity.render (c.namespaces.title target)) d.span } where
  frame := { h.frame with }
  diagnostics := by
    have htold : base.duplicateOf other base.namespaces (target, old) = some (.ofError
        (.duplicate d.identity.render (c.namespaces.title target)) d.span) := by
      simp [duplicateOf, hd, hkept, h.outline.title_eq]
    rw [List.filterMap_append, ← List.append_assoc, ← h.diagnostics]
    simp only [List.filterMap_cons, List.filterMap_nil, htold]
    rfl
  outline := h.outline
  aliases := h.aliases
  entries := h.entries_push hd target
  table ns identity id := by
    rw [imported_iff hnew hd]
    refine (h.table ns identity id).trans (or_congr_right (and_congr_right fun hnone => ?_))
    refine ⟨.inl, ?_⟩
    rintro (hold | ⟨rfl, rfl, -⟩)
    · exact hold
    · rw [hkept] at hnone
      cases hnone
  kept ns old' d' id hmem hd' hid := by
    rcases mem_concat.1 hmem with hmem | ⟨rfl, rfl⟩
    · rw [get?_insert_of_new hnew hmem hd']
      exact h.kept ns old' d' id hmem hd' hid
    · obtain rfl := Option.some.inj (hd.symm.trans hd')
      rw [OrderedMap.get?_insert, if_pos rfl, ← hkept, hid]
  copied ns old' d' hmem hd' hnone := by
    rcases mem_concat.1 hmem with hmem | ⟨rfl, rfl⟩
    · exact h.copied_push hnew hmem hd' hnone kept _
    · obtain rfl := Option.some.inj (hd.symm.trans hd')
      rw [hkept] at hnone
      cases hnone

/-- The identity is not there: the imported definition is registered. -/
theorem step_of_none (h : Copying base other done moved c)
    (hd : other.definitions.get? old = some d) (hnew : New other done target old d) {n : Namespace}
    (hn : c.namespaces.table.get? target = some n)
    (hnone : base.namespaces.definition? target d.identity = none) :
    Copying base other (done ++ [(target, old)]) (moved.insert old c.definitions.nextId) { c with
      definitions := c.definitions.push (d.movedTo target)
      namespaces :=
        c.namespaces.insertDefinition target d.identity c.definitions.nextId } where
  frame := { h.frame with }
  diagnostics := by
    have htold : base.duplicateOf other base.namespaces (target, old) = none := by
      simp [duplicateOf, hd, hnone]
    rw [List.filterMap_append]
    simp only [List.filterMap_cons, List.filterMap_nil, htold, List.append_nil]
    exact h.diagnostics
  outline := h.outline.trans (.modify _ _ fun _ => rfl)
  aliases := (NamespaceTree.alias?_insertDefinition _ _ _ _).trans h.aliases
  entries := h.entries_push hd target
  table ns identity id := by
    rw [imported_iff hnew hd, NamespaceTree.definition?_insertDefinition hn]
    split
    · rename_i heq
      obtain ⟨rfl, rfl⟩ := heq
      constructor
      · exact fun hid => .inr ⟨hnone, .inr ⟨rfl, rfl, Option.some.inj hid⟩⟩
      · rintro (hid | ⟨-, ⟨old', d', hmem, hd', hidentity, -⟩ | ⟨-, -, rfl⟩⟩)
        · rw [hnone] at hid
          cases hid
        · exact absurd ⟨rfl, hidentity⟩ (hnew ns old' d' hmem hd').2
        · rfl
    · rename_i hne
      refine (h.table ns identity id).trans (or_congr_right (and_congr_right fun _ => ?_))
      refine ⟨.inl, ?_⟩
      rintro (hold | ⟨rfl, rfl, -⟩)
      · exact hold
      · exact absurd ⟨rfl, rfl⟩ hne
  kept ns old' d' id hmem hd' hid := by
    rcases mem_concat.1 hmem with hmem | ⟨rfl, rfl⟩
    · rw [get?_insert_of_new hnew hmem hd']
      exact h.kept ns old' d' id hmem hd' hid
    · obtain rfl := Option.some.inj (hd.symm.trans hd')
      rw [hnone] at hid
      cases hid
  copied ns old' d' hmem hd' hnone' := by
    rcases mem_concat.1 hmem with hmem | ⟨rfl, rfl⟩
    · exact h.copied_push hnew hmem hd' hnone' _ _
    · obtain rfl := Option.some.inj (hd.symm.trans hd')
      refine ⟨_, by rw [OrderedMap.get?_insert, if_pos rfl], fun hfits => ?_⟩
      refine ⟨?_, Arena.get?_push_nextId hfits⟩
      rw [Arena.nextId_of_le hfits]
      have hsize : base.definitions.size ≤ c.definitions.size := by
        refine Arena.size_le_of_holds fun id hid => ?_
        obtain ⟨x, hx⟩ := hid.exists_get?
        exact Arena.holds_of_get? (h.stored hx)
      exact Nat.not_lt_of_le hsize

theorem step (h : Copying base other done moved c) (hd : other.definitions.get? old = some d)
    (htarget : base.namespaces.table.Holds target) (hnew : New other done target old d) :
    ∃ moved' c', (importDefinition other target moved old).run c = (.ok moved', c') ∧
      Copying base other (done ++ [(target, old)]) moved' c' := by
  obtain ⟨n, hn⟩ := (h.outline.holds htarget).exists_get?
  have hsame := h.definition?_of_new hnew
  rw [NamespaceTree.definition?_of_get? hn] at hsame
  cases hkept : base.namespaces.definition? target d.identity with
  | some kept =>
    exact ⟨_, _, run_importDefinition_of_some moved hd hn (hsame.trans hkept),
      h.step_of_some hd hnew hkept⟩
  | none =>
    exact ⟨_, _, run_importDefinition_of_none moved hd hn (hsame.trans hkept),
      h.step_of_none hd hnew hn hkept⟩

end Copying

/-- Something stands for each definition that was imported, under its identity at the place. -/
theorem Copying.stands {done : List (NamespaceId × DefId)} (h : Copying base other done moved c)
    {ns : NamespaceId} {old : DefId} {d : Definition} (hmem : (ns, old) ∈ done)
    (hd : other.definitions.get? old = some d) :
    ∃ id, moved.get? old = some id ∧ c.namespaces.definition? ns d.identity = some id := by
  cases hkept : base.namespaces.definition? ns d.identity with
  | some id => exact ⟨id, h.kept ns old d id hmem hd hkept, (h.table ns d.identity id).2 (.inl hkept)⟩
  | none =>
    obtain ⟨id, hid, -⟩ := h.copied ns old d hmem hd hkept
    exact ⟨id, hid, (h.table ns d.identity id).2 (.inr ⟨hkept, old, d, hmem, hd, rfl, hid⟩)⟩

/-- No definition and no identity at one place is imported twice. -/
def Distinct (other : Compilation) (es : List (NamespaceId × DefId)) : Prop :=
  es.Pairwise fun e e' => e.2 ≠ e'.2 ∧ ∀ d d', other.definitions.get? e.2 = some d →
    other.definitions.get? e'.2 = some d' → ¬ (e.1 = e'.1 ∧ d.identity = d'.identity)

/-- The pass over the definitions. -/
theorem Copying.run {done es : List (NamespaceId × DefId)} (h : Copying base other done moved c)
    (hes : ∀ e ∈ es, base.namespaces.table.Holds e.1 ∧ other.definitions.Holds e.2)
    (hdistinct : Distinct other (done ++ es)) :
    ∃ moved' c', (es.foldlM (fun moved e => importDefinition other e.1 moved e.2) moved).run c =
      (.ok moved', c') ∧ Copying base other (done ++ es) moved' c' := by
  induction es generalizing done moved c with
  | nil => exact ⟨moved, c, rfl, by simpa using h⟩
  | cons e es ih =>
    obtain ⟨htarget, hold⟩ := hes e List.mem_cons_self
    obtain ⟨d, hd⟩ := hold.exists_get?
    have hnew : New other done e.1 e.2 d := by
      intro ns old' d' hmem hd'
      obtain ⟨hne, hkey⟩ := (List.pairwise_append.1 hdistinct).2.2 (ns, old') hmem e
        List.mem_cons_self
      exact ⟨hne, hkey d' d hd' hd⟩
    obtain ⟨moved₁, c₁, hrun, h₁⟩ := h.step hd htarget hnew
    rw [List.append_cons] at hdistinct ⊢
    obtain ⟨moved₂, c₂, hrun₂, h₂⟩ := ih h₁ (fun e' he' => hes e' (List.mem_cons_of_mem _ he'))
      hdistinct
    refine ⟨moved₂, c₂, ?_, h₂⟩
    rw [List.foldlM_cons, run_bind_of_ok hrun]
    exact hrun₂

/-! ## Aliases -/

/-- The aliases in `done` have been imported into `base`; `relocate` tells what they stand for. -/
structure Naming (base : Compilation) (moved : Moved) (mapping : List NamespaceId)
    (done : List (NamespaceId × String × Meaning)) (c : Compilation) : Prop where
  frame : base.SameFrame c
  diagnostics : c.diagnostics =
    base.diagnostics ++ done.filterMap (base.duplicateAlias base.namespaces)
  outline : base.namespaces.SameOutline c.namespaces
  definitions : c.namespaces.definition? = base.namespaces.definition?
  stored : c.definitions = base.definitions
  table : ∀ ns name m, c.namespaces.alias? ns name = some m ↔
    base.namespaces.alias? ns name = some m ∨
    base.namespaces.alias? ns name = none ∧ ∃ m₀, (ns, name, m₀) ∈ done ∧
      relocate moved mapping m₀ = .ok (some m)

namespace Naming

variable {mapping : List NamespaceId} {done : List (NamespaceId × String × Meaning)}
  {target : NamespaceId} {name : String} {m m' : Meaning}

theorem start (base : Compilation) (moved : Moved) (mapping : List NamespaceId) :
    Naming base moved mapping [] base where
  frame := .refl base
  diagnostics := by simp
  outline := .refl _
  definitions := rfl
  stored := rfl
  table ns name m := by simp

theorem alias?_of_new (h : Naming base moved mapping done c)
    (hnew : ∀ m, (target, name, m) ∉ done) :
    c.namespaces.alias? target name = base.namespaces.alias? target name := by
  apply Option.ext
  intro m
  rw [h.table]
  constructor
  · rintro (hm | ⟨-, m₀, hmem, -⟩)
    · exact hm
    · exact absurd hmem (hnew m₀)
  · exact .inl

theorem mem_concat {ns : NamespaceId} {name' : String} {m₀ : Meaning} :
    (ns, name', m₀) ∈ done ++ [(target, name, m)] ↔
      (ns, name', m₀) ∈ done ∨ ns = target ∧ name' = name ∧ m₀ = m := by
  simp [List.mem_append]

theorem step_of_some (h : Naming base moved mapping done c) {kept : Meaning}
    (hkept : base.namespaces.alias? target name = some kept) :
    Naming base moved mapping (done ++ [(target, name, m)]) { c with
      session := c.session.reporting
        (.duplicate ("alias " ++ name) (c.namespaces.title target)) none } where
  frame := { h.frame with }
  diagnostics := by
    have htold : base.duplicateAlias base.namespaces (target, name, m) = some (.ofError
        (.duplicate ("alias " ++ name) (c.namespaces.title target)) none) := by
      simp [duplicateAlias, hkept, h.outline.title_eq]
    rw [List.filterMap_append, ← List.append_assoc, ← h.diagnostics]
    simp only [List.filterMap_cons, List.filterMap_nil, htold]
    rfl
  outline := h.outline
  definitions := h.definitions
  stored := h.stored
  table ns name' m' := by
    refine (h.table ns name' m').trans (or_congr_right (and_congr_right fun hnone => ?_))
    simp only [mem_concat]
    constructor
    · rintro ⟨m₀, hmem, hm₀⟩
      exact ⟨m₀, .inl hmem, hm₀⟩
    · rintro ⟨m₀, hmem | ⟨rfl, rfl, -⟩, hm₀⟩
      · exact ⟨m₀, hmem, hm₀⟩
      · rw [hkept] at hnone
        cases hnone

theorem step_of_none (h : Naming base moved mapping done c)
    (hnew : ∀ m, (target, name, m) ∉ done) {n : Namespace}
    (hn : c.namespaces.table.get? target = some n)
    (hnone : base.namespaces.alias? target name = none)
    (hm : relocate moved mapping m = .ok (some m')) :
    Naming base moved mapping (done ++ [(target, name, m)]) { c with
      namespaces := c.namespaces.insertAlias target name m' } where
  frame := { h.frame with }
  diagnostics := by
    have htold : base.duplicateAlias base.namespaces (target, name, m) = none := by
      simp [duplicateAlias, hnone]
    rw [List.filterMap_append]
    simp only [List.filterMap_cons, List.filterMap_nil, htold, List.append_nil]
    exact h.diagnostics
  outline := h.outline.trans (.modify _ _ fun _ => rfl)
  definitions := (NamespaceTree.definition?_insertAlias _ _ _ _).trans h.definitions
  stored := h.stored
  table ns name' x := by
    rw [NamespaceTree.alias?_insertAlias hn]
    simp only [mem_concat]
    split
    · rename_i heq
      obtain ⟨rfl, rfl⟩ := heq
      constructor
      · exact fun hx => .inr ⟨hnone, m, .inr ⟨rfl, rfl, rfl⟩, Option.some.inj hx ▸ hm⟩
      · rintro (hx | ⟨-, m₀, hmem | ⟨-, -, rfl⟩, hm₀⟩)
        · rw [hnone] at hx
          cases hx
        · exact absurd hmem (hnew m₀)
        · exact Except.ok.inj (hm.symm.trans hm₀)
    · rename_i hne
      refine (h.table ns name' x).trans (or_congr_right (and_congr_right fun _ => ?_))
      constructor
      · rintro ⟨m₀, hmem, hm₀⟩
        exact ⟨m₀, .inl hmem, hm₀⟩
      · rintro ⟨m₀, hmem | ⟨rfl, rfl, -⟩, hm₀⟩
        · exact ⟨m₀, hmem, hm₀⟩
        · exact absurd ⟨rfl, rfl⟩ hne

theorem step (h : Naming base moved mapping done c) (htarget : base.namespaces.table.Holds target)
    (hnew : ∀ m, (target, name, m) ∉ done) (hm : relocate moved mapping m = .ok (some m')) :
    ∃ c', (importAlias moved mapping target (name, m)).run c = (.ok (), c') ∧
      Naming base moved mapping (done ++ [(target, name, m)]) c' := by
  obtain ⟨n, hn⟩ := (h.outline.holds htarget).exists_get?
  have hsame := h.alias?_of_new hnew
  rw [NamespaceTree.alias?_of_get? hn] at hsame
  cases hkept : base.namespaces.alias? target name with
  | some kept =>
    exact ⟨_, run_importAlias_of_some hm hn (hsame.trans hkept), h.step_of_some hkept⟩
  | none =>
    exact ⟨_, run_importAlias_of_none hm hn (hsame.trans hkept), h.step_of_none hnew hn hkept hm⟩

/-- The pass over the aliases. -/
theorem run {es : List (NamespaceId × String × Meaning)} (h : Naming base moved mapping done c)
    (hes : ∀ e ∈ es, base.namespaces.table.Holds e.1 ∧
      ∃ m, relocate moved mapping e.2.2 = .ok (some m))
    (hdistinct : (done ++ es).Pairwise fun e e' => ¬ (e.1 = e'.1 ∧ e.2.1 = e'.2.1)) :
    ∃ c', (es.forM fun e => importAlias moved mapping e.1 e.2).run c = (.ok (), c') ∧
      Naming base moved mapping (done ++ es) c' := by
  induction es generalizing done c with
  | nil => exact ⟨c, rfl, by simpa using h⟩
  | cons e es ih =>
    obtain ⟨htarget, m', hm⟩ := hes e List.mem_cons_self
    have hnew : ∀ m, (e.1, e.2.1, m) ∉ done := by
      intro m hmem
      exact (List.pairwise_append.1 hdistinct).2.2 _ hmem e List.mem_cons_self ⟨rfl, rfl⟩
    obtain ⟨c₁, hrun, h₁⟩ := h.step htarget hnew hm
    rw [List.append_cons] at hdistinct ⊢
    obtain ⟨c₂, hrun₂, h₂⟩ := ih h₁ (fun e' he' => hes e' (List.mem_cons_of_mem _ he')) hdistinct
    exact ⟨c₂, (run_bind_of_ok hrun).trans hrun₂, h₂⟩

end Naming

/-! ## Rules -/

theorem run_importRules {mapping : List NamespaceId} {rules : List Rule} {scopes : Nat}
    (h : ∀ r ∈ rules, r.site.Within scopes mapping.length) (c : Compilation) :
    (rules.forM (importRule mapping)).run c =
      (.ok (), { c with rules := c.rules ++ rules.filterMap (Rule.relocated mapping) }) := by
  induction rules generalizing c with
  | nil => simp; rfl
  | cons r rules ih =>
    have hrule : (importRule mapping r).run c =
        (.ok (), { c with rules := c.rules ++ (r.relocated mapping).toList }) := by
      have hr := h r List.mem_cons_self
      unfold importRule Rule.relocated
      cases hsite : r.site with
      | scope s => simp; rfl
      | within ns =>
        rw [hsite] at hr
        simp only [List.getElem?_eq_getElem hr]
        rfl
    have hrest := ih (fun r' hr' => h r' (List.mem_cons_of_mem _ hr'))
      { c with rules := c.rules ++ (r.relocated mapping).toList }
    have hrules : c.rules ++ (r.relocated mapping).toList ++
        rules.filterMap (Rule.relocated mapping) =
        c.rules ++ (r :: rules).filterMap (Rule.relocated mapping) := by
      cases hr : r.relocated mapping <;> simp [hr]
    rw [← hrules]
    exact (run_bind_of_ok hrule).trans hrest

end Compiling

/-! ## Nothing is imported twice -/

/-- Definitions of one namespace are registered under different identities. -/
theorem Namespace.pairwise_registered {n : Namespace} {R : DefId → DefId → Prop}
    (h : ∀ identity id identity' id', n.definitions.get? identity = some id →
      n.definitions.get? identity' = some id' → identity ≠ identity' → R id id') :
    n.registered.Pairwise R := by
  have hentry {e : Identity × DefId} {p : Identity × DefId → Bool}
      (he : e ∈ n.definitions.entries.filter p) : n.definitions.get? e.1 = some e.2 :=
    OrderedMap.get?_eq_some_iff.2 (List.mem_filter.1 he).1
  rw [registered, List.pairwise_flatMap]
  constructor
  · rintro ⟨origin, kind⟩ -
    have hkeys : n.definitions.entries.Pairwise fun e e' => e.1 ≠ e'.1 :=
      List.pairwise_map.1 n.definitions.nodup
    rw [List.pairwise_map]
    refine (hkeys.filter _).imp_of_mem fun he he' hne => ?_
    exact h _ _ _ _ (hentry he) (hentry he') hne
  · have hmembers : Category.any.members.Pairwise fun m m' => m ≠ m' := by decide
    refine hmembers.imp ?_
    rintro ⟨origin, kind⟩ ⟨origin', kind'⟩ hne id hid id' hid'
    obtain ⟨e, he, rfl⟩ := List.mem_map.1 hid
    obtain ⟨e', he', rfl⟩ := List.mem_map.1 hid'
    refine h _ _ _ _ (hentry he) (hentry he') fun heq => hne ?_
    simp only [List.mem_filter, Bool.and_eq_true, beq_iff_eq] at he he'
    rw [← he.2.1, ← he.2.2, ← he'.2.1, ← he'.2.2, heq]

namespace Compilation

variable {α : Type} {other : Compilation} {mapping : List NamespaceId}

theorem pairwise_arriving {entries : Namespace → List α}
    {R : NamespaceId × α → NamespaceId × α → Prop}
    (hsame : ∀ o n ns, other.namespaces.table.get? o = some n → mapping[o.index]? = some ns →
      (entries n).Pairwise fun x y => R (ns, x) (ns, y))
    (hapart : ∀ o n ns o' n' ns' x y, o ≠ o' → other.namespaces.table.get? o = some n →
      other.namespaces.table.get? o' = some n' → mapping[o.index]? = some ns →
      mapping[o'.index]? = some ns' → x ∈ entries n → y ∈ entries n' → R (ns, x) (ns', y)) :
    (other.arriving mapping entries).Pairwise R := by
  have hplace {i : Nat} {place : Namespace × NamespaceId}
      (h : (other.namespaces.table.entries.toList.zip mapping)[i]? = some place) :
      other.namespaces.table.get? ⟨i⟩ = some place.1 ∧ mapping[i]? = some place.2 := by
    obtain ⟨hn, hns⟩ := List.getElem?_zip_eq_some.1 h
    exact ⟨by simpa [Arena.get?] using hn, hns⟩
  rw [arriving, List.pairwise_flatMap]
  constructor
  · intro place hmem
    obtain ⟨i, hi⟩ := List.mem_iff_getElem?.1 hmem
    obtain ⟨hn, hns⟩ := hplace hi
    rw [List.pairwise_map]
    exact hsame ⟨i⟩ place.1 place.2 hn hns
  · rw [List.pairwise_iff_getElem]
    intro i j hi hj hlt e he e' he'
    obtain ⟨x, hx, rfl⟩ := List.mem_map.1 he
    obtain ⟨y, hy, rfl⟩ := List.mem_map.1 he'
    obtain ⟨hn, hns⟩ := hplace (List.getElem?_eq_getElem hi)
    obtain ⟨hn', hns'⟩ := hplace (List.getElem?_eq_getElem hj)
    refine hapart ⟨i⟩ _ _ ⟨j⟩ _ _ x y ?_ hn hn' hns hns' hx hy
    exact fun heq => Nat.ne_of_lt hlt (congrArg Id.index heq)

theorem distinct_registered (hother : other.Filed)
    (hinj : ∀ (i j : Nat) ns, mapping[i]? = some ns → mapping[j]? = some ns → i = j) :
    Compiling.Distinct other (other.arriving mapping Namespace.registered) := by
  refine pairwise_arriving ?_ ?_
  · intro o n ns hn _
    refine Namespace.pairwise_registered fun identity id identity' id' hid hid' hne => ?_
    obtain ⟨d, hd, rfl, -⟩ := hother o n hn identity id hid
    obtain ⟨d', hd', rfl, -⟩ := hother o n hn identity' id' hid'
    constructor
    · rintro rfl
      exact hne (congrArg Definition.identity (Option.some.inj (hd.symm.trans hd')))
    · rintro x x' hx hx' ⟨-, heq⟩
      obtain rfl := Option.some.inj (hd.symm.trans hx)
      obtain rfl := Option.some.inj (hd'.symm.trans hx')
      exact hne heq
  · intro o n ns o' n' ns' id id' hne hn hn' hns hns' hid hid'
    obtain ⟨identity, hid⟩ := Namespace.mem_registered.1 hid
    obtain ⟨identity', hid'⟩ := Namespace.mem_registered.1 hid'
    obtain ⟨d, hd, -, rfl⟩ := hother o n hn identity id hid
    obtain ⟨d', hd', -, rfl⟩ := hother o' n' hn' identity' id' hid'
    constructor
    · rintro rfl
      exact hne (congrArg Definition.home (Option.some.inj (hd.symm.trans hd')))
    · rintro x x' - - ⟨rfl, -⟩
      have hindex := hinj _ _ _ hns hns'
      exact hne (by cases hd : d.home; cases hd' : d'.home; simp_all)

theorem distinct_aliases
    (hinj : ∀ (i j : Nat) ns, mapping[i]? = some ns → mapping[j]? = some ns → i = j) :
    (other.arriving mapping fun n => n.aliases.entries).Pairwise fun e e' =>
      ¬ (e.1 = e'.1 ∧ e.2.1 = e'.2.1) := by
  refine pairwise_arriving ?_ ?_
  · intro o n ns _ _
    have hkeys : n.aliases.entries.Pairwise fun e e' => e.1 ≠ e'.1 :=
      List.pairwise_map.1 n.aliases.nodup
    exact hkeys.imp fun hne heq => hne heq.2
  · rintro ⟨i⟩ n ns ⟨j⟩ n' ns' x y hne - - hns hns' - - ⟨rfl, -⟩
    exact hne (congrArg Id.mk (hinj i j _ hns hns'))

end Compilation
end Stencil
