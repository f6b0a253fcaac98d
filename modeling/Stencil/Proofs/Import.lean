import Stencil.Proofs.Steps

/-! # An import step by step

What each step of an import does, and that all of them are updates. With that every compilation that
can be reached is intact, and its tables list what is stored as long as the ids suffice.
-/
namespace Stencil

open Compilation

/-- A definition as it is stored after an import. -/
def Definition.movedTo (d : Definition) (target : NamespaceId) : Definition :=
  { d with home := target, scope := .global }

/-- The place below which the counterpart of a namespace is opened. -/
def Namespace.placeIn (n : Namespace) (under : NamespaceId) (mapping : List NamespaceId) :
    Option NamespaceId :=
  match n.parent with
  | none => some under
  | some p => mapping[p.index]?

theorem NamespaceTree.copyNode_eq {under q : NamespaceId} {mapping : List NamespaceId}
    {n : Namespace} (h : n.placeIn under mapping = some q) (t : NamespaceTree) :
    copyNode under mapping t n = (do
      let r ← t.openAt q [n.name] n.explicit
      return (mapping ++ [r.1], r.2)) := by
  unfold Namespace.placeIn at h
  unfold copyNode
  cases hp : n.parent with
  | none =>
    rw [hp] at h
    rw [← Option.some.inj h]
    rfl
  | some p =>
    simp only [hp] at h
    simp only [h]
    rfl

namespace Compilation.Intact

variable {c : Compilation}

theorem finds_copyNode (hc : c.Intact) {under q : NamespaceId} {mapping : List NamespaceId}
    {n : Namespace} (hplace : n.placeIn under mapping = some q)
    (hq : c.namespaces.table.Holds q) (hmapping : ∀ q ∈ mapping, c.namespaces.table.Holds q) :
    Finds (NamespaceTree.copyNode under mapping c.namespaces n) fun r =>
      c.Updates { c with namespaces := r.2 } ∧ r.1.length = mapping.length + 1 ∧
        ∀ q ∈ r.1, r.2.table.Holds q := by
  rw [NamespaceTree.copyNode_eq hplace]
  apply (hc.finds_openAt [n.name] n.explicit hq).bind
  rintro ⟨id, t⟩ ⟨hupdates, hid⟩
  refine .pure ⟨hupdates, by simp, fun p hp => ?_⟩
  rcases List.mem_append.1 hp with hp | hp
  · exact hupdates.grows.holds_namespace (hmapping p hp)
  · exact List.mem_singleton.1 hp ▸ hid

theorem exists_placeIn {under : NamespaceId} {mapping : List NamespaceId} {n : Namespace}
    (hunder : c.namespaces.table.Holds under)
    (hmapping : ∀ q ∈ mapping, c.namespaces.table.Holds q)
    (hparent : ∀ p, n.parent = some p → p.index < mapping.length) :
    ∃ q, n.placeIn under mapping = some q ∧ c.namespaces.table.Holds q := by
  unfold Namespace.placeIn
  cases hp : n.parent with
  | none => exact ⟨under, rfl, hunder⟩
  | some p =>
    have hlt := hparent p hp
    exact ⟨_, List.getElem?_eq_getElem hlt, hmapping _ (List.getElem_mem hlt)⟩

theorem finds_foldlM_copyNode (hc : c.Intact) {under : NamespaceId} (nodes : List Namespace)
    {mapping : List NamespaceId} (hunder : c.namespaces.table.Holds under)
    (hmapping : ∀ q ∈ mapping, c.namespaces.table.Holds q)
    (hparent : ∀ k n, nodes[k]? = some n → ∀ p, n.parent = some p →
      p.index < mapping.length + k) :
    Finds (nodes.foldlM (fun (mapping, t) n => NamespaceTree.copyNode under mapping t n)
      (mapping, c.namespaces)) fun r =>
      c.Updates { c with namespaces := r.2 } ∧ r.1.length = mapping.length + nodes.length ∧
        ∀ q ∈ r.1, r.2.table.Holds q := by
  induction nodes generalizing c mapping with
  | nil => exact .pure ⟨.refl, rfl, hmapping⟩
  | cons n nodes ih =>
    rw [List.foldlM_cons]
    obtain ⟨q, hplace, hq⟩ := exists_placeIn hunder hmapping fun p hp => hparent 0 n rfl p hp
    apply (hc.finds_copyNode hplace hq hmapping).bind
    rintro ⟨mapping', t⟩ ⟨hupdates, hlength, hmapping'⟩
    change mapping'.length = mapping.length + 1 at hlength
    have hparent' : ∀ k m, nodes[k]? = some m → ∀ p, m.parent = some p →
        p.index < mapping'.length + k := by
      intro k m hm p hp
      have := hparent (k + 1) m hm p hp
      omega
    apply (ih (hupdates.intact hc) (hupdates.grows.holds_namespace hunder) hmapping' hparent').mono
    rintro r ⟨hupdates', hlength', hholds⟩
    refine ⟨hupdates.trans hupdates', ?_, hholds⟩
    rw [hlength', hlength, List.length_cons]
    omega

/-- Every namespace of the other compilation gets a counterpart. -/
theorem finds_copyTree (hc : c.Intact) {other : Compilation} (hother : other.Intact)
    {under : NamespaceId} (hunder : c.namespaces.table.Holds under) :
    Finds (c.namespaces.copyTree other.namespaces under) fun r =>
      c.Updates { c with namespaces := r.2 } ∧ r.1.length = other.namespaces.table.size ∧
        ∀ q ∈ r.1, r.2.table.Holds q := by
  have hparent : ∀ k n, (other.namespaces.table.entries.toList.drop 1)[k]? = some n →
      ∀ p, n.parent = some p → p.index < [under].length + k := by
    intro k n hn p hp
    have hget : other.namespaces.table.get? ⟨1 + k⟩ = some n := by
      rw [List.getElem?_drop] at hn
      simpa [Arena.get?] using hn
    simpa using (hother.namespaces _ n hget).parent p hp
  apply (hc.finds_foldlM_copyNode _ hunder (by simpa using hunder) hparent).mono
  rintro r ⟨hupdates, hlength, hholds⟩
  refine ⟨hupdates, ?_, hholds⟩
  have hroot : 0 < other.namespaces.table.entries.size := hother.root
  rw [hlength, List.length_singleton, List.length_drop, Array.length_toList, Arena.size]
  omega

end Compilation.Intact

namespace Compiling

variable {c other : Compilation} {target : NamespaceId} {n : Namespace} {old : DefId}
  {d : Definition}

theorem run_importDefinition_of_none (moved : Moved) (hd : other.definitions.get? old = some d)
    (hn : c.namespaces.table.get? target = some n) (h : n.definitions.get? d.identity = none) :
    (importDefinition other target moved old).run c =
      (.ok (moved.insert old c.definitions.nextId), { c with
        definitions := c.definitions.push (d.movedTo target)
        namespaces := c.namespaces.insertDefinition target d.identity c.definitions.nextId }) := by
  have hadd := NamespaceTree.addDefinition_of_none hn h c.definitions.nextId
  unfold importDefinition
  rw [Arena.find_of_get? hd, run_bind]
  change ((liftM (Failure.settle (c.namespaces.addDefinition target d.identity
    c.definitions.nextId)) : Compiling _) >>= _).run _ = _
  rw [hadd]
  rfl

theorem run_importDefinition_of_some (moved : Moved) {kept : DefId}
    (hd : other.definitions.get? old = some d) (hn : c.namespaces.table.get? target = some n)
    (h : n.definitions.get? d.identity = some kept) :
    (importDefinition other target moved old).run c =
      (.ok (moved.insert old kept), { c with
        definitions := c.definitions.push (d.movedTo target)
        session := c.session.reporting
          (.duplicate d.identity.render (c.namespaces.title target)) d.span }) := by
  have hadd := NamespaceTree.addDefinition_of_some hn h c.definitions.nextId
  have hkept : c.namespaces.definitionIn target d.identity = .ok (some kept) := by
    simp [NamespaceTree.definitionIn, NamespaceTree.find, Arena.find_of_get? hn, h, Bind.bind,
      Except.bind, Pure.pure, Except.pure]
  unfold importDefinition
  rw [Arena.find_of_get? hd, run_bind]
  change ((liftM (Failure.settle (c.namespaces.addDefinition target d.identity
    c.definitions.nextId)) : Compiling _) >>= _).run _ = _
  rw [hadd]
  change ((liftM (c.namespaces.definitionIn target d.identity) : Compiling _) >>= _).run _ = _
  rw [hkept]
  rfl

/-- Every definition that stands for an imported one is registered. -/
def Moved.Listed (moved : Moved) (c : Compilation) : Prop :=
  ∀ old id, moved.get? old = some id → c.namespaces.Lists id

theorem Moved.Listed.insert {moved : Moved} {c' : Compilation} (h : Moved.Listed moved c)
    (hgrows : c.Grows c') (old : DefId) {id : DefId} (hid : c'.namespaces.Lists id) :
    Moved.Listed (moved.insert old id) c' := by
  intro old' id' hget
  rw [OrderedMap.get?_insert] at hget
  split at hget
  · exact Option.some.inj hget ▸ hid
  · exact hgrows.lists (h old' id' hget)

theorem importDefinition_runs (hc : c.Intact) (hother : other.Intact) {moved : Moved}
    (hmoved : Moved.Listed moved c) (htarget : c.namespaces.table.Holds target)
    (hold : other.definitions.Holds old) :
    Runs (importDefinition other target moved old) c Moved.Listed := by
  obtain ⟨d, hd⟩ := hold.exists_get?
  obtain ⟨n, hn⟩ := htarget.exists_get?
  have hstore : c.Updates { c with definitions := c.definitions.push (d.movedTo target) } :=
    .single (.store (d.movedTo target) htarget hc.global (hother.kinds old d hd))
  rw [Runs, after, outcome]
  cases h : n.definitions.get? d.identity with
  | none =>
    have hupdates := hstore.tail (register_update (d := d.movedTo target) hn h)
    rw [run_importDefinition_of_none moved hd hn h]
    have hlists : (c.namespaces.insertDefinition target d.identity
        c.definitions.nextId).Lists c.definitions.nextId := by
      refine ⟨target, _, d.identity, Arena.get?_modify_self _ hn, ?_⟩
      rw [OrderedMap.get?_insert, if_pos rfl]
    exact ⟨hupdates, hmoved.insert hupdates.grows old hlists⟩
  | some kept =>
    have hupdates := hstore.tail (.session (c.session.reporting
      (.duplicate d.identity.render (c.namespaces.title target)) d.span))
    rw [run_importDefinition_of_some moved hd hn h]
    exact ⟨hupdates, hmoved.insert hupdates.grows old ⟨target, n, d.identity, hn, h⟩⟩

theorem run_importAlias_of_none {moved : Moved} {mapping : List NamespaceId} {name : String}
    {m m' : Meaning} (hm : relocate moved mapping m = .ok (some m'))
    (hn : c.namespaces.table.get? target = some n) (h : n.aliases.get? name = none) :
    (importAlias moved mapping target (name, m)).run c =
      (.ok (), { c with namespaces := c.namespaces.insertAlias target name m' }) := by
  have hadd := NamespaceTree.addAlias_of_none hn h m'
  unfold importAlias
  rw [hm]
  change ((liftM (Failure.settle (c.namespaces.addAlias target name m')) : Compiling _) >>=
    _).run _ = _
  rw [hadd]
  rfl

theorem run_importAlias_of_some {moved : Moved} {mapping : List NamespaceId} {name : String}
    {m m' kept : Meaning} (hm : relocate moved mapping m = .ok (some m'))
    (hn : c.namespaces.table.get? target = some n) (h : n.aliases.get? name = some kept) :
    (importAlias moved mapping target (name, m)).run c =
      (.ok (), { c with
        session := c.session.reporting
          (.duplicate ("alias " ++ name) (c.namespaces.title target)) none }) := by
  have hadd := NamespaceTree.addAlias_of_some hn h m'
  unfold importAlias
  rw [hm]
  change ((liftM (Failure.settle (c.namespaces.addAlias target name m')) : Compiling _) >>=
    _).run _ = _
  rw [hadd]
  rfl

/-- Where the namespaces have counterparts, it is known what an alias stands for. -/
theorem finds_relocate (moved : Moved) {mapping : List NamespaceId} {m : Meaning} {defs : Nat}
    (hm : m.Within mapping.length defs) :
    Finds (relocate moved mapping m) fun r => ∀ m', r = some m' →
      (∃ old id, m = .definition old ∧ moved.get? old = some id ∧ m' = .definition id) ∨
      ∃ ns q, m = .space ns ∧ mapping[ns.index]? = some q ∧ m' = .space q := by
  cases m with
  | definition old =>
    refine .pure fun m' hm' => ?_
    obtain ⟨id, hid, rfl⟩ := Option.map_eq_some_iff.1 hm'
    exact .inl ⟨old, id, rfl, hid, rfl⟩
  | space ns =>
    have hget := List.getElem?_eq_getElem (l := mapping) hm
    simp only [relocate, hget]
    exact .pure fun m' hm' => .inr ⟨ns, _, rfl, hget, (Option.some.inj hm').symm⟩

theorem importAlias_runs {moved : Moved} {mapping : List NamespaceId} (hc : c.Intact)
    (hmoved : Moved.Listed moved c) (hmapping : ∀ q ∈ mapping, c.namespaces.table.Holds q)
    (htarget : c.namespaces.table.Holds target) {name : String} {m : Meaning} {defs : Nat}
    (hm : m.Within mapping.length defs) :
    Runs (importAlias moved mapping target (name, m)) c fun _ _ => True := by
  obtain ⟨r, hr, hmeaning⟩ := finds_relocate moved hm
  cases r with
  | none =>
    unfold importAlias
    rw [hr]
    exact ⟨.refl, trivial⟩
  | some m' =>
    obtain ⟨n, hn⟩ := htarget.exists_get?
    rw [Runs, after, outcome]
    cases h : n.aliases.get? name with
    | none =>
      rw [run_importAlias_of_none hr hn h]
      refine ⟨.single (.aliased hn h ?_ ?_), trivial⟩
      · rcases hmeaning m' rfl with ⟨old, id, -, hid, rfl⟩ | ⟨ns, q, -, hq, rfl⟩
        · exact hc.holds_of_lists (hmoved old id hid)
        · exact hmapping q (List.mem_of_getElem? hq)
      · rintro id rfl
        rcases hmeaning _ rfl with ⟨old, id', -, hid, heq⟩ | ⟨ns, q, -, -, heq⟩
        · exact Meaning.definition.inj heq ▸ hmoved old id' hid
        · cases heq
    | some kept =>
      rw [run_importAlias_of_some hr hn h]
      exact ⟨.single (.session _), trivial⟩

theorem importRule_runs {mapping : List NamespaceId} {r : Rule} {scopes : Nat}
    (hmapping : ∀ q ∈ mapping, c.namespaces.table.Holds q)
    (hr : r.site.Within scopes mapping.length) :
    Runs (importRule mapping r) c fun _ _ => True := by
  unfold importRule
  cases hsite : r.site with
  | scope s => exact .pure trivial
  | within ns =>
    rw [hsite] at hr
    have hget : mapping[ns.index]? = some mapping[ns.index] := List.getElem?_eq_getElem hr
    simp only [hget]
    exact .modify (.single (.rule _ (hmapping _ (List.getElem_mem hr)))) trivial

end Compiling

/-! ## The passes of an import -/

theorem Namespace.mem_registered {n : Namespace} {id : DefId} :
    id ∈ n.registered ↔ ∃ identity, n.definitions.get? identity = some id := by
  simp only [registered, List.mem_flatMap, List.mem_map, List.mem_filter, OrderedMap.get?_eq_some_iff]
  constructor
  · rintro ⟨_, -, e, ⟨he, -⟩, rfl⟩
    exact ⟨e.1, he⟩
  · rintro ⟨identity, he⟩
    refine ⟨(identity.origin, identity.kind), ?_, (identity, id), ⟨he, by simp⟩, rfl⟩
    cases identity.origin <;> cases identity.kind <;> decide

/-- What the namespaces of the other compilation have, each with the counterpart of its namespace. -/
def Compilation.arriving {α : Type} (other : Compilation) (mapping : List NamespaceId)
    (entries : Namespace → List α) : List (NamespaceId × α) :=
  (other.namespaces.table.entries.toList.zip mapping).flatMap fun place =>
    (entries place.1).map fun x => (place.2, x)

theorem Compilation.mem_arriving {α : Type} {other : Compilation} {mapping : List NamespaceId}
    {entries : Namespace → List α} {e : NamespaceId × α} :
    e ∈ other.arriving mapping entries ↔ ∃ o n, other.namespaces.table.get? o = some n ∧
      mapping[o.index]? = some e.1 ∧ e.2 ∈ entries n := by
  simp only [arriving, List.mem_flatMap, List.mem_map]
  constructor
  · rintro ⟨⟨n, target⟩, hplace, x, hx, rfl⟩
    obtain ⟨i, hi⟩ := List.mem_iff_getElem?.1 hplace
    obtain ⟨hn, htarget⟩ := List.getElem?_zip_eq_some.1 hi
    exact ⟨⟨i⟩, n, by simpa [Arena.get?] using hn, htarget, hx⟩
  · rintro ⟨o, n, hn, htarget, hx⟩
    have hn' : other.namespaces.table.entries.toList[o.index]? = some n := by
      simpa [Arena.get?] using hn
    exact ⟨(n, e.1), List.mem_of_getElem? (List.getElem?_zip_eq_some.2 ⟨hn', htarget⟩), e.2, hx, rfl⟩

theorem foldlM_arriving {m : Type → Type} [Monad m] [LawfulMonad m] {α β : Type}
    (places : List (Namespace × NamespaceId)) (entries : Namespace → List α)
    (f : NamespaceId → β → α → m β) (b : β) :
    (places.flatMap fun place => (entries place.1).map fun x => (place.2, x)).foldlM
      (fun b e => f e.1 b e.2) b =
    places.foldlM (fun b place => (entries place.1).foldlM (f place.2) b) b := by
  induction places generalizing b with
  | nil => rfl
  | cons place places ih =>
    rw [List.flatMap_cons, List.foldlM_append, List.foldlM_map, List.foldlM_cons]
    congr 1
    funext b
    exact ih b

theorem forM_arriving {m : Type → Type} [Monad m] [LawfulMonad m] {α : Type}
    (places : List (Namespace × NamespaceId)) (entries : Namespace → List α)
    (f : NamespaceId → α → m Unit) :
    (places.flatMap fun place => (entries place.1).map fun x => (place.2, x)).forM
      (fun e => f e.1 e.2) =
    places.forM fun place => (entries place.1).forM (f place.2) := by
  induction places with
  | nil => rfl
  | cons place places ih =>
    simp only [List.forM_eq_forM] at ih ⊢
    rw [List.flatMap_cons, List.forM_append, List.forM_map, List.forM_cons, ih]

namespace Compiling

variable {c other : Compilation}

/-- Opens the namespaces for an import, and gives the counterparts of those of `other`. -/
def openPlaces (other : Compilation) (path : List String) : Compiling (List NamespaceId) := do
  let c ← get
  let (top, namespaces) ← c.namespaces.openAt .root path false
  let (mapping, namespaces) ← namespaces.copyTree other.namespaces top
  set { c with namespaces := namespaces }
  return mapping

/-- Imports definitions, aliases and rules into the counterparts of the namespaces. -/
def importInto (other : Compilation) (mapping : List NamespaceId) : Compiling Unit := do
  let moved ← (other.arriving mapping Namespace.registered).foldlM
    (fun moved e => importDefinition other e.1 moved e.2) .empty
  (other.arriving mapping fun n => n.aliases.entries).forM fun e =>
    importAlias moved mapping e.1 e.2
  other.rules.forM (importRule mapping)
  modify fun c =>
    { c with session := ⟨.empty, c.session.diagnostics ++ other.session.diagnostics⟩ }

theorem mount_eq (other : Compilation) (path : List String) :
    mount other path = openPlaces other path >>= importInto other := by
  have hdefinitions (mapping : List NamespaceId) :
      (other.arriving mapping Namespace.registered).foldlM
        (fun moved e => importDefinition other e.1 moved e.2) .empty =
      (other.namespaces.table.entries.toList.zip mapping).foldlM (importDefinitions other) .empty :=
    foldlM_arriving _ _ (importDefinition other) _
  have haliases (mapping : List NamespaceId) (moved : Moved) :
      (other.arriving mapping fun n => n.aliases.entries).forM
        (fun e => importAlias moved mapping e.1 e.2) =
      (other.namespaces.table.entries.toList.zip mapping).forM (importAliases moved mapping) :=
    forM_arriving _ (fun n => n.aliases.entries) (importAlias moved mapping)
  simp only [importInto, hdefinitions, haliases, openPlaces, bind_assoc, pure_bind]
  rfl

theorem openPlaces_runs (hc : c.Intact) (hother : other.Intact) (path : List String) :
    Runs (openPlaces other path) c fun mapping c' =>
      mapping.length = other.namespaces.table.size ∧
        ∀ q ∈ mapping, c'.namespaces.table.Holds q := by
  apply Runs.get_bind
  apply Runs.find_bind (hc.finds_openAt path false hc.root)
  rintro ⟨top, t⟩ - ⟨hopened, htop⟩
  apply Runs.find_bind ((hopened.intact hc).finds_copyTree hother htop)
  rintro ⟨mapping, t'⟩ - ⟨hcopied, hlength, hmapping⟩
  apply Runs.set_bind (hopened.trans hcopied)
  exact .pure ⟨hlength, hmapping⟩

theorem importInto_runs (hc : c.Intact) (hother : other.Intact) {mapping : List NamespaceId}
    (hlength : mapping.length = other.namespaces.table.size)
    (hmapping : ∀ q ∈ mapping, c.namespaces.table.Holds q) :
    Runs (importInto other mapping) c fun _ _ => True := by
  have harrives {α : Type} {entries : Namespace → List α} {e : NamespaceId × α}
      (he : e ∈ other.arriving mapping entries) : ∃ o n,
      other.namespaces.table.get? o = some n ∧ e.1 ∈ mapping ∧ e.2 ∈ entries n := by
    obtain ⟨o, n, hn, htarget, hx⟩ := mem_arriving.1 he
    exact ⟨o, n, hn, List.mem_of_getElem? htarget, hx⟩
  apply Runs.bind (P := Moved.Listed)
  · refine .foldlM (fun moved e he c₁ h₁ hmoved => ?_) nofun
    obtain ⟨o, n, hn, htarget, hold⟩ := harrives he
    obtain ⟨identity, hget⟩ := Namespace.mem_registered.1 hold
    exact importDefinition_runs (h₁.intact hc) hother hmoved
      (h₁.grows.holds_namespace (hmapping _ htarget))
      ((hother.namespaces o n hn).definitions identity e.2 hget)
  · intro moved c₁ h₁ hmoved
    apply Runs.bind (P := fun _ _ => True)
    · refine .forM fun e he c₂ h₂ => ?_
      obtain ⟨o, n, hn, htarget, hentry⟩ := harrives he
      have hgrows := (h₁.trans h₂).grows
      have hwithin := (hother.namespaces o n hn).aliases _ _
        (OrderedMap.get?_eq_some_iff.2 hentry)
      rw [← hlength] at hwithin
      exact importAlias_runs ((h₁.trans h₂).intact hc)
        (fun old id hold => h₂.grows.lists (hmoved old id hold))
        (fun q hq => hgrows.holds_namespace (hmapping q hq))
        (hgrows.holds_namespace (hmapping _ htarget)) hwithin
    · intro _ c₂ h₂ _
      apply Runs.bind (P := fun _ _ => True)
      · refine .forM fun r hr c₃ h₃ => ?_
        have hwithin := hother.rules r hr
        rw [← hlength] at hwithin
        exact importRule_runs (fun q hq =>
          ((h₁.trans h₂).trans h₃).grows.holds_namespace (hmapping q hq)) hwithin
      · exact fun _ c₃ _ _ => .modify (.single (.session _)) trivial

theorem mount_runs (hc : c.Intact) (hother : other.Intact) (path : List String) :
    Runs (mount other path) c fun _ _ => True := by
  rw [mount_eq]
  apply (openPlaces_runs hc hother path).bind
  rintro mapping c' hopened ⟨hlength, hmapping⟩
  exact importInto_runs (hopened.intact hc) hother hlength hmapping

end Compiling

namespace Compilation

variable {c : Compilation}

theorem initial_intact (config : Config) : (initial config).Intact where
  namespaces := .singleton ⟨nofun, nofun, nofun, nofun⟩
  definitions := nofun
  scopes := .singleton ⟨nofun, Nat.zero_lt_one, nofun, nofun⟩
  rules := nofun
  current := Nat.zero_lt_one
  root := Nat.zero_lt_one
  fileScope := nofun
  kinds := nofun
  aliases := .singleton nofun

theorem initial_filed (config : Config) : (initial config).Filed := Arena.All.singleton nofun

end Compilation

/-- Whatever an operation does to an intact compilation is done by updates. -/
theorem Operation.after_updates (op : Operation) {c : Compilation} (hc : c.Intact) :
    c.Updates (op.after c) := by
  cases op with
  | openFile stem => exact (Compiling.openFile_runs hc stem).1
  | closeFile => exact Compiling.closeFile_runs.1
  | openNamespacePath path => exact (Compiling.openNamespacePath_runs hc path).1
  | openNamespace path => exact (Compiling.openNamespace_runs hc path).1
  | closeNamespace => exact (Compiling.closeNamespace_runs hc).1
  | openScope kind => exact (Compiling.openScope_runs hc kind).1
  | closeScope => exact (Compiling.closeScope_runs hc).1
  | addGroup identity body edges noValue span =>
    exact (Compiling.addGroup_runs hc identity body edges noValue span).1
  | addRule denial reach span => exact (Compiling.addRule_runs hc denial reach span).1
  | addClause clause reach span => exact (Compiling.addClause_runs hc clause reach span).1
  | nameDefinition name target span =>
    exact (Compiling.nameDefinition_runs hc name target span).1
  | nameNamespace name path span => exact (Compiling.nameNamespace_runs hc name path span).1
  | setConfig config => exact (Updates.single (.config config)).tail (.session _)
  | drainDiagnostics => exact .single (.session _)
  | request r =>
    obtain ⟨s, hs, -⟩ := r.after_resolves kept_kinded c
    rw [after, hs]
    exact .single (.session s)

namespace Compilation.Reachable

variable {c : Compilation}

theorem intact (h : c.Reachable) : c.Intact := by
  induction h with
  | initial config => exact initial_intact config
  | step op _ ih => exact (op.after_updates ih).intact ih
  | mount path _ _ ih ihother => exact (Compiling.mount_runs ih ihother path).1.intact ih

/-- What every compilation has at first, and updates keep as long as the ids suffice, all compilations
have that can be reached within the ids. -/
theorem of_updates {P : Compilation → Prop} (hinitial : ∀ config, P (Compilation.initial config))
    (hupdates : ∀ c c', c.Updates c' → c'.Fits → P c → P c') (h : c.Reachable) (hfits : c.Fits) :
    P c := by
  induction h with
  | initial config => exact hinitial config
  | step op hc ih =>
    have hlast := op.after_updates hc.intact
    exact hupdates _ _ hlast hfits (ih (hlast.grows.fits hfits))
  | mount path hc hother ih _ =>
    have hlast := (Compiling.mount_runs hc.intact hother.intact path).1
    exact hupdates _ _ hlast hfits (ih (hlast.grows.fits hfits))

theorem filed (h : c.Reachable) (hfits : c.Fits) : c.Filed :=
  h.of_updates initial_filed (fun _ _ hupdates => hupdates.filed) hfits

end Compilation.Reachable
end Stencil
