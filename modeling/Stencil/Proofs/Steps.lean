import Stencil.Proofs.Reachable
import Stencil.Proofs.Updates

/-! # Every operation is made of updates

Whatever is done to an intact compilation, also by an operation that fails half-way, is done by
updates, and nothing is looked up outside of the tables. So every compilation that can be reached is
intact.
-/
namespace Stencil

open Compilation

namespace Compiling

variable {α β : Type} {c c' : Compilation} {x : Compiling α} {f : α → Compiling β}
  {P Q : α → Compilation → Prop} {R : β → Compilation → Prop}

/-- The step makes updates of `c` and gives something that satisfies `Q`, unless it fails; it does not
fail because an id is outside of its table. -/
def Runs (x : Compiling α) (c : Compilation) (Q : α → Compilation → Prop) : Prop :=
  c.Updates (x.after c) ∧
    match x.outcome c with
    | .ok a => Q a (x.after c)
    | .error e => e ≠ .fault .outsideTable

namespace Runs

theorem pure {a : α} (h : Q a c) : Runs (pure a) c Q := ⟨.refl, h⟩

theorem throw {e : Failure} (h : e ≠ .fault .outsideTable) : Runs (throw e) c Q := ⟨.refl, h⟩

theorem refuse {e : Problem} : Runs (refuse e) c Q := throw nofun

theorem bind (hx : Runs x c P) (hf : ∀ a c', c.Updates c' → P a c' → Runs (f a) c' R) :
    Runs (x >>= f) c R := by
  obtain ⟨hupdates, hout⟩ := hx
  rw [Runs, after, outcome, run_bind]
  cases h : x.outcome c with
  | error e => rw [h] at hout; exact ⟨hupdates, hout⟩
  | ok a =>
    rw [h] at hout
    obtain ⟨hupdates', hout'⟩ := hf a _ hupdates hout
    exact ⟨hupdates.trans hupdates', hout'⟩

theorem get_bind {f : Compilation → Compiling β} (h : Runs (f c) c R) :
    Runs ((get : Compiling Compilation) >>= f) c R := h

theorem set {Q : PUnit → Compilation → Prop} (h : c.Updates c') (hQ : Q ⟨⟩ c') :
    Runs (set c' : Compiling PUnit) c Q := ⟨h, hQ⟩

theorem modify {g : Compilation → Compilation} {Q : PUnit → Compilation → Prop}
    (h : c.Updates (g c)) (hQ : Q ⟨⟩ (g c)) : Runs (modify g : Compiling PUnit) c Q := ⟨h, hQ⟩

theorem set_bind {f : PUnit → Compiling β} (h : c.Updates c') (hf : Runs (f ⟨⟩) c' R) :
    Runs ((MonadStateOf.set c' : Compiling PUnit) >>= f) c R :=
  bind (P := fun _ c'' => c'' = c') (set h rfl) fun _ _ _ hc => hc ▸ hf

theorem lift_bind {r : Except Failure α} {P : α → Prop} (hr : Answers r P)
    (hf : ∀ a, r = .ok a → P a → Runs (f a) c R) :
    Runs ((liftM r : Compiling α) >>= f) c R := by
  rcases hr with ⟨a, rfl, ha⟩ | ⟨e, rfl⟩
  · exact hf a rfl ha
  · exact ⟨.refl, nofun⟩

theorem find_bind {r : Except Fault α} {P : α → Prop} (hr : Finds r P)
    (hf : ∀ a, r = .ok a → P a → Runs (f a) c R) :
    Runs ((liftM r : Compiling α) >>= f) c R := by
  obtain ⟨a, rfl, ha⟩ := hr
  exact hf a rfl ha

theorem recording (span : Option Span) (hx : Runs x c Q) : Runs (recording span x) c Q := by
  obtain ⟨hupdates, hout⟩ := hx
  rw [Runs, after, outcome, Compiling.recording, run_tryCatch]
  rcases h : x.outcome c with (e | f) | a
  · exact ⟨hupdates.trans (.single (.session _)), fun h => by cases h⟩
  · rw [h] at hout
    exact ⟨hupdates, hout⟩
  · rw [h] at hout
    exact ⟨hupdates, hout⟩

/-- What each step of a fold keeps, the fold keeps; the steps run from what updates have made of
`c`. -/
theorem foldlM {f : β → α → Compiling β} {as : List α}
    (hf : ∀ b, ∀ a ∈ as, ∀ c', c.Updates c' → R b c' → Runs (f b a) c' R) {b : β} (hb : R b c) :
    Runs (as.foldlM f b) c R := by
  induction as generalizing b c with
  | nil => exact pure hb
  | cons a as ih =>
    rw [List.foldlM_cons]
    apply (hf b a List.mem_cons_self c .refl hb).bind
    intro b c' hc' hb
    refine ih (fun b a ha c'' hc'' => ?_) hb
    exact hf b a (List.mem_cons_of_mem _ ha) c'' (hc'.trans hc'')

theorem forM {f : α → Compiling Unit} {as : List α}
    (hf : ∀ a ∈ as, ∀ c', c.Updates c' → Runs (f a) c' fun _ _ => True) :
    Runs (as.forM f) c fun _ _ => True := by
  induction as generalizing c with
  | nil => exact pure trivial
  | cons a as ih =>
    apply (hf a List.mem_cons_self c .refl).bind
    intro _ c' hc' _
    exact ih fun a ha c'' hc'' => hf a (List.mem_cons_of_mem _ ha) c'' (hc'.trans hc'')

end Runs
end Compiling

/-! ## Tables of one namespace -/

namespace NamespaceTree

variable {t : NamespaceTree} {ns : NamespaceId} {n : Namespace}

theorem addDefinition_of_some {identity : Identity} {kept : DefId}
    (hn : t.table.get? ns = some n) (h : n.definitions.get? identity = some kept) (id : DefId) :
    t.addDefinition ns identity id =
      .error (.refused (.duplicate identity.render (t.title ns))) := by
  have hcontains : n.definitions.contains identity := by simp [OrderedMap.contains, h]
  unfold addDefinition find
  rw [Arena.find_of_get? hn]
  exact if_pos hcontains

theorem addDefinition_of_none {identity : Identity} (hn : t.table.get? ns = some n)
    (h : n.definitions.get? identity = none) (id : DefId) :
    t.addDefinition ns identity id = .ok (t.insertDefinition ns identity id) := by
  have hcontains : ¬ n.definitions.contains identity := by simp [OrderedMap.contains, h]
  unfold addDefinition find
  rw [Arena.find_of_get? hn]
  exact if_neg hcontains

theorem addAlias_of_some {name : String} {kept : Meaning} (hn : t.table.get? ns = some n)
    (h : n.aliases.get? name = some kept) (m : Meaning) :
    t.addAlias ns name m = .error (.refused (.duplicate ("alias " ++ name) (t.title ns))) := by
  have hcontains : n.aliases.contains name := by simp [OrderedMap.contains, h]
  unfold addAlias find
  rw [Arena.find_of_get? hn]
  exact if_pos hcontains

theorem addAlias_of_none {name : String} (hn : t.table.get? ns = some n)
    (h : n.aliases.get? name = none) (m : Meaning) :
    t.addAlias ns name m = .ok (t.insertAlias ns name m) := by
  have hcontains : ¬ n.aliases.contains name := by simp [OrderedMap.contains, h]
  unfold addAlias find
  rw [Arena.find_of_get? hn]
  exact if_neg hcontains

end NamespaceTree

theorem Scopes.close_of_some {s : Scopes} {x : Scope} {p : ScopeId}
    (hx : s.table.get? s.current = some x) (hp : x.parent = some p) :
    s.close = .ok { s with current := p } := by
  unfold close find
  rw [Arena.find_of_get? hx]
  simp [Bind.bind, Except.bind, hp, Pure.pure, Except.pure]

theorem Scopes.close_of_none {s : Scopes} {x : Scope} (hx : s.table.get? s.current = some x)
    (hp : x.parent = none) : s.close = .error .cannotCloseGlobal := by
  unfold close find
  rw [Arena.find_of_get? hx]
  simp [Bind.bind, Except.bind, hp]

/-! ## Names are looked up and namespaces opened -/

namespace Compilation.Intact

variable {c : Compilation}

theorem lists_of_offers (hc : c.Intact) {category : Category} {id : DefId}
    (h : c.library.Offers category id) : c.namespaces.Lists id := by
  rcases h with ⟨ns, n, identity, hn, hid, -⟩ | ⟨ns, n, name, d, hn, hm, -, -⟩
  · exact ⟨ns, n, identity, hn, hid⟩
  · exact hc.aliases ns n hn name id hm

theorem holds_of_lists (hc : c.Intact) {id : DefId} (h : c.namespaces.Lists id) :
    c.definitions.Holds id := by
  obtain ⟨ns, n, identity, hn, hid⟩ := h
  exact (hc.namespaces ns n hn).definitions identity id hid

theorem answers_resolveText (hc : c.Intact) (token : String) (expected : Category)
    {start : NamespaceId} (hstart : c.namespaces.table.Holds start) :
    Answers (c.library.resolveText start token expected) fun id => c.namespaces.Lists id := by
  unfold Library.resolveText
  split
  · rename_i n _
    apply (hc.library.answers_resolve n expected hstart).mono
    rintro id ⟨category, -, hoffers⟩
    exact hc.lists_of_offers hoffers
  · exact .refuse

theorem finds_home (hc : c.Intact) :
    Finds c.home fun ns => c.namespaces.table.Holds ns := by
  apply (Arena.finds_find hc.current).bind
  exact fun s hs => .pure (hc.scopes _ s hs).home

theorem finds_openChild (hc : c.Intact) (name : String) {id : NamespaceId}
    (hid : c.namespaces.table.Holds id) :
    Finds (c.namespaces.openChild id name) fun r =>
      c.Updates { c with namespaces := r.2 } ∧ r.2.table.Holds r.1 := by
  apply Finds.bind (P := fun r => ∃ n, c.namespaces.table.get? id = some n ∧
    n.children.get? name = r)
  · apply (Arena.finds_find hid).bind
    exact fun n hn => .pure ⟨n, hn, rfl⟩
  · rintro r ⟨n, hn, hr⟩
    cases r with
    | some child => exact .pure ⟨.refl, (hc.namespaces id n hn).children name child hr⟩
    | none =>
      have hadd : c.Update { c with namespaces := c.namespaces.addChild id name } :=
        .child name hn hr
      refine .pure ⟨.single hadd, ?_⟩
      change c.namespaces.table.nextId.index < (c.namespaces.addChild id name).table.size
      rw [NamespaceTree.size_addChild]
      exact Nat.lt_succ_of_le c.namespaces.table.nextId_index_le

theorem finds_openPath (hc : c.Intact) (path : List String) {id : NamespaceId}
    (hid : c.namespaces.table.Holds id) :
    Finds (c.namespaces.openPath id path) fun r =>
      c.Updates { c with namespaces := r.2 } ∧ r.2.table.Holds r.1 := by
  induction path generalizing c id with
  | nil => exact .pure ⟨.refl, hid⟩
  | cons segment rest ih =>
    apply (hc.finds_openChild segment hid).bind
    rintro ⟨child, t⟩ ⟨hupdates, hchild⟩
    apply (ih (hupdates.intact hc) hchild).mono
    exact fun r hr => ⟨hupdates.trans hr.1, hr.2⟩

theorem finds_openAt (hc : c.Intact) (path : List String) (explicit : Bool) {id : NamespaceId}
    (hid : c.namespaces.table.Holds id) :
    Finds (c.namespaces.openAt id path explicit) fun r =>
      c.Updates { c with namespaces := r.2 } ∧ r.2.table.Holds r.1 := by
  apply (hc.finds_openPath path hid).bind
  rintro ⟨ns, t⟩ ⟨hupdates, hns⟩
  change Finds (if _ then _ else _) _
  split
  · apply Finds.bind (P := fun t' => c.Updates { c with namespaces := t' } ∧ t'.table.Holds ns)
    · unfold NamespaceTree.markExplicit
      split
      · exact .pure ⟨hupdates, hns⟩
      · apply (Arena.finds_find hns).bind
        intro _ _
        exact .pure ⟨hupdates.tail (.explicit ns), Arena.holds_modify.2 hns⟩
    · exact fun t' ht' => .pure ht'
  · exact .pure ⟨hupdates, hns⟩

end Compilation.Intact

/-! ## The operations one by one -/

namespace Compiling

variable {c : Compilation}

theorem parseDotted_runs (shown : String) (path : List Char) :
    Runs (parseDotted shown path) c fun _ c' => c' = c := by
  unfold parseDotted
  split
  · exact .pure rfl
  · exact .refuse

theorem openFile_runs (hc : c.Intact) (stem : String) :
    Runs (openFile stem) c fun _ _ => True := by
  apply Runs.get_bind
  change Runs (if _ then _ else _) c _
  split
  · exact .pure trivial
  · apply Runs.find_bind (hc.finds_openAt [stem] false hc.root)
    rintro ⟨ns, t⟩ - ⟨hupdates, hns⟩
    have hopened := hupdates.tail (.openScope .namespaceBlock ns hns)
    refine .set (hopened.tail (.fileScope _ fun s hs => ?_)) trivial
    exact Option.some.inj hs ▸ (hopened.intact hc).current

theorem closeThrough_cases (s : Scopes) (target : ScopeId) :
    ∃ p ∈ s.outward s.current, (s.closeThrough target).1 = { s with current := p } ∧
      (s.closeThrough target).2 ≠ some .outsideTable := by
  unfold Scopes.closeThrough
  dsimp only
  split
  · rename_i left parent rest hdrop
    have hmem : parent ∈ (s.outward s.current).dropWhile fun id => decide (id ≠ target) := by
      rw [hdrop]
      simp
    exact ⟨parent, (List.dropWhile_suffix _).subset hmem, rfl, nofun⟩
  · cases hlast : (s.outward s.current).getLast? with
    | none =>
      have hmem := Arena.mem_chain_self s.table Scope.parent s.current
      rw [← s.outward_eq, List.getLast?_eq_none_iff.1 hlast] at hmem
      cases hmem
    | some p => exact ⟨p, List.mem_of_getLast? hlast, rfl, nofun⟩

theorem closeFile_runs : Runs closeFile c fun _ _ => True := by
  apply Runs.get_bind
  split
  · exact .pure trivial
  · rename_i opened _
    obtain ⟨p, hp, heq, hfault⟩ := closeThrough_cases c.scopes opened
    have hgo : c.Updates { c with scopes := (c.scopes.closeThrough opened).1, fileScope := none } := by
      rw [heq]
      exact (Updates.single (.goTo p hp)).tail (.fileScope none fun _ h => by cases h)
    apply Runs.set_bind hgo
    split
    · exact .pure trivial
    · rename_i f hf
      exact .throw fun h => hfault (hf.trans (congrArg some (Failure.fault.inj h)))

theorem announce_updates (name : String) {m : Meaning}
    (hm : m.Within c.namespaces.table.size c.definitions.size) :
    c.Updates { c with scopes := announce c.scopes name m } := by
  unfold announce
  split
  · rename_i scopes hbind
    exact .single (.bind scopes hm hbind)
  · exact .refl

theorem openNamespacePath_runs (hc : c.Intact) (path : List String) :
    Runs (openNamespacePath path) c fun _ _ => True := by
  apply Runs.get_bind
  apply Runs.find_bind hc.finds_home
  intro parent _ hparent
  apply Runs.find_bind (hc.finds_openAt path true hparent)
  rintro ⟨ns, t⟩ - ⟨hupdates, hns⟩
  have hopen (scopes : Scopes) (h : Updates { c with namespaces := t } { c with
      namespaces := t, scopes := scopes }) : c.Updates { c with
      namespaces := t, scopes := scopes.openIn .namespaceBlock ns } :=
    (hupdates.trans h).tail (.openScope .namespaceBlock ns hns)
  cases path with
  | nil => exact ⟨hopen c.scopes .refl, trivial⟩
  | cons first rest =>
    have hintact := hupdates.intact hc
    have hchild : Finds (t.child parent first) fun r => ∀ head, r = some head →
        t.table.Holds head := by
      apply (Arena.finds_find (hupdates.grows.holds_namespace hparent)).bind
      exact fun n hn => .pure fun head hhead => (hintact.namespaces parent n hn).children _ _ hhead
    apply Runs.find_bind hchild
    intro head _ hhead
    cases head with
    | none => exact ⟨hopen c.scopes .refl, trivial⟩
    | some head =>
      have hwithin : (Meaning.space head).Within t.table.size c.definitions.size := hhead head rfl
      exact ⟨hopen _ (announce_updates first hwithin), trivial⟩

theorem openNamespace_runs (hc : c.Intact) (path : String) :
    Runs (openNamespace path) c fun _ _ => True := by
  apply Runs.recording
  apply (parseDotted_runs path _).bind
  rintro segments _ - rfl
  exact openNamespacePath_runs hc segments

/-- Leaving a scope goes to the scope around it, or fails in the global one. -/
theorem close_cases (hc : c.Intact) :
    c.scopes.close = .error .cannotCloseGlobal ∨
      ∃ p ∈ c.scopes.outward c.scopes.current,
        c.scopes.close = .ok { c.scopes with current := p } := by
  obtain ⟨s, hs⟩ := hc.current.exists_get?
  cases hp : s.parent with
  | none => exact .inl (Scopes.close_of_none hs hp)
  | some p =>
    refine .inr ⟨p, ?_, Scopes.close_of_some hs hp⟩
    rw [Scopes.outward_eq]
    exact Arena.mem_chain_parent hs hp ((hc.scopes _ s hs).parent p hp)

theorem close_runs {α : Type} {Q : α → Compilation → Prop} (hc : c.Intact)
    {f : Scopes → Compiling α} (hf : ∀ scopes, c.Updates { c with scopes := scopes } →
      Runs (f scopes) c Q) : Runs ((liftM c.scopes.close : Compiling Scopes) >>= f) c Q := by
  rcases close_cases hc with h | ⟨p, hp, h⟩
  · rw [h]
    exact ⟨.refl, nofun⟩
  · rw [h]
    exact hf _ (.single (.goTo p hp))

theorem closeNamespace_runs (hc : c.Intact) : Runs closeNamespace c fun _ _ => True := by
  apply Runs.get_bind
  apply Runs.find_bind (Arena.finds_find hc.current)
  intro s _ _
  change Runs (if _ then _ else _) c _
  split
  · apply close_runs hc
    exact fun scopes h => .set h trivial
  · exact .throw nofun

theorem openScope_runs (hc : c.Intact) (kind : BlockKind) :
    Runs (openScope kind) c fun _ _ => True := by
  apply Runs.get_bind
  have hblock : Finds (c.scopes.openBlock kind) fun scopes =>
      c.Updates { c with scopes := scopes } := by
    apply hc.finds_home.bind
    exact fun home hhome => .pure (.single (.openScope kind home hhome))
  apply Runs.find_bind hblock
  intro scopes _ h
  apply Runs.set_bind h
  exact .pure trivial

theorem closeScope_runs (hc : c.Intact) : Runs closeScope c fun _ _ => True := by
  apply Runs.get_bind
  apply close_runs hc
  intro scopes h
  apply Runs.set_bind h
  exact .pure trivial

theorem answers_addDefinition {ns : NamespaceId} {identity : Identity} {id : DefId}
    (hns : c.namespaces.table.Holds ns) :
    Answers (c.namespaces.addDefinition ns identity id) fun t =>
      t = c.namespaces.insertDefinition ns identity id ∧
        ∃ n, c.namespaces.table.get? ns = some n ∧ n.definitions.get? identity = none := by
  obtain ⟨n, hn⟩ := hns.exists_get?
  cases hd : n.definitions.get? identity with
  | some kept =>
    rw [NamespaceTree.addDefinition_of_some hn hd]
    exact .refuse
  | none =>
    rw [NamespaceTree.addDefinition_of_none hn hd]
    exact .pure ⟨rfl, n, hn, hd⟩

theorem answers_addAlias {ns : NamespaceId} {name : String} {m : Meaning}
    (hns : c.namespaces.table.Holds ns) :
    Answers (c.namespaces.addAlias ns name m) fun t =>
      t = c.namespaces.insertAlias ns name m ∧
        ∃ n, c.namespaces.table.get? ns = some n ∧ n.aliases.get? name = none := by
  obtain ⟨n, hn⟩ := hns.exists_get?
  cases hm : n.aliases.get? name with
  | some kept =>
    rw [NamespaceTree.addAlias_of_some hn hm]
    exact .refuse
  | none =>
    rw [NamespaceTree.addAlias_of_none hn hm]
    exact .pure ⟨rfl, n, hn, hm⟩

theorem addAlias_runs {ns : NamespaceId} {name : String} {m : Meaning}
    (hns : c.namespaces.table.Holds ns)
    (hm : m.Within c.namespaces.table.size c.definitions.size)
    (hlisted : ∀ id, m = .definition id → c.namespaces.Lists id) :
    Runs (addAlias ns name m) c fun _ _ => True := by
  apply Runs.get_bind
  apply Runs.lift_bind (answers_addAlias hns)
  rintro t - ⟨rfl, n, hn, hnew⟩
  exact .set (.single (.aliased hn hnew hm hlisted)) trivial

theorem answers_bind (hc : c.Intact) (name : String) (m : Meaning) :
    Answers (c.scopes.bind name m) fun _ => True := by
  apply Answers.lift_bind (Arena.finds_find hc.current)
  intro s _
  split
  · exact .refuse
  · exact .pure trivial

theorem bind_runs (hc : c.Intact) {name : String} {m : Meaning}
    (hm : m.Within c.namespaces.table.size c.definitions.size) :
    Runs (bind name m) c fun _ _ => True := by
  apply Runs.get_bind
  apply Runs.lift_bind (answers_bind hc name m)
  exact fun scopes hscopes _ => .set (.single (.bind scopes hm hscopes)) trivial

theorem store_runs {d : Definition} (hhome : c.namespaces.table.Holds d.home)
    (hscope : c.scopes.table.Holds d.scope) (hkind : d.body.kind = d.kind) :
    Runs (store d) c fun id c' =>
      id = c.definitions.nextId ∧ c' = { c with definitions := c.definitions.push d } :=
  ⟨.single (.store d hhome hscope hkind), rfl, rfl⟩

/-- A definition that was just stored can be registered in its namespace. -/
theorem register_update {d : Definition} {n : Namespace}
    (hn : c.namespaces.table.get? d.home = some n) (hnew : n.definitions.get? d.identity = none) :
    Update { c with definitions := c.definitions.push d } { c with
      definitions := c.definitions.push d
      namespaces := c.namespaces.insertDefinition d.home d.identity c.definitions.nextId } :=
  .register hn hnew (c.definitions.holds_nextId d) fun hfits =>
    ⟨d, Arena.get?_push_nextId hfits.definitions, rfl, rfl⟩

theorem addGroup_runs (hc : c.Intact) (identity : Identity) (body : Content)
    (edges : List Inheritance) (noValue : NameSet) (span : Option Span) :
    Runs (addGroup identity body edges noValue span) c fun _ _ => True := by
  apply Runs.recording
  change Runs (if _ then _ else _) c _
  split
  · exact .refuse
  · rename_i hkind
    apply Runs.get_bind
    apply Runs.find_bind hc.finds_home
    intro home _ hhome
    apply (store_runs (d := ⟨identity, home, c.scopes.current, edges, body, noValue, span⟩) hhome
      hc.current (not_not.1 hkind)).bind
    rintro id c' hstored ⟨rfl, rfl⟩
    have hintact := hstored.intact hc
    have hadd : Runs (addDefinition home identity c.definitions.nextId) { c with
        definitions := c.definitions.push
          ⟨identity, home, c.scopes.current, edges, body, noValue, span⟩ } fun _ _ => True := by
      apply Runs.get_bind
      apply Runs.lift_bind (answers_addDefinition hhome)
      rintro t - ⟨rfl, n, hn, hnew⟩
      exact .set (.single (register_update (d := ⟨identity, home, _, _, _, _, _⟩) hn hnew)) trivial
    apply hadd.bind
    intro _ c' hregistered _
    have hid : c'.definitions.Holds c.definitions.nextId :=
      hregistered.grows.holds_definition (c.definitions.holds_nextId _)
    apply (bind_runs (m := .definition _) (hregistered.intact hintact) hid).bind
    exact fun _ _ _ _ => .pure trivial

theorem addRule_runs (hc : c.Intact) (denial : Denial) (reach : Reach) (span : Option Span) :
    Runs (addRule denial reach span) c fun _ _ => True := by
  have hsite : Runs (ruleSite reach) c fun site c' =>
      site.Within c'.scopes.table.size c'.namespaces.table.size := by
    cases reach with
    | scope => exact ⟨.refl, hc.current⟩
    | global =>
      apply Runs.get_bind
      apply Runs.find_bind hc.finds_home
      exact fun home _ hhome => .pure hhome
  apply hsite.bind
  exact fun site c' _ hwithin => .modify (.single (.rule _ hwithin)) trivial

theorem addClause_runs (hc : c.Intact) (clause : String) (reach : Reach) (span : Option Span) :
    Runs (addClause clause reach span) c fun _ _ => True := by
  apply Runs.recording
  split
  · exact .forM fun denial _ c' hupdates => addRule_runs (hupdates.intact hc) denial reach span
  · exact .refuse

theorem checkAliasName_runs (name : String) : Runs (checkAliasName name) c fun _ c' => c' = c := by
  unfold checkAliasName
  split
  · exact .pure rfl
  · exact .refuse

theorem nameDefinition_runs (hc : c.Intact) (name target : String) (span : Option Span) :
    Runs (nameDefinition name target span) c fun _ _ => True := by
  apply Runs.recording
  apply Runs.get_bind
  apply Runs.find_bind hc.finds_home
  intro home _ hhome
  apply (checkAliasName_runs name).bind
  rintro _ _ - rfl
  apply Runs.lift_bind (hc.answers_resolveText target .any hhome)
  rintro id - hlisted
  apply (addAlias_runs (m := .definition id) hhome (hc.holds_of_lists hlisted) fun id' hid' => ?_).bind
  · exact fun _ _ _ _ => .pure trivial
  · exact Meaning.definition.inj hid' ▸ hlisted

theorem nameNamespace_runs (hc : c.Intact) (name path : String) (span : Option Span) :
    Runs (nameNamespace name path span) c fun _ _ => True := by
  apply Runs.recording
  apply Runs.get_bind
  apply Runs.find_bind hc.finds_home
  intro home _ hhome
  apply (checkAliasName_runs name).bind
  rintro _ _ - rfl
  apply (parseDotted_runs path _).bind
  rintro segments _ - rfl
  apply Runs.find_bind (hc.library.finds_search segments hhome)
  intro found _ hfound
  cases found with
  | none => exact .refuse
  | some target =>
    apply (addAlias_runs hhome (m := .space target) (hfound target rfl) nofun).bind
    exact fun _ _ _ _ => .pure trivial

end Compiling
end Stencil
