import Stencil.Proofs.Blocks
import Stencil.Proofs.Sparing
import Stencil.Proofs.Spelling

/-! # Namespaces are found back by the path that is shown

The path of a namespace is shown with dots between its segments, and read as names with dots between
them. So a namespace is found by the path that is shown of it exactly if the segments of its path are
names. Blocks, imports and aliases bring in names only; the name of a file may be none, and then its
namespace is not found.
-/
namespace Stencil

open Compilation

/-! ## The names in a tree -/

namespace NamespaceTree

variable {t t' : NamespaceTree} {a b : NamespaceId} {name : String} {path : List String}

/-- The name of a namespace, if it is in the table. -/
def label? (t : NamespaceTree) (id : NamespaceId) : Option String :=
  (t.table.get? id).map Namespace.name

/-- Every namespace other than the root has a name. -/
def Named (t : NamespaceTree) : Prop :=
  ∀ id name, t.label? id = some name → id ≠ .root → Text.isName name.toList = true

theorem label?_setExplicit (a : NamespaceId) : (t.setExplicit a).label? = t.label? :=
  funext fun id => map_modify (f := fun n => { n with explicit := true }) (fun _ => rfl) a id

theorem label?_insertDefinition (a : NamespaceId) (identity : Identity) (d : DefId) :
    (t.insertDefinition a identity d).label? = t.label? :=
  funext fun id => map_modify
    (f := fun n => { n with definitions := n.definitions.insert identity d }) (fun _ => rfl) a id

theorem label?_insertAlias (a : NamespaceId) (name : String) (m : Meaning) :
    (t.insertAlias a name m).label? = t.label? :=
  funext fun id => map_modify
    (f := fun n => { n with aliases := n.aliases.insert name m }) (fun _ => rfl) a id

theorem label?_addChild (a : NamespaceId) (name : String) (id : NamespaceId) :
    (t.addChild a name).label? id = if id.index = t.table.size then some name else t.label? id := by
  let grown : NamespaceTree := ⟨t.table.push (.fresh name (some a))⟩
  have hgrown : (t.addChild a name).label? id = grown.label? id :=
    map_modify (f := fun n => { n with children := n.children.insert name t.table.nextId })
      (fun _ => rfl) a id
  rw [hgrown, label?, Arena.get?_push]
  split <;> simp [label?, Namespace.fresh]

theorem initial_named : initial.Named := by
  rintro ⟨i⟩ name hname hroot
  obtain ⟨n, hn, -⟩ := Option.map_eq_some_iff.1 hname
  obtain rfl : i = 0 := Nat.lt_one_iff.1 (Arena.lt_size_of_get? hn)
  exact absurd rfl hroot

theorem Named.of_label? (h : t.Named) (hlabel : t'.label? = t.label?) : t'.Named := by
  rwa [Named, hlabel]

theorem Named.addChild (h : t.Named) (a : NamespaceId) (hname : Text.isName name.toList = true) :
    (t.addChild a name).Named := by
  intro id s hs hroot
  rw [label?_addChild] at hs
  split at hs
  · rwa [← Option.some.inj hs]
  · exact h id s hs hroot

theorem Named.openPath (h : t.Named) (hpath : ∀ s ∈ path, Text.isName s.toList = true)
    (hopen : t.openPath a path = .ok (b, t')) : t'.Named := by
  induction path generalizing t a with
  | nil =>
    cases hopen
    exact h
  | cons name path ih =>
    obtain ⟨⟨m, t₁⟩, hchild, hrest⟩ := Except.bind_eq_ok hopen
    have hname := hpath name List.mem_cons_self
    have hpath' : ∀ s ∈ path, Text.isName s.toList = true :=
      fun s hs => hpath s (List.mem_cons_of_mem name hs)
    obtain ⟨n, -, ⟨-, rfl⟩ | ⟨-, -, rfl⟩⟩ := openChild_eq_ok hchild
    · exact ih h hpath' hrest
    · exact ih (h.addChild a hname) hpath' hrest

theorem Named.openAt (h : t.Named) (hpath : ∀ s ∈ path, Text.isName s.toList = true)
    {explicit : Bool} (hopen : t.openAt a path explicit = .ok (b, t')) : t'.Named := by
  obtain ⟨t₁, hopened, ⟨-, rfl⟩ | ⟨-, -, -, rfl⟩⟩ := openAt_eq_ok hopen
  · exact h.openPath hpath hopened
  · exact (h.openPath hpath hopened).of_label? (label?_setExplicit b)

theorem Named.copyNodes {nodes : List Namespace} {mapping mapping' : List NamespaceId}
    (h : t.Named) (hnodes : ∀ n ∈ nodes, Text.isName n.name.toList = true)
    (hcopy : nodes.foldlM (fun (mapping, t) n => copyNode a mapping t n) (mapping, t) =
      .ok (mapping', t')) : t'.Named := by
  induction nodes generalizing t mapping with
  | nil =>
    cases hcopy
    exact h
  | cons n nodes ih =>
    rw [List.foldlM_cons] at hcopy
    obtain ⟨⟨mapping₁, t₁⟩, hfirst, hrest⟩ := Except.bind_eq_ok hcopy
    obtain ⟨q, b, -, hopen, -⟩ := copyNode_eq_ok hfirst
    have hn : ∀ s ∈ [n.name], Text.isName s.toList = true := by
      simpa using hnodes n List.mem_cons_self
    exact ih (h.openAt hn hopen) (fun m hm => hnodes m (List.mem_cons_of_mem n hm)) hrest

/-- The namespaces below the root of the copied tree bring their names along. -/
theorem Named.copyTree {o : NamespaceTree} {mapping : List NamespaceId} (h : t.Named)
    (ho : o.Named) (hcopy : t.copyTree o a = .ok (mapping, t')) : t'.Named := by
  refine h.copyNodes (fun n hn => ?_) hcopy
  obtain ⟨k, hk⟩ := List.mem_iff_getElem?.1 hn
  rw [List.getElem?_drop] at hk
  have hlabel : o.label? ⟨1 + k⟩ = some n.name := by
    have hget : o.table.get? ⟨1 + k⟩ = some n := by simpa [Arena.get?] using hk
    rw [label?, hget]
    rfl
  refine ho _ _ hlabel fun hroot => ?_
  have hindex : 1 + k = 0 := congrArg Id.index hroot
  omega

/-- In a tree of names every path consists of names. -/
theorem Named.isName_of_leads (h : t.Named) (ht : t.Linked) (hpath : t.Leads .root path a) :
    ∀ s ∈ path, Text.isName s.toList = true := by
  induction path using List.reverseRecOn generalizing a with
  | nil => simp
  | append_singleton path name ih =>
    obtain ⟨m, hm, hchild⟩ := leads_concat.1 hpath
    obtain ⟨hholds, -, hname⟩ := ht.up m name a hchild
    obtain ⟨n, hn⟩ := hholds.exists_get?
    have hlabel : t.label? a = some name := by
      rw [← hname, nameOf, label?, hn]
      rfl
    intro s hs
    rcases List.mem_append.1 hs with hs | hs
    · exact ih hm s hs
    · rw [List.mem_singleton.1 hs]
      exact h a name hlabel (ht.ne_root hchild)

end NamespaceTree

/-! ## Runs that bring in names only -/

namespace Compiling

variable {c other : Compilation}

theorem overlooks_label : Overlooks (fun c => c.namespaces.label?) fun _ => True where
  session _ _ := rfl
  rules _ _ := rfl
  definitions _ _ := rfl
  registered _ _ _ _ _ _ h := by
    obtain ⟨n, -, -, rfl⟩ := NamespaceTree.addDefinition_eq_ok h
    exact NamespaceTree.label?_insertDefinition _ _ _
  aliased _ _ _ _ _ _ h := by
    obtain ⟨n, -, -, rfl⟩ := NamespaceTree.addAlias_eq_ok h
    exact NamespaceTree.label?_insertAlias _ _ _

theorem overlooksScopes_label : OverlooksScopes (fun c => c.namespaces.label?) := fun _ _ => rfl

theorem named_openFile (h : c.namespaces.Named) {stem : String}
    (hstem : c.config.noFileNamespace = true ∨ stem.isEmpty = true ∨
      Text.isName stem.toList = true) : ((openFile stem).after c).namespaces.Named := by
  change NamespaceTree.Named ((if _ then _ else _ : Compiling Unit).after c).namespaces
  split
  · exact h
  · rename_i hopens
    rw [after_liftFault_bind]
    split
    · rename_i r hopen
      refine h.openAt ?_ hopen
      simp only [Bool.or_eq_true, not_or] at hopens
      simpa using (hstem.resolve_left hopens.1).resolve_left hopens.2
    · exact h

theorem named_openNamespacePath (hc : c.Intact) (h : c.namespaces.Named) {path : List String}
    (hpath : ∀ s ∈ path, Text.isName s.toList = true) :
    ((openNamespacePath path).after c).namespaces.Named := by
  obtain ⟨home, ns, t, scopes, -, hopen, -, hrun⟩ := run_openNamespacePath hc path
  rw [after, hrun]
  exact h.openAt hpath hopen

theorem named_openNamespace (hc : c.Intact) (h : c.namespaces.Named) (path : String) :
    ((openNamespace path).after c).namespaces.Named := by
  rw [after]
  cases hparse : Name.parseDotted (Text.trim path.toList) with
  | error e =>
    rw [run_openNamespace_of_error hparse]
    exact h
  | ok segments =>
    obtain ⟨home, ns, t, scopes, -, hopen, -, hrun⟩ := run_openNamespace hc hparse
    rw [hrun]
    exact h.openAt (Name.parseDotted_eq_ok_iff.1 hparse).2.1 hopen

theorem named_mount (h : c.namespaces.Named) (hother : other.namespaces.Named) {path : List String}
    (hpath : ∀ s ∈ path, Text.isName s.toList = true) :
    ((mount other path).after c).namespaces.Named := by
  have hopened : ((openPlaces other path).after c).namespaces.Named := by
    rw [openPlaces, after_get_bind, after_liftFault_bind]
    split
    · rename_i hopen
      rw [after_liftFault_bind]
      split
      · rename_i hcopy
        exact (h.openAt hpath hopen).copyTree hother hcopy
      · exact h
    · exact h
  rw [mount_eq, after, run_bind]
  cases (openPlaces other path).outcome c with
  | error e => exact hopened
  | ok mapping =>
    generalize (openPlaces other path).after c = c' at hopened ⊢
    have himport : ((importInto other mapping).after c').namespaces.label? = c'.namespaces.label? :=
      importInto_spares overlooks_label (fun _ _ => trivial) c'
    exact hopened.of_label? himport

variable {identity : Identity} {body : Content} {edges : List Inheritance} {noValue : NameSet}
  {span : Option Span} {id : DefId}

/-- A group whose spelling is taken in its scope is not registered. -/
theorem outcome_addGroup_of_bind {home : NamespaceId} {n : Namespace} {e : Failure}
    (hkind : body.kind = identity.kind) (hhome : c.home = .ok home)
    (hn : c.namespaces.table.get? home = some n) (hnew : n.definitions.get? identity = none)
    (hbind : c.scopes.bind identity.render (.definition c.definitions.nextId) = .error e) :
    (addGroup identity body edges noValue span).outcome c = .error e := by
  have hadd := NamespaceTree.addDefinition_of_none hn hnew c.definitions.nextId
  rw [addGroup, outcome_recording, if_neg (not_not.2 hkind), outcome]
  change (((liftM c.home : Compiling NamespaceId) >>= _).run c).1 = _
  rw [run_liftFault_bind hhome, run_bind]
  change ((((liftM (c.namespaces.addDefinition home identity c.definitions.nextId) : Compiling _) >>=
    _) >>= _).run _).1 = _
  rw [hadd]
  change ((((liftM (c.scopes.bind identity.render (.definition c.definitions.nextId)) : Compiling _)
    >>= _) >>= _).run _).1 = _
  rw [hbind]
  cases e <;> rfl

/-- A group that is registered is in the table of its namespace. -/
theorem definition?_of_addGroup (hc : c.Intact)
    (h : (addGroup identity body edges noValue span).outcome c = .ok id) :
    ∃ home, ((addGroup identity body edges noValue span).after c).namespaces.definition? home
      identity = some id := by
  obtain ⟨home, hhome, hholds⟩ := hc.finds_home
  obtain ⟨n, hn⟩ := hholds.exists_get?
  by_cases hkind : body.kind = identity.kind
  · cases htaken : n.definitions.get? identity with
    | some kept =>
      rw [outcome, run_addGroup_of_some edges noValue span hkind hhome hn htaken] at h
      cases h
    | none =>
      cases hbind : c.scopes.bind identity.render (.definition c.definitions.nextId) with
      | error e =>
        rw [outcome_addGroup_of_bind hkind hhome hn htaken hbind] at h
        cases h
      | ok scopes =>
        have hrun := run_addGroup_of_none edges noValue span hkind hhome hn htaken hbind
        rw [outcome, hrun] at h
        obtain rfl := Except.ok.inj h
        refine ⟨home, ?_⟩
        rw [after, hrun, NamespaceTree.definition?_insertDefinition hn, if_pos ⟨rfl, rfl⟩]
  · rw [outcome, run_addGroup_of_wrongKind edges noValue span hkind] at h
    cases h

end Compiling

/-- What the operation opens, has a name. A block is read as names in any case. -/
def Operation.BringsNames (op : Operation) (c : Compilation) : Prop :=
  match op with
  | openFile stem =>
    c.config.noFileNamespace = true ∨ stem.isEmpty = true ∨ Text.isName stem.toList = true
  | openNamespacePath path => ∀ s ∈ path, Text.isName s.toList = true
  | _ => True

namespace Compilation

variable {c : Compilation}

/-- All files and places of imports have names, also in what is imported. -/
inductive WellNamed : Compilation → Prop
  | initial (config : Config) : WellNamed (.initial config)
  | step {c : Compilation} (op : Operation) (hop : op.BringsNames c) (hc : WellNamed c) :
    WellNamed (op.after c)
  | mount {c other : Compilation} (path : List String)
    (hpath : ∀ s ∈ path, Text.isName s.toList = true) (hc : WellNamed c)
    (hother : WellNamed other) : WellNamed ((Compiling.mount other path).after c)

namespace WellNamed

theorem reachable (h : c.WellNamed) : c.Reachable := by
  induction h with
  | initial config => exact .initial config
  | step op _ _ ih => exact ih.step op
  | mount path _ _ _ ih ihother => exact ih.mount path ihother

theorem named (h : c.WellNamed) : c.namespaces.Named := by
  induction h with
  | initial config => exact NamespaceTree.initial_named
  | mount path hpath _ _ ih ihother => exact Compiling.named_mount ih ihother hpath
  | @step c op hop hc ih =>
    have hintact := hc.reachable.intact
    have hview := Compiling.overlooks_label
    have hscopes := Compiling.overlooksScopes_label
    have hspares {α : Type} {x : Compiling α}
        (hx : Compiling.Spares (fun c => c.namespaces.label?) x) : (x.after c).namespaces.Named :=
      ih.of_label? (hx c)
    cases op with
    | openFile stem => exact Compiling.named_openFile ih hop
    | openNamespacePath path => exact Compiling.named_openNamespacePath hintact ih hop
    | openNamespace path => exact Compiling.named_openNamespace hintact ih path
    | addGroup identity body edges noValue span =>
      exact hspares (Compiling.addGroup_spares hview hscopes identity body edges noValue span)
    | closeFile => exact hspares (Compiling.closeFile_spares hscopes fun _ _ => rfl)
    | closeNamespace => exact hspares (Compiling.closeNamespace_spares hscopes)
    | openScope kind => exact hspares (Compiling.openScope_spares hscopes kind)
    | closeScope => exact hspares (Compiling.closeScope_spares hscopes)
    | addRule denial reach span => exact hspares (Compiling.addRule_spares hview denial reach span)
    | addClause clause reach span =>
      exact hspares (Compiling.addClause_spares hview clause reach span)
    | nameDefinition name target span =>
      exact hspares (Compiling.nameDefinition_spares hview name target span)
    | nameNamespace name path span =>
      exact hspares (Compiling.nameNamespace_spares hview name path span)
    | setConfig config => exact ih
    | drainDiagnostics => exact ih
    | request r =>
      obtain ⟨s, hs, -⟩ := r.after_resolves kept_kinded c
      rw [Operation.after, hs]
      exact ih

end WellNamed

/-! ## From the path that is shown back to the namespace -/

/-- The namespace is found by the path that is shown of it. -/
def FoundBack (c : Compilation) (id : NamespaceId) : Prop :=
  ∃ path, c.pathTo id = .ok path ∧ c.namespaceAt path = .ok (some id)

theorem namespaceAt_of_names {path : List String}
    (h : ∀ s ∈ path, Text.isName s.toList = true) :
    c.namespaceAt (".".intercalate path) = c.namespaces.follow .root path := by
  have hdotted : (".".intercalate path).toList = Text.dotted path := String.toList_intercalate
  by_cases hpath : path = []
  · subst hpath
    rfl
  · have hword : ¬ (".".intercalate path).isEmpty = true := by
      rw [String.isEmpty_iff, ← String.toList_inj, hdotted]
      exact (Text.isWord_dotted hpath h).1
    have hread : Name.parseDotted (".".intercalate path).toList = .ok path :=
      Name.parseDotted_eq_ok_iff.2 ⟨hpath, h, hdotted⟩
    rw [namespaceAt, if_neg hword, hread]

/-- What is found by a path, has a path of names. -/
theorem isName_of_namespaceAt (hc : c.namespaces.Linked) {path : String} {id : NamespaceId}
    (h : c.namespaceAt path = .ok (some id)) :
    ∀ s ∈ c.namespaces.path id, Text.isName s.toList = true := by
  unfold namespaceAt at h
  split at h
  · obtain rfl : NamespaceId.root = id := Option.some.inj (Except.ok.inj h)
    rw [hc.path_eq (NamespaceTree.leads_nil.2 rfl)]
    simp
  · split at h
    · cases h
    · rename_i segments hsegments
      rw [hc.path_eq h]
      exact (Name.parseDotted_eq_ok_iff.1 hsegments).2.1

theorem foundBack_iff (hc : c.namespaces.Linked) {id : NamespaceId}
    (hid : c.namespaces.table.Holds id) :
    c.FoundBack id ↔ ∀ s ∈ c.namespaces.path id, Text.isName s.toList = true := by
  constructor
  · rintro ⟨path, -, hfound⟩
    exact isName_of_namespaceAt hc hfound
  · intro hnames
    exact ⟨_, pathTo_of_holds hid, (namespaceAt_of_names hnames).trans (hc.leads_path hid)⟩

theorem findDefinition_of_foundBack {id : NamespaceId} {path : String} {identity : Identity}
    {d : DefId} (hpath : c.pathTo id = .ok path) (h : c.FoundBack id)
    (hd : c.namespaces.definition? id identity = some d) :
    c.findDefinition path identity = .ok (some d) := by
  obtain ⟨path', hpath', hfound⟩ := h
  obtain rfl := Except.ok.inj (hpath.symm.trans hpath')
  obtain ⟨n, hn, hd⟩ := Option.bind_eq_some_iff.1 hd
  rw [findDefinition, hfound]
  change c.namespaces.definitionIn id identity = _
  rw [NamespaceTree.definitionIn, NamespaceTree.find, Arena.find_of_get? hn]
  exact congrArg Except.ok hd

/-- A namespace is found by the path that is shown of it exactly if its path consists of names. If all
files and places of imports have names, each namespace is found, each group that was registered is
found by the path of its namespace, and no two namespaces are shown alike. -/
theorem Reachable.found_back (hc : c.Reachable) (hfits : c.Fits) :
    (∀ id, c.namespaces.table.Holds id →
      (c.FoundBack id ↔ ∀ s ∈ c.namespaces.path id, Text.isName s.toList = true)) ∧
    (c.WellNamed →
      (∀ id, c.namespaces.table.Holds id → c.FoundBack id) ∧
      (∀ (before : Compilation) identity body edges noValue span id, before.Reachable →
        (Compiling.addGroup identity body edges noValue span).outcome before = .ok id →
        ((Compiling.addGroup identity body edges noValue span).after before).Later c →
        ∃ d path, c.definitions.get? id = some d ∧ d.identity = identity ∧
          c.pathTo d.home = .ok path ∧ c.findDefinition path identity = .ok (some id)) ∧
      ∀ a b path, c.pathTo a = .ok path → c.pathTo b = .ok path → a = b) := by
  have hlinked := hc.linked hfits
  refine ⟨fun id => foundBack_iff hlinked, fun hnamed => ?_⟩
  have hfound (id : NamespaceId) (hid : c.namespaces.table.Holds id) : c.FoundBack id :=
    (foundBack_iff hlinked hid).2 (hnamed.named.isName_of_leads hlinked (hlinked.leads_path hid))
  refine ⟨hfound, ?_, ?_⟩
  · intro before identity body edges noValue span id hbefore hout hlater
    obtain ⟨home, hhome⟩ := Compiling.definition?_of_addGroup hbefore.intact hout
    have hgrows := hlater.grows (hbefore.step (.addGroup identity body edges noValue span))
    have hlisted := hgrows.definition? hhome
    obtain ⟨n, hn, hid⟩ := Option.bind_eq_some_iff.1 hlisted
    obtain ⟨d, hd, hidentity, rfl⟩ := hc.filed hfits home n hn identity id hid
    have hholds := Arena.holds_of_get? hn
    have hpath := pathTo_of_holds hholds
    exact ⟨d, _, hd, hidentity, hpath,
      findDefinition_of_foundBack hpath (hfound d.home hholds) hlisted⟩
  · intro a b path ha hb
    have hholds {x : NamespaceId} (hx : c.pathTo x = .ok path) : c.namespaces.table.Holds x := by
      obtain ⟨p, hp, -⟩ := Except.bind_eq_ok hx
      obtain ⟨n, hn, -⟩ := Except.bind_eq_ok hp
      exact Arena.holds_of_get? (Arena.get?_of_find hn)
    have hback {x : NamespaceId} (hx : c.pathTo x = .ok path) :
        c.namespaceAt path = .ok (some x) := by
      obtain ⟨path', hpath', hfound⟩ := hfound x (hholds hx)
      rwa [Except.ok.inj (hx.symm.trans hpath')]
    exact Option.some.inj (Except.ok.inj ((hback ha).symm.trans (hback hb)))

end Compilation
/-- A file with a rope. -/
def pier : Compilation :=
  Operation.afterAll
    [.openFile "pier", .addGroup ⟨.custom, .style, "Rope"⟩ (.empty .style) [] .empty none]
    (.initial .initial)

theorem pier_wellNamed : pier.WellNamed := by
  have hfile : (Operation.openFile "pier").BringsNames (.initial .initial) :=
    Or.inr (Or.inr (by decide +kernel))
  exact .step (.addGroup _ _ _ _ _) trivial (.step _ hfile (.initial _))

/-- The file is imported into another of its kind, which is in its place. -/
def harbor : Compilation := (Compiling.mount pier ["lib", "sea"]).after pier

theorem found_back_harbor :
    harbor.Reachable ∧ harbor.Fits ∧ harbor.WellNamed ∧ harbor.pathTo ⟨4⟩ = .ok "lib.sea.pier" ∧
      harbor.FoundBack ⟨4⟩ ∧ harbor.findDefinition "pier" ⟨.custom, .style, "Rope"⟩ =
        .ok (some ⟨0⟩) := by
  have hnamed : harbor.WellNamed :=
    .mount _ (by decide +kernel) pier_wellNamed pier_wellNamed
  have hreach := hnamed.reachable
  have hfits : harbor.Fits := ⟨by decide +kernel, by decide +kernel⟩
  have hfile : ((Operation.openFile "pier").after (.initial .initial)).Reachable :=
    (Reachable.initial .initial).step _
  obtain ⟨-, hall⟩ := hreach.found_back hfits
  obtain ⟨hfound, hgroups, -⟩ := hall hnamed
  obtain ⟨d, path, hd, -, hpath, hrope⟩ := hgroups _ ⟨.custom, .style, "Rope"⟩ (.empty .style) []
    .empty none ⟨0⟩ hfile (by rfl) (.mount _ .refl pier_wellNamed.reachable)
  have hd' : (harbor.definitions.get? ⟨0⟩).map Definition.home = some ⟨1⟩ := by decide +kernel
  have hhome : d.home = ⟨1⟩ := by simpa [hd] using hd'
  have hpier : harbor.pathTo ⟨1⟩ = .ok "pier" := by decide +kernel
  obtain rfl : path = "pier" := Except.ok.inj (hpath.symm.trans (hhome ▸ hpier))
  exact ⟨hreach, hfits, hnamed, by decide +kernel, hfound ⟨4⟩ (by decide +kernel), hrope⟩

/-- A file that is named like a path, and then a block of that path. -/
def draft : Compilation :=
  Operation.afterAll [.openFile "a.b", .closeFile, .openNamespace "a.b"] (.initial .initial)

/-- The namespace of such a file is not found, and the one of the block is shown like it. -/
theorem not_foundBack_draft :
    draft.Reachable ∧ draft.Fits ∧ draft.namespaces.table.Holds ⟨1⟩ ∧ ¬ draft.FoundBack ⟨1⟩ ∧
      draft.pathTo ⟨1⟩ = .ok "a.b" ∧ draft.pathTo ⟨3⟩ = .ok "a.b" := by
  have hreach : draft.Reachable := (Reachable.initial .initial).afterAll _
  have hfits : draft.Fits := ⟨by decide +kernel, by decide +kernel⟩
  have hpath : draft.pathTo ⟨1⟩ = .ok "a.b" := by decide +kernel
  refine ⟨hreach, hfits, by decide +kernel, ?_, hpath, by decide +kernel⟩
  rintro ⟨path, hpath', hfound⟩
  obtain rfl := Except.ok.inj (hpath.symm.trans hpath')
  have hblock : draft.namespaceAt "a.b" = .ok (some ⟨3⟩) := by decide +kernel
  rw [hblock] at hfound
  cases hfound

end Stencil
