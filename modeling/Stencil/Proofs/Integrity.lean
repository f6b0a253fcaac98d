import Stencil.Proofs.Mismatch
import Stencil.Proofs.RequestOrder
import Stencil.Proofs.Union

/-! # Whatever is done, a compilation is consistent

Tables, aliases, rules and scopes refer to what is there, and definitions are listed as what they are.
So nothing that is asked comes upon an id outside of a table, inheritance never mixes kinds, and no
alias is left behind by an import.
-/
namespace Stencil

open Resolving (Safe)

/-! ## Questions that have an answer -/

namespace Library.Closed

variable {l : Library} {start : NamespaceId}

theorem finds_addVisible {P : DefId → Prop} {category : Category} {seen : List (Identity × DefId)}
    {id : DefId} (hseen : ∀ e ∈ seen, P e.2) (hid : P id) (hstored : l.definitions.Holds id) :
    Finds (l.addVisible category seen id) fun seen => ∀ e ∈ seen, P e.2 := by
  apply (Arena.finds_find hstored).bind
  intro d _
  apply Finds.pure
  split
  · intro e he
    rcases List.mem_append.1 he with he | he
    · exact hseen e he
    · exact List.mem_singleton.1 he ▸ hid
  · exact hseen

/-- The definitions that are visible from a namespace are registered. -/
theorem finds_visible (hl : l.Closed) (hstart : l.namespaces.table.Holds start)
    (category : Category) :
    Finds (l.visible start category) fun ids => ∀ id ∈ ids, l.namespaces.Lists id := by
  apply (NamespaceTree.finds_outwardFrom hstart).bind
  rintro spaces ⟨-, hspaces⟩
  apply Finds.bind (P := fun all => ∀ ids ∈ all, ∀ id ∈ ids, l.namespaces.Lists id)
  · refine Finds.mapM (Q := fun ids => ∀ id ∈ ids, l.namespaces.Lists id) fun ns hns => ?_
    apply (Arena.finds_find (hspaces ns hns)).bind
    intro n hn
    refine .pure fun id hid => ?_
    obtain ⟨identity, hget⟩ := Namespace.mem_registered.1 hid
    exact ⟨ns, n, identity, hn, hget⟩
  · intro all hall
    apply Finds.bind (P := fun seen => ∀ e ∈ seen, l.namespaces.Lists e.2)
    · refine .foldlM (fun seen id hid hseen => ?_) (by simp)
      obtain ⟨ids, hids, hid⟩ := List.mem_flatten.1 hid
      obtain ⟨ns, n, identity, hn, hget⟩ := hall ids hids id hid
      exact finds_addVisible hseen ⟨ns, n, identity, hn, hget⟩ (hl.registered hn hget)
    · intro seen hseen
      refine .pure fun id hid => ?_
      obtain ⟨e, he, rfl⟩ := List.mem_map.1 hid
      exact hseen e he

end Library.Closed

namespace Compiling

variable {α : Type} {c : Compilation} {P : α → Prop}

theorem answers_recording {x : Compiling α} (span : Option Span) (h : Answers (x.outcome c) P) :
    Answers ((recording span x).outcome c) P := by
  rw [outcome_recording]
  exact h

theorem answers_resolving {x : Environment → Resolving α} (h : Safe (x c.environment) P) :
    Answers ((resolving x).outcome c) P :=
  (h c.session trivial).1

theorem answers_parseName_bind {f : Name → Compiling α} (token : String)
    (hf : ∀ n, Answers ((f n).outcome c) P) : Answers ((parseName token >>= f).outcome c) P := by
  unfold parseName
  split
  · exact hf _
  · exact .inr ⟨_, rfl⟩

variable {site : UseSite}

theorem answers_instanceOfName (hc : c.Closed) (hsite : site.Within c.environment) (n : Name)
    (edits : List Edit) (expected : Category) (span : Option Span) :
    Answers ((instanceOfName n edits expected site span).outcome c) fun _ => True :=
  answers_recording span (answers_resolving
    (Environment.instanceOf_safe hc.library hsite n edits expected))

theorem answers_instanceFor (hc : c.Closed) (hsite : site.Within c.environment) (token : String)
    (expected : Category) : Answers ((instanceFor token expected site).outcome c) fun _ => True := by
  unfold instanceFor parseName
  split
  · exact answers_instanceOfName hc hsite _ [] expected none
  · exact .inr ⟨_, rfl⟩

theorem answers_instanceOrEmpty (hc : c.Closed) (hsite : site.Within c.environment)
    (token : String) (expected : Category) :
    Answers ((instanceOrEmpty token expected site).outcome c) fun _ => True := by
  rw [outcome, instanceOrEmpty, run_tryCatch]
  rcases answers_instanceFor hc hsite token expected with ⟨inst, hinst, -⟩ | ⟨e, he⟩
  · rw [hinst]
    exact .inl ⟨inst, rfl, trivial⟩
  · rw [he]
    exact .inl ⟨_, rfl, trivial⟩

theorem answers_contentOf (hc : c.Closed) (id : DefId) :
    Answers ((contentOf id).outcome c) fun _ => True := by
  cases hd : c.definitions.get? id with
  | none =>
    rw [outcome_contentOf_of_none hd]
    exact .inr ⟨_, rfl⟩
  | some d =>
    rw [outcome_contentOf_of_some hd]
    exact (hc.library.content_safe (Arena.holds_of_get? hd) c.session trivial).1

theorem answers_definitionFor (hc : c.Closed) (hsite : site.Within c.environment) (token : String)
    (expected : Category) :
    Answers ((definitionFor token expected site).outcome c) fun id => c.definitions.Holds id := by
  apply answers_recording
  apply answers_parseName_bind
  intro n
  exact Environment.answers_resolveUse hc.library hsite n expected

theorem answers_variableValue (hc : c.Closed) (hsite : site.Within c.environment)
    (group key : String) (override : Option String) :
    Answers ((variableValue group key override site).outcome c) fun _ => True := by
  apply answers_recording
  apply answers_parseName_bind
  intro n
  exact answers_resolving (Environment.variableValue_safe hc.library hsite n key override)

end Compiling

namespace Request

/-- The place from which is asked. -/
def site? : Request → Option UseSite
  | definitionFor _ _ site => some site
  | instanceOfName _ _ _ site _ => some site
  | instanceOfUsage _ _ site => some site
  | instanceFor _ _ site => some site
  | instanceOrEmpty _ _ site => some site
  | contentOf _ => none
  | checkTag _ site => some site
  | variableValue _ _ _ site => some site
  | fillIn _ site => some site

/-- The request gives something or an error of the source text; it ends in no fault. -/
def Answered (r : Request) (c : Compilation) : Prop :=
  match r with
  | definitionFor token expected site =>
    Answers ((Compiling.definitionFor token expected site).outcome c) fun id =>
      c.definitions.Holds id
  | instanceOfName n edits expected site span =>
    Answers ((Compiling.instanceOfName n edits expected site span).outcome c) fun _ => True
  | instanceOfUsage u expected site =>
    Answers ((Compiling.instanceOfUsage u expected site).outcome c) fun _ => True
  | instanceFor token expected site =>
    Answers ((Compiling.instanceFor token expected site).outcome c) fun _ => True
  | instanceOrEmpty token expected site =>
    Answers ((Compiling.instanceOrEmpty token expected site).outcome c) fun _ => True
  | contentOf id => Answers ((Compiling.contentOf id).outcome c) fun _ => True
  | checkTag tag site => Answers ((Compiling.checkTag tag site).outcome c) fun _ => True
  | variableValue group key override site =>
    Answers ((Compiling.variableValue group key override site).outcome c) fun _ => True
  | fillIn text site => Answers ((Compiling.fillIn text site).outcome c) fun _ => True

/-- What is asked from a place of a closed compilation has an answer. -/
theorem answered {c : Compilation} (hc : c.Closed) (r : Request)
    (hsite : ∀ site, r.site? = some site → site.Within c.environment) : r.Answered c := by
  cases r with
  | definitionFor token expected site =>
    exact Compiling.answers_definitionFor hc (hsite site rfl) token expected
  | instanceOfName n edits expected site span =>
    exact Compiling.answers_instanceOfName hc (hsite site rfl) n edits expected span
  | instanceOfUsage u expected site =>
    exact Compiling.answers_instanceOfName hc (hsite site rfl) u.name u.edits expected u.span
  | instanceFor token expected site =>
    exact Compiling.answers_instanceFor hc (hsite site rfl) token expected
  | instanceOrEmpty token expected site =>
    exact Compiling.answers_instanceOrEmpty hc (hsite site rfl) token expected
  | contentOf id => exact Compiling.answers_contentOf hc id
  | checkTag tag site =>
    exact Compiling.answers_recording none (Environment.answers_checkUse (hsite site rfl) _)
  | variableValue group key override site =>
    exact Compiling.answers_variableValue hc (hsite site rfl) group key override
  | fillIn text site =>
    have hwithin := hsite site rfl
    exact Compiling.answers_resolving
      (Environment.fillIn_safe hc.library hwithin hwithin.home text)

end Request

/-! ## Consistency -/

namespace Compilation

variable {c : Compilation}

/-- Every stored id points into its table. A namespace lists a definition under the identity and for
the namespace with which it is stored, and its content is of the kind. An alias stands for a definition
that is listed by its own namespace. -/
structure Consistent (c : Compilation) : Prop extends c.Closed where
  listed : ∀ ns n identity id, c.namespaces.table.get? ns = some n →
    n.definitions.get? identity = some id →
    ∃ d, c.definitions.get? id = some d ∧ d.identity = identity ∧ d.home = ns ∧
      d.body.kind = identity.kind
  aliased : ∀ ns n name id, c.namespaces.table.get? ns = some n →
    n.aliases.get? name = some (.definition id) →
    ∃ d home, c.definitions.get? id = some d ∧ c.namespaces.table.get? d.home = some home ∧
      home.definitions.get? d.identity = some id

theorem Intact.consistent (hc : c.Intact) (hfiled : c.Filed) : c.Consistent where
  toClosed := hc.toClosed
  listed ns n identity id hn hid := by
    obtain ⟨d, hd, rfl, hhome⟩ := hfiled ns n hn identity id hid
    exact ⟨d, hd, rfl, hhome, hc.kinds id d hd⟩
  aliased ns n name id hn hid := by
    obtain ⟨home, n', identity, hn', hlisted⟩ := hc.aliases ns n hn name id hid
    obtain ⟨d, hd, rfl, rfl⟩ := hfiled home n' hn' identity id hlisted
    exact ⟨d, n', hd, hn', hlisted⟩

/-- What can be asked has an answer: no look-up comes upon an id outside of a table. -/
structure Answering (c : Compilation) : Prop where
  site : Finds c.site fun site => site.Within c.environment
  requests : ∀ r : Request, (∀ site, r.site? = some site → site.Within c.environment) →
    r.Answered c
  visible : ∀ (site : UseSite) category, site.Within c.environment →
    Finds (c.visible site category) fun ids => ∀ id ∈ ids, c.definitions.Holds id
  violation : ∀ (site : UseSite) target, site.Within c.environment →
    Finds (c.violation site target) fun _ => True
  findDefinition : ∀ path identity, Finds (c.findDefinition path identity) fun r =>
    ∀ id, r = some id → c.definitions.Holds id
  pathTo : ∀ ns, c.namespaces.table.Holds ns → Finds (c.pathTo ns) fun _ => True

theorem Closed.finds_namespaceAt (hc : c.Closed) (path : String) :
    Finds (c.namespaceAt path) fun r => ∀ ns, r = some ns → c.namespaces.table.Holds ns := by
  unfold namespaceAt
  split
  · exact .pure fun ns hns => Option.some.inj hns ▸ hc.root
  · split
    · exact .pure nofun
    · exact hc.library.finds_follow _ hc.root

theorem Intact.answering (hc : c.Intact) : c.Answering where
  site := by
    apply hc.finds_home.bind
    exact fun home hhome => .pure ⟨hc.current, hhome⟩
  requests := Request.answered hc.toClosed
  visible _ category hsite := by
    apply (hc.toClosed.library.finds_visible hsite.home category).mono
    exact fun ids hids id hid => hc.holds_of_lists (hids id hid)
  violation _ target hsite := Environment.finds_denying hsite target
  findDefinition path identity := by
    apply (hc.toClosed.finds_namespaceAt path).bind
    intro r hr
    cases r with
    | none => exact .pure nofun
    | some ns =>
      apply (Arena.finds_find (hr ns rfl)).bind
      exact fun n hn => .pure fun id hid => hc.toClosed.library.registered hn hid
  pathTo ns hns := by
    apply Finds.bind (P := fun _ => True)
    · exact (Arena.finds_find hns).bind fun _ _ => .pure trivial
    · exact fun _ _ => .pure trivial

/-- Wherever a walk down the inheritance would come upon content of another kind, something else could
stand in place of the error: from all that can be remembered, it would run the same. -/
structure Unmixed (c : Compilation) : Prop where
  walk : c.library.descendOr Library.mismatch = c.library.descend
  session : c.library.Kinded c.session
  unreached : ∀ instead path id excluded s, c.library.Kinded s →
    (c.library.descendOr instead path id excluded).run s =
      (c.library.descend path id excluded).run s ∧
    c.library.Kinded ((c.library.descend path id excluded).after s)

theorem Reachable.unmixed (hc : c.Reachable) (hfits : c.Fits) : c.Unmixed where
  walk := funext fun path => Library.descendOr_mismatch path
  session := hc.kinded
  unreached instead path id excluded s hs := by
    have huniform := hc.intact.uniform (hc.filed hfits)
    obtain ⟨hgives, hrun⟩ := huniform.descendOr_alike instead path id excluded
    exact ⟨hrun s hs, (hgives s hs).2⟩

/-- Everything that can be reached within the ids is consistent. Therefore all that is asked has an
answer, kinds are not mixed, and an import brings in every alias whose name is free. -/
theorem Reachable.integrity (hc : c.Reachable) (hfits : c.Fits) :
    c.Consistent ∧ c.Answering ∧ c.Unmixed ∧
    ∀ other path, other.Reachable → other.Fits → ((Compiling.mount other path).after c).Fits →
      ∀ q name m, other.NamedAt q name m → (∀ m', ¬ c.NamedAt (path ++ q) name m') →
        ∃ m', ((Compiling.mount other path).after c).NamedAt (path ++ q) name m' ∧
          Corresponds other path ((Compiling.mount other path).after c) m m' := by
  refine ⟨hc.intact.consistent (hc.filed hfits), hc.intact.answering, hc.unmixed hfits, ?_⟩
  intro other path hother hofits hfits' q name m hm hnone
  obtain ⟨-, mapping, moved, h⟩ := hc.mounted hother hofits path hfits'
  exact h.exists_moved hother.intact (hc.linked hfits) (hother.linked hofits)
    ((hc.mount path hother).linked hfits') hm hnone

end Compilation

/-- After the import into the library all is consistent, the alias whose name was free is there, and it
can be asked for. -/
theorem integrity_stocked :
    stocked.Reachable ∧ stocked.Fits ∧ stocked.Consistent ∧ stocked.Unmixed ∧
    (Request.instanceFor "@Style Top" .any ⟨.global, ⟨1⟩⟩).Answered stocked ∧
    ∃ m, stocked.NamedAt ["lib"] "Top" m := by
  have hshelf : shelf.Reachable := (Compilation.Reachable.initial .initial).afterAll _
  have hstock : stock.Reachable := (Compilation.Reachable.initial .initial).afterAll _
  have hreach : stocked.Reachable := hshelf.mount ["lib"] hstock
  have hfits : stocked.Fits := ⟨by decide +kernel, by decide +kernel⟩
  have hofits : stock.Fits := ⟨by decide +kernel, by decide +kernel⟩
  have hnone (m : Meaning) : ¬ shelf.NamedAt (["lib"] ++ []) "Top" m := by
    rintro ⟨ns, hns, hm⟩
    have hlib : shelf.SpaceAt ["lib"] ⟨1⟩ :=
      NamespaceTree.leads_cons.2 ⟨⟨1⟩, by decide +kernel, NamespaceTree.leads_nil.2 rfl⟩
    have hempty : shelf.namespaces.alias? ⟨1⟩ "Top" = none := by decide +kernel
    rw [← NamespaceTree.Leads.unique hlib hns, hempty] at hm
    cases hm
  obtain ⟨hconsistent, hanswering, hunmixed, -⟩ := hreach.integrity hfits
  obtain ⟨-, -, -, himport⟩ := hshelf.integrity ⟨by decide +kernel, by decide +kernel⟩
  obtain ⟨m, hm, -⟩ := himport stock ["lib"] hstock hofits hfits [] "Top" (.definition ⟨1⟩)
    ⟨.root, NamespaceTree.leads_nil.2 rfl, by decide +kernel⟩ hnone
  refine ⟨hreach, hfits, hconsistent, hunmixed, ?_, m, hm⟩
  refine hanswering.requests _ fun site hsite => ?_
  obtain rfl := Option.some.inj hsite
  exact ⟨by decide +kernel, by decide +kernel⟩

end Stencil
