import Stencil.Proofs.Inheritance
import Stencil.Proofs.Lookup
import Stencil.Proofs.Requests

/-! # Whatever is asked of a closed compilation has an answer

From a place of a closed compilation every resolution gives something or an error of the source text.
It never comes upon an id outside of a table, whatever is remembered.
-/
namespace Stencil

namespace Resolving

variable {α β : Type} {P : α → Prop} {Q : β → Prop}

/-- From every session the resolution gives something that satisfies `P`, or an error of the source
text; it ends in no fault. -/
def Safe (x : Resolving α) (P : α → Prop) : Prop := Yields (fun _ => True) x fun r => Answers r P

namespace Safe

variable {x : Resolving α} {f : α → Resolving β}

theorem pure {a : α} (h : P a) : Safe (pure a) P := Yields.pure (.pure h)

theorem refuse (e : Problem) : Safe (refuse e) P := Yields.refuse .refuse

theorem bind (hx : Safe x P) (hf : ∀ a, P a → Safe (f a) Q) : Safe (x >>= f) Q := by
  apply Yields.bind hx
  · rintro a (⟨a', ha', ha⟩ | ⟨e, he⟩)
    · exact hf a (Except.ok.inj ha' ▸ ha)
    · cases he
  · rintro e (⟨a, ha, -⟩ | ⟨e', he'⟩)
    · cases ha
    · exact .inr ⟨e', congrArg Except.error (Except.error.inj he')⟩

theorem lift {r : Except Failure α} (h : Answers r P) : Safe (liftM r) P := Yields.lift h

theorem liftFault {r : Except Fault α} (h : Finds r P) : Safe (liftM r) P := by
  obtain ⟨a, rfl, ha⟩ := h
  exact Yields.liftFault (.inl ⟨a, rfl, ha⟩)

theorem liftProblem {r : Except Problem α} (h : ∀ a, r = .ok a → P a) : Safe (liftM r) P := by
  apply Yields.liftProblem
  cases r with
  | error e => exact .inr ⟨e, rfl⟩
  | ok a => exact .inl ⟨a, rfl, h a rfl⟩

theorem attempt (hx : Safe x P) : Safe (attempt x) fun r => ∀ a, r = .ok a → P a := by
  apply Yields.attempt hx
  · rintro a (⟨a', ha', ha⟩ | ⟨e, he⟩)
    · exact .pure fun b hb => Except.ok.inj hb ▸ Except.ok.inj ha' ▸ ha
    · cases he
  · exact fun e _ => .pure nofun
  · rintro f (⟨a, ha, -⟩ | ⟨e, he⟩)
    · cases ha
    · cases he

theorem report (e : Problem) (span : Option Span) : Safe (report e span) fun _ => True :=
  Yields.report (fun _ _ => trivial) (.pure trivial)

theorem reportAll (es : List Problem) : Safe (reportAll es) fun _ => True :=
  Yields.reportAll (fun _ _ _ => trivial) (.pure trivial)

theorem remembered (id : DefId) : Safe (remembered id) fun _ => True :=
  Yields.remembered fun _ _ => .pure trivial

theorem remember (id : DefId) (known : Except Problem Content) :
    Safe (remember id known) fun _ => True :=
  Yields.remember (fun _ _ => trivial) (.pure trivial)

theorem mapM {as : List α} (hf : ∀ a, Safe (f a) fun _ => True) :
    Safe (as.mapM f) fun _ => True := by
  induction as with
  | nil => exact pure trivial
  | cons a as ih =>
    rw [List.mapM_cons]
    apply (hf a).bind
    intro b _
    apply ih.bind
    exact fun bs _ => pure trivial

theorem foldlM {f : β → α → Resolving β} {as : List α}
    (hf : ∀ b, ∀ a ∈ as, Q b → Safe (f b a) Q) {b : β} (hb : Q b) : Safe (as.foldlM f b) Q := by
  induction as generalizing b with
  | nil => exact pure hb
  | cons a as ih =>
    rw [List.foldlM_cons]
    apply (hf b a List.mem_cons_self hb).bind
    intro b hb
    exact ih (fun b a ha => hf b a (List.mem_cons_of_mem _ ha)) hb

end Safe
end Resolving

open Resolving

/-! ## Inheritance -/

namespace Library

variable {l : Library} {id : DefId} {d : Definition}

theorem Stored.nil (l : Library) : l.Stored [] := nofun

theorem Stored.of_holds {path : List DefId} (h : l.Stored path) (hid : l.definitions.Holds id) :
    l.Stored (id :: path) := by
  intro q hq
  rcases List.mem_cons.1 hq with rfl | hq
  · exact hid.exists_get?
  · exact h q hq

namespace Closed

theorem answers_parentOf (hl : l.Closed) (hd : l.definitions.get? id = some d) (e : Inheritance) :
    Answers (l.parentOf d e) fun p => l.definitions.Holds p := by
  apply (hl.answers_resolve e.target (.ofKind d.kind) (hl.definitions id d hd)).mono
  rintro p ⟨c, -, hoffers⟩
  exact hoffers.holds hl

theorem holds_of_inherits (hl : l.Closed) {p : DefId} (h : l.Inherits id p) :
    l.definitions.Holds p := by
  obtain ⟨d, hd, e, -, hp⟩ := h
  rcases hl.answers_parentOf hd e with ⟨p', hp', hholds⟩ | ⟨e', he'⟩
  · rw [hp] at hp'
    exact Except.ok.inj hp' ▸ hholds
  · rw [hp] at he'
    cases he'

theorem finds_parents (hl : l.Closed) (hid : l.definitions.Holds id) :
    Finds (l.parents id) fun ps => ∀ p, p ∈ ps ↔ l.Inherits id p := by
  apply (Arena.finds_find hid).bind
  intro d hd
  apply (Finds.filterMapM (R := fun e p => l.parentOf d e = .ok p) fun e _ => ?_).mono
  · intro ps hps p
    rw [hps]
    constructor
    · rintro ⟨e, he, hp⟩
      exact ⟨d, hd, e, he, hp⟩
    · rintro ⟨d', hd', e, he, hp⟩
      obtain rfl := Option.some.inj (hd.symm.trans hd')
      exact ⟨e, he, hp⟩
  · rcases hl.answers_parentOf hd e with ⟨p, hp, -⟩ | ⟨e', he'⟩
    · rw [hp]
      exact .pure fun p' => by simp
    · rw [he']
      exact .pure fun p' => by simp

end Closed

/-! ## What a definition inherits from -/

theorem mem_unseen {root p : DefId} {seen ids : List DefId} :
    p ∈ unseen root seen ids ↔ p ∈ ids ∧ p ≠ root ∧ p ∉ seen := by
  induction ids generalizing seen with
  | nil => simp [unseen]
  | cons q ids ih =>
    rw [unseen]
    split
    · rename_i hq
      rw [ih, List.mem_cons]
      constructor
      · exact fun h => ⟨.inr h.1, h.2⟩
      · rintro ⟨rfl | hp, hroot, hseen⟩
        · exact absurd hq (by simp [hroot, hseen])
        · exact ⟨hp, hroot, hseen⟩
    · rename_i hq
      rw [List.mem_cons, ih, List.mem_cons, List.mem_cons]
      by_cases hp : p = q
      · subst hp
        simpa using hq
      · simp [hp]

/-- How far the search for the definitions that `root` inherits from has come: those on the stack
have been found, and for all others that have been found also what they inherit from. -/
structure Collecting (l : Library) (root : DefId) (stack order : List DefId) : Prop where
  nodup : (root :: order).Nodup
  found : ∀ p ∈ order, Relation.TransGen l.Inherits root p
  pending : ∀ p ∈ stack, p ∈ root :: order
  done : ∀ q ∈ root :: order, q ∈ stack ∨ ∀ p, l.Inherits q p → p ∈ root :: order

namespace Collecting

variable {root current : DefId} {order rest ps : List DefId}

theorem start (root : DefId) : l.Collecting root [root] [] where
  nodup := by simp
  found := nofun
  pending _ hp := hp
  done _ hq := .inl hq

theorem reaches (h : l.Collecting root (current :: rest) order) {p : DefId}
    (hp : l.Inherits current p) : Relation.TransGen l.Inherits root p := by
  rcases List.mem_cons.1 (h.pending current List.mem_cons_self) with rfl | hcurrent
  · exact .single hp
  · exact (h.found current hcurrent).tail hp

/-- Taking one definition from the stack adds what it inherits from, as far as that is new. -/
theorem step (h : l.Collecting root (current :: rest) order)
    (hps : ∀ p, p ∈ ps ↔ l.Inherits current p) :
    l.Collecting root ((unseen root order ps).reverse ++ rest) (order ++ unseen root order ps) where
  nodup := by
    obtain ⟨hroot, horder⟩ := List.nodup_cons.1 h.nodup
    rw [List.nodup_cons, List.nodup_append]
    refine ⟨?_, horder, nodup_unseen _ _ _, ?_⟩
    · simp [hroot, mem_unseen]
    · rintro p hp q hq rfl
      exact (mem_unseen.1 hq).2.2 hp
  found p hp := by
    rcases List.mem_append.1 hp with hp | hp
    · exact h.found p hp
    · exact h.reaches ((hps p).1 (mem_unseen.1 hp).1)
  pending p hp := by
    rcases List.mem_append.1 hp with hp | hp
    · simp only [List.mem_cons, List.mem_append]
      exact .inr (.inr (List.mem_reverse.1 hp))
    · have hold := h.pending p (List.mem_cons_of_mem _ hp)
      simp only [List.mem_cons, List.mem_append] at hold ⊢
      tauto
  done q hq := by
    have hmore : ∀ p, p ∈ root :: order → p ∈ root :: (order ++ unseen root order ps) := by
      simp only [List.mem_cons, List.mem_append]
      tauto
    rw [← List.cons_append] at hq
    rcases List.mem_append.1 hq with hq | hq
    · rcases h.done q hq with hstack | hclosed
      · rcases List.mem_cons.1 hstack with rfl | hrest
        · right
          intro p hp
          by_cases hseen : p ∈ root :: order
          · exact hmore p hseen
          · simp only [List.mem_cons, not_or] at hseen
            rw [← List.cons_append]
            exact List.mem_append_right _ (mem_unseen.2 ⟨(hps p).2 hp, hseen⟩)
        · exact .inl (List.mem_append_right _ hrest)
      · exact .inr fun p hp => hmore p (hclosed p hp)
    · exact .inl (List.mem_append_left _ (List.mem_reverse.2 hq))

/-- Once nothing is on the stack, all has been found. -/
theorem mem_iff (h : l.Collecting root [] order) (p : DefId) :
    p ∈ order ↔ p ≠ root ∧ Relation.TransGen l.Inherits root p := by
  have hclosed : ∀ q, q ∈ root :: order → ∀ p, l.Inherits q p → p ∈ root :: order := by
    intro q hq
    exact (h.done q hq).resolve_left (by simp)
  constructor
  · intro hp
    refine ⟨?_, h.found p hp⟩
    rintro rfl
    exact (List.nodup_cons.1 h.nodup).1 hp
  · rintro ⟨hne, hreach⟩
    have hmem : p ∈ root :: order := by
      clear hne
      induction hreach with
      | single hp => exact hclosed root List.mem_cons_self _ hp
      | tail _ hp ih => exact hclosed _ ih _ hp
    exact (List.mem_cons.1 hmem).resolve_left hne

end Collecting

namespace Closed

theorem finds_collectAncestors (hl : l.Closed) {root : DefId} {stack order : List DefId}
    (hroot : l.definitions.Holds root) (h : l.Collecting root stack order) :
    Finds (l.collectAncestors root stack order) fun ids => l.Collecting root [] ids := by
  have hholds {p : DefId} (hp : Relation.TransGen l.Inherits root p) : l.definitions.Holds p := by
    cases hp with
    | single hp => exact hl.holds_of_inherits hp
    | tail _ hp => exact hl.holds_of_inherits hp
  match stack with
  | [] =>
    rw [collectAncestors]
    exact .pure h
  | current :: rest =>
    have hcurrent : l.definitions.Holds current := by
      rcases List.mem_cons.1 (h.pending current List.mem_cons_self) with rfl | hfound
      · exact hroot
      · exact hholds (h.found current hfound)
    rw [collectAncestors]
    apply (hl.finds_parents hcurrent).bind
    intro ps hps
    have hps' : ∀ p, p ∈ ps.reverse ↔ l.Inherits current p := by simpa using hps
    have hnew : ∀ p ∈ unseen root order ps.reverse, (l.definitions.get? p).isSome := by
      intro p hp
      obtain ⟨d, hd⟩ := (hl.holds_of_inherits ((hps' p).1 (mem_unseen.1 hp).1)).exists_get?
      rw [hd]
      rfl
    rw [dif_pos hnew]
    have := collect_lt current rest hnew
    exact hl.finds_collectAncestors hroot (h.step hps')
termination_by 2 * l.definitions.unvisited order + stack.length
decreasing_by simpa using this

/-- The definitions that `id` inherits from, directly or not, are found, each once. -/
theorem finds_ancestors (hl : l.Closed) (hid : l.definitions.Holds id) :
    Finds (l.ancestors id) fun ids =>
      ids.Nodup ∧ ∀ p, p ∈ ids ↔ p ≠ id ∧ Relation.TransGen l.Inherits id p := by
  apply (hl.finds_collectAncestors hid (.start id)).mono
  intro ids h
  exact ⟨(List.nodup_cons.1 h.nodup).2, h.mem_iff⟩

/-! ## Content -/

theorem excludeAll_safe (hl : l.Closed) (hd : l.definitions.get? id = some d) (edits : List Edit)
    (excluded : List DefId) : Safe (l.excludeAll id d edits excluded) fun _ => True := by
  unfold excludeAll
  dsimp only
  split
  · exact .pure trivial
  · apply (Safe.liftFault (hl.finds_ancestors (Arena.holds_of_get? hd))).bind
    intro ancestors _
    refine .foldlM (Q := fun _ => True) (fun excluded target _ _ => ?_) trivial
    have hresolve := hl.answers_resolve target (.ofKind d.kind) (hl.definitions id d hd)
    apply (Safe.liftFault hresolve.settle).bind
    intro r _
    have hwarn : Safe (do
        report (.dangling ("delete " ++ target.render) d.identity.render) none
        return excluded) fun _ => True :=
      (Safe.report _ _).bind fun _ _ => .pure trivial
    cases r with
    | error e => exact hwarn
    | ok p =>
      change Safe (if _ then _ else _) _
      split
      · exact .pure trivial
      · exact hwarn

theorem editFlat_safe (hl : l.Closed) {flat : List DefId → Resolving Content}
    (hid : l.definitions.Holds id) (hflat : ∀ excluded, Safe (flat excluded) fun _ => True)
    (edits : List Edit) (excluded : List DefId) :
    Safe (l.editFlat flat id edits excluded) fun _ => True := by
  unfold editFlat
  split
  · exact hflat excluded
  · apply (Safe.liftFault (Arena.finds_find hid)).bind
    intro d hd
    apply (hl.excludeAll_safe hd edits excluded).bind
    intro fewer _
    apply (hflat fewer).bind
    intro base _
    apply (Safe.reportAll _).bind
    exact fun _ _ => .pure trivial

theorem gather_safe (hl : l.Closed) (hd : l.definitions.get? id = some d) (excluded : List DefId)
    {flat : DefId → List DefId → Resolving Content}
    (hflat : ∀ p, l.definitions.Holds p → ∀ excluded, Safe (flat p excluded) fun _ => True) :
    Safe (l.gather d excluded flat) fun _ => True := by
  apply Safe.bind (P := fun _ => True)
  · refine .foldlM (fun gathered e _ _ => ?_) trivial
    apply (Safe.lift (hl.answers_parentOf hd e)).bind
    intro p hp
    apply (Safe.liftProblem (P := fun _ => True) fun _ _ => trivial).bind
    intro _ _
    split
    · exact .pure trivial
    · apply (hl.editFlat_safe hp (hflat p hp) e.edits excluded).bind
      exact fun _ _ => .liftProblem fun _ _ => trivial
  · exact fun _ _ => .liftProblem fun _ _ => trivial

theorem remembered_safe (excluded : List DefId) (id : DefId) :
    Safe (Library.remembered excluded id) fun _ => True := by
  unfold Library.remembered
  split
  · exact .remembered id
  · exact .pure trivial

/-- A walk down the inheritance ends in no fault as long as it goes by stored definitions. -/
theorem descend_safe (hl : l.Closed) {path : List DefId} {id : DefId} (hpath : l.Stored path)
    (hid : l.definitions.Holds id) (excluded : List DefId) :
    Safe (l.descend path id excluded) fun _ => True := by
  obtain ⟨d, hd⟩ := hid.exists_get?
  rw [descend]
  apply (remembered_safe excluded id).bind
  intro known _
  cases known with
  | some known => exact .liftProblem fun _ _ => trivial
  | none =>
    by_cases hmem : id ∈ path
    · simp only [hmem, dif_pos]
      obtain ⟨texts, htexts⟩ := cycle_of_mem hpath hmem
      rw [htexts]
      exact .refuse _
    · simp only [hmem, dif_neg, not_false_eq_true]
      split
      · rename_i hnone
        rw [hd] at hnone
        cases hnone
      · rename_i d' hd'
        apply (hl.gather_safe hd' excluded fun p hp ex => ?_).bind
        · intro body _
          split
          · exact (Safe.remember id _).bind fun _ _ => .pure trivial
          · exact .pure trivial
        · have := Arena.unvisited_cons_lt hd' hmem
          exact hl.descend_safe (hpath.of_holds hid) hp ex
termination_by l.definitions.unvisited path

theorem content_safe (hl : l.Closed) (hid : l.definitions.Holds id) :
    Safe (l.content id) fun _ => True := by
  apply (Safe.remembered id).bind
  intro known _
  cases known with
  | some known => exact .liftProblem fun _ _ => trivial
  | none =>
    apply (hl.descend_safe (.nil l) hid []).attempt.bind
    intro found _
    cases found with
    | ok body => exact .pure trivial
    | error e => exact (Safe.remember id _).bind fun _ _ => .refuse e

theorem contentWithout_safe (hl : l.Closed) (hid : l.definitions.Holds id)
    (excluded : List DefId) : Safe (l.contentWithout id excluded) fun _ => True := by
  unfold contentWithout
  split
  · exact hl.content_safe hid
  · exact hl.descend_safe (.nil l) hid excluded

theorem contentEdited_safe (hl : l.Closed) (hid : l.definitions.Holds id) (edits : List Edit) :
    Safe (l.contentEdited id edits) fun _ => True := by
  apply (Safe.liftFault (Arena.finds_find hid)).bind
  intro d _
  apply (Safe.liftProblem (P := fun _ => True) fun _ _ => trivial).bind
  intro _ _
  exact hl.editFlat_safe hid (fun excluded => hl.descend_safe (.nil l) hid excluded)
    edits []

end Closed
end Library

/-! ## Expansion -/

namespace Expansion

variable {x : Expansion}

theorem inlineLine_safe (hcontent : ∀ k u, Safe (x.content k u) fun _ => True)
    (hvalue : ∀ t, Safe (x.value t) fun _ => True) (done : List StyleLine) (line : StyleLine) :
    Safe (x.inlineLine done line) fun _ => True := by
  cases line with
  | property name value => exact (hvalue value).bind fun _ _ => .pure trivial
  | usage u =>
    apply (hcontent .style u).bind
    intro r _
    split <;> exact .pure trivial

mutual

theorem inlineNode_safe (hcontent : ∀ k u, Safe (x.content k u) fun _ => True)
    (hvalue : ∀ t, Safe (x.value t) fun _ => True) (n : Node) :
    Safe (x.inlineNode n) fun _ => True := by
  match n with
  | .text t => exact .pure trivial
  | .usage u =>
    apply (hcontent .element u).bind
    intro r _
    split <;> exact .pure trivial
  | .element ⟨tag, attributes, style, children⟩ =>
    apply Safe.bind (P := fun _ => True)
    · exact .foldlM (fun done line _ _ => inlineLine_safe hcontent hvalue done line) trivial
    · intro style _
      apply (inlineNodes_safe hcontent hvalue children).bind
      exact fun _ _ => .pure trivial

theorem inlineNodes_safe (hcontent : ∀ k u, Safe (x.content k u) fun _ => True)
    (hvalue : ∀ t, Safe (x.value t) fun _ => True) (ns : List Node) :
    Safe (x.inlineNodes ns) fun _ => True := by
  match ns with
  | [] => exact .pure trivial
  | n :: ns =>
    apply (inlineNode_safe hcontent hvalue n).bind
    intro front _
    apply (inlineNodes_safe hcontent hvalue ns).bind
    exact fun _ _ => .pure trivial

end

theorem inlineContent_safe (hcontent : ∀ k u, Safe (x.content k u) fun _ => True)
    (hvalue : ∀ t, Safe (x.value t) fun _ => True) (b : Content) :
    Safe (x.inlineContent b) fun _ => True := by
  cases b with
  | element nodes => exact (inlineNodes_safe hcontent hvalue nodes).bind fun _ _ => .pure trivial
  | style s =>
    apply Safe.bind (P := fun _ => True)
    · refine .foldlM (fun s e _ _ => ?_) trivial
      obtain ⟨name, value⟩ := e
      cases value with
      | concrete text => exact (hvalue text).bind fun _ _ => .pure trivial
      | placeholder => exact .pure trivial
    · exact fun _ _ => .pure trivial
  | var v => exact .pure trivial

end Expansion

/-! ## Rules and instances -/

theorem Scopes.finds_outwardFrom {s : Scopes} {id : ScopeId} (h : s.table.Holds id) :
    Finds (s.outwardFrom id) fun ids => ids = s.outward id := by
  apply (Arena.finds_find h).bind
  exact fun _ _ => .pure rfl

namespace Environment

variable {env : Environment} {site : UseSite} {id : DefId}

theorem finds_denying (hsite : site.Within env) (target : Use) :
    Finds (Rule.denying env.rules env.scopes env.library.namespaces site target)
      fun _ => True := by
  apply Finds.bind (P := fun _ => True)
  · refine (Finds.findM? fun r _ => ?_).mono fun _ _ => trivial
    unfold Rule.deniesWithin
    cases r.site with
    | scope s => exact .pure trivial
    | within ns =>
      apply Finds.bind (P := fun _ => True)
      · apply (NamespaceTree.finds_outwardFrom hsite.home).bind
        exact fun _ _ => .pure trivial
      · exact fun _ _ => .pure trivial
  · intro r _
    cases r with
    | some r => exact .pure trivial
    | none =>
      apply (Scopes.finds_outwardFrom hsite.scope).bind
      exact fun _ _ => .pure trivial

theorem answers_checkUse (hsite : site.Within env) (target : Use) :
    Answers (env.checkUse site target) fun _ => True := by
  apply Answers.lift_bind (finds_denying hsite target)
  intro r _
  cases r with
  | none => exact .pure trivial
  | some r => exact .refuse

theorem answers_checkUseOf (hsite : site.Within env) (hid : env.library.definitions.Holds id) :
    Answers (env.checkUseOf site id) fun _ => True := by
  apply Answers.lift_bind (Arena.finds_find hid)
  exact fun d _ => answers_checkUse hsite _

theorem answers_resolve (hl : env.library.Closed) {owner : NamespaceId}
    (howner : env.library.namespaces.table.Holds owner) (n : Name) (expected : Category) :
    Answers (env.library.resolve owner n expected) fun id => env.library.definitions.Holds id := by
  apply (hl.answers_resolve n expected howner).mono
  rintro id ⟨c, -, hoffers⟩
  exact hoffers.holds hl

theorem answers_resolveUse (hl : env.library.Closed) (hsite : site.Within env) (n : Name)
    (expected : Category) :
    Answers (env.resolveUse site n expected) fun id => env.library.definitions.Holds id := by
  apply (answers_resolve hl hsite.home n expected).bind
  intro id hid
  apply (answers_checkUseOf hsite hid).bind
  exact fun _ _ => .pure hid

theorem valueIn_safe (hl : env.library.Closed) (hid : env.library.definitions.Holds id)
    (group : Name) (key : String) (override : Option String) :
    Safe (env.valueIn id group key override) fun _ => True := by
  apply (hl.content_safe hid).bind
  intro body _
  split
  · exact .refuse _
  · exact .pure trivial

theorem referenceValue_safe (hl : env.library.Closed) (hsite : site.Within env)
    {owner : NamespaceId} (howner : env.library.namespaces.table.Holds owner) (r : Reference) :
    Safe (env.referenceValue site owner r) fun _ => True := by
  apply (Safe.liftFault (answers_resolve hl howner _ _).settle).bind
  intro found hfound
  cases found with
  | error e => exact .pure trivial
  | ok id =>
    have hid := hfound id rfl
    have hvalue : Safe (do
        env.checkUseOf site id
        env.valueIn id (.ofKind .var r.group) r.key r.override) fun _ => True := by
      apply (Safe.lift (answers_checkUseOf hsite hid)).bind
      exact fun _ _ => valueIn_safe hl hid _ _ _
    apply hvalue.attempt.bind
    intro result _
    cases result with
    | ok value => exact .pure trivial
    | error e => exact (Safe.report e none).bind fun _ _ => .pure trivial

theorem fillIn_safe (hl : env.library.Closed) (hsite : site.Within env) {owner : NamespaceId}
    (howner : env.library.namespaces.table.Holds owner) (text : String) :
    Safe (env.fillIn site owner text) fun _ => True := by
  apply Safe.bind (P := fun _ => True)
  · apply Safe.mapM
    intro piece
    cases piece with
    | plain text => exact .pure trivial
    | reference r source =>
      apply (referenceValue_safe hl hsite howner r).bind
      intro value _
      cases value <;> exact .pure trivial
  · exact fun _ _ => .pure trivial

theorem usageContent_safe (hl : env.library.Closed) (hsite : site.Within env)
    {owner : NamespaceId} (howner : env.library.namespaces.table.Holds owner)
    {build : DefId → List Edit → Resolving Content}
    (hbuild : ∀ id, env.library.definitions.Holds id → ∀ edits, Safe (build id edits) fun _ => True)
    (k : Kind) (u : Usage) : Safe (env.usageContent site owner build k u) fun _ => True := by
  have hused : Safe (do
      let id ← env.library.resolve owner u.name (.ofKind k)
      env.checkUseOf site id
      build id u.edits) fun _ => True := by
    apply (Safe.lift (answers_resolve hl howner u.name (.ofKind k))).bind
    intro id hid
    apply (Safe.lift (answers_checkUseOf hsite hid)).bind
    exact fun _ _ => hbuild id hid u.edits
  apply hused.attempt.bind
  intro result _
  cases result with
  | ok body => exact .pure trivial
  | error e => exact (Safe.report e u.span).bind fun _ _ => .pure trivial

mutual

theorem answers_forTags {check : String → Except Failure Unit}
    (hcheck : ∀ tag, Answers (check tag) fun _ => True) (n : Node) :
    Answers (n.forTags check) fun _ => True := by
  match n with
  | .text _ => exact .pure trivial
  | .usage _ => exact .pure trivial
  | .element ⟨tag, _, _, children⟩ =>
    apply (hcheck tag).bind
    exact fun _ _ => answers_forTagsIn hcheck children

theorem answers_forTagsIn {check : String → Except Failure Unit}
    (hcheck : ∀ tag, Answers (check tag) fun _ => True) (ns : List Node) :
    Answers (Node.forTagsIn check ns) fun _ => True := by
  match ns with
  | [] => exact .pure trivial
  | n :: ns =>
    apply (answers_forTags hcheck n).bind
    exact fun _ _ => answers_forTagsIn hcheck ns

end

theorem assemble_safe (hl : env.library.Closed) (hsite : site.Within env) {d : Definition}
    (hd : env.library.definitions.get? id = some d) (edits : List Edit)
    {build : DefId → List Edit → Resolving Content}
    (hbuild : ∀ id, env.library.definitions.Holds id → ∀ edits,
      Safe (build id edits) fun _ => True) :
    Safe (env.assemble site id d edits build) fun _ => True := by
  have hhome := hl.definitions id d hd
  rw [assemble_eq]
  apply (hl.contentEdited_safe (Arena.holds_of_get? hd) edits).bind
  intro raw _
  apply (Safe.reportAll _).bind
  intro _ _
  have htags : Answers ((raw.dropUnfilled d.identity.render).1.forTags fun tag =>
      env.checkUse site (.element tag)) fun _ => True := by
    cases (raw.dropUnfilled d.identity.render).1 with
    | element nodes => exact answers_forTagsIn (fun tag => answers_checkUse hsite _) nodes
    | style s => exact .pure trivial
    | var v => exact .pure trivial
  apply (Safe.lift htags).bind
  intro _ _
  exact Expansion.inlineContent_safe (usageContent_safe hl hsite hhome hbuild)
    (fillIn_safe hl hsite hhome) _

/-- An instance of a stored definition is built without a fault inside of stored definitions. -/
theorem build_safe (hl : env.library.Closed) (hsite : site.Within env) {expanding : List DefId}
    {id : DefId} (hexpanding : env.library.Stored expanding)
    (hid : env.library.definitions.Holds id) (edits : List Edit) :
    Safe (env.build site expanding id edits) fun _ => True := by
  obtain ⟨d, hd⟩ := hid.exists_get?
  rw [build]
  by_cases hmem : id ∈ expanding
  · simp only [hmem, dif_pos]
    obtain ⟨texts, htexts⟩ := Library.cycle_of_mem hexpanding hmem
    rw [htexts]
    exact .refuse _
  · simp only [hmem, dif_neg, not_false_eq_true]
    split
    · rename_i hnone
      rw [hd] at hnone
      cases hnone
    · rename_i d' hd'
      have := Arena.unvisited_cons_lt hd' hmem
      exact assemble_safe hl hsite hd' edits fun used hused edits =>
        build_safe hl hsite (hexpanding.of_holds hid) hused edits
termination_by env.library.definitions.unvisited expanding

theorem instanceOf_safe (hl : env.library.Closed) (hsite : site.Within env) (n : Name)
    (edits : List Edit) (expected : Category) :
    Safe (env.instanceOf site n edits expected) fun _ => True := by
  apply (Safe.lift (answers_resolveUse hl hsite n expected)).bind
  intro id hid
  apply (build_safe hl hsite (.nil env.library) hid edits).bind
  intro body _
  apply (Safe.liftFault (Arena.finds_find hid)).bind
  exact fun _ _ => .pure trivial

theorem variableValue_safe (hl : env.library.Closed) (hsite : site.Within env) (group : Name)
    (key : String) (override : Option String) :
    Safe (env.variableValue site group key override) fun _ => True := by
  apply (Safe.lift (answers_resolveUse hl hsite group _)).bind
  exact fun id hid => valueIn_safe hl hid group key override

end Environment
end Stencil
