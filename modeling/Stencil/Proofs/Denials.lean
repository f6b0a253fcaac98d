import Stencil.Proofs.Answering
import Stencil.Proofs.Import

/-! # What is denied stays denied

Rules are only added, and the way outwards from a scope or a namespace never changes. So a use that is
denied at a place is denied there, and at every place inside it, after whatever is done later.
-/
namespace Stencil

open Resolving

namespace Compilation

variable {c c' : Compilation} {site site' : UseSite} {target : Use}

/-- The use is denied at the place. -/
def Denies (c : Compilation) (site : UseSite) (target : Use) : Prop :=
  ∃ r, c.violation site target = .ok (some r)

/-- The rule was declared in a scope around the place, or for a namespace around it. -/
def Covers (c : Compilation) (site : UseSite) (r : Rule) : Prop :=
  match r.site with
  | .scope s => s ∈ c.scopes.outward site.scope
  | .within ns => ns ∈ c.namespaces.outward site.home

/-- What can come after `c`: it is registered, asked and imported in any order. -/
inductive Later (c : Compilation) : Compilation → Prop
  | refl : Later c c
  | step {c' : Compilation} (op : Operation) (h : Later c c') : Later c (op.after c')
  | mount {c' other : Compilation} (path : List String) (h : Later c c')
    (hother : other.Reachable) : Later c ((Compiling.mount other path).after c')

end Compilation

/-! ## A use is denied by a rule that covers the place -/

theorem findM?_of_ok {α : Type} {f : α → Except Fault Bool} {g : α → Bool} {as : List α}
    (h : ∀ a ∈ as, f a = .ok (g a)) : as.findM? f = .ok (as.find? g) := by
  induction as with
  | nil => rfl
  | cons a as ih =>
    rw [List.findM?, h a List.mem_cons_self, List.find?_cons]
    cases g a with
    | true => rfl
    | false => exact ih fun a ha => h a (List.mem_cons_of_mem _ ha)

/-- Whether the rule is for a namespace in the list and denies the use. -/
def Rule.deniesIn (around : List NamespaceId) (target : Use) (r : Rule) : Bool :=
  match r.site with
  | .within ns => around.contains ns && r.denial.denies target
  | .scope _ => false

theorem Rule.deniesWithin_eq {t : NamespaceTree} {home : NamespaceId} (hhome : t.table.Holds home)
    (target : Use) (r : Rule) :
    r.deniesWithin t home target = .ok (r.deniesIn (t.outward home) target) := by
  obtain ⟨ids, hids, rfl, -⟩ := NamespaceTree.finds_outwardFrom hhome
  unfold deniesWithin deniesIn
  cases r.site with
  | scope s => rfl
  | within ns =>
    simp only [NamespaceTree.isInside, hids]
    rfl

namespace Compilation

variable {c c' : Compilation} {site site' : UseSite} {target : Use}

theorem violation_eq (hsite : site.Within c.environment) (target : Use) :
    c.violation site target =
      .ok ((c.rules.find? (Rule.deniesIn (c.namespaces.outward site.home) target)).or
        ((c.scopes.outward site.scope).findSome? fun s =>
          c.rules.find? (Rule.deniesAt s target))) := by
  have hwithin : c.rules.findM? (Rule.deniesWithin c.namespaces site.home target) =
      .ok (c.rules.find? (Rule.deniesIn (c.namespaces.outward site.home) target)) :=
    findM?_of_ok fun r _ => r.deniesWithin_eq hsite.home target
  have hscopes : c.scopes.outwardFrom site.scope = .ok (c.scopes.outward site.scope) := by
    obtain ⟨ids, hids, rfl⟩ := Scopes.finds_outwardFrom hsite.scope
    exact hids
  unfold violation Rule.denying
  rw [hwithin, hscopes]
  cases c.rules.find? (Rule.deniesIn (c.namespaces.outward site.home) target) <;> rfl

/-- A use is denied exactly where a rule that denies it covers the place. -/
theorem denies_iff (hsite : site.Within c.environment) :
    c.Denies site target ↔ ∃ r ∈ c.rules, r.denial.denies target = true ∧ c.Covers site r := by
  have hsome : c.Denies site target ↔
      (∃ r ∈ c.rules, Rule.deniesIn (c.namespaces.outward site.home) target r = true) ∨
        ∃ s ∈ c.scopes.outward site.scope, ∃ r ∈ c.rules, Rule.deniesAt s target r = true := by
    simp only [Denies, violation_eq hsite, Except.ok.injEq]
    rw [← Option.isSome_iff_exists, Option.isSome_or, Bool.or_eq_true, List.find?_isSome,
      List.findSome?_isSome_iff]
    simp only [List.find?_isSome]
  rw [hsome]
  constructor
  · rintro (⟨r, hr, hin⟩ | ⟨s, hs, r, hr, hat⟩)
    · refine ⟨r, hr, ?_⟩
      unfold Rule.deniesIn at hin
      unfold Covers
      cases hr' : r.site with
      | scope s => simp [hr'] at hin
      | within ns =>
        simp only [hr', Bool.and_eq_true, List.contains_iff_mem] at hin
        exact ⟨hin.2, hin.1⟩
    · refine ⟨r, hr, ?_⟩
      simp only [Rule.deniesAt, Bool.and_eq_true, beq_iff_eq] at hat
      unfold Covers
      rw [hat.1]
      exact ⟨hat.2, hs⟩
  · rintro ⟨r, hr, hdenies, hcovers⟩
    unfold Covers at hcovers
    cases hr' : r.site with
    | scope s =>
      rw [hr'] at hcovers
      exact .inr ⟨s, hcovers, r, hr, by simp [Rule.deniesAt, hr', hdenies]⟩
    | within ns =>
      rw [hr'] at hcovers
      exact .inl ⟨r, hr, by simpa [Rule.deniesIn, hr', hdenies] using hcovers⟩

/-! ## The way outwards stays -/

theorem Grows.scopes_outward (h : c.Grows c') {s : ScopeId} (hs : c.scopes.table.Holds s) :
    c'.scopes.outward s = c.scopes.outward s := by
  rw [Scopes.outward_eq, Scopes.outward_eq]
  refine Arena.chain_of_grows (fun id x hx => ?_) hs
  obtain ⟨x', hx', -, hparent, -⟩ := h.scopes id x hx
  exact ⟨x', hx', hparent⟩

theorem Grows.namespaces_outward (h : c.Grows c') {ns : NamespaceId}
    (hns : c.namespaces.table.Holds ns) : c'.namespaces.outward ns = c.namespaces.outward ns := by
  rw [NamespaceTree.outward_eq, NamespaceTree.outward_eq]
  refine Arena.chain_of_grows (fun id n hn => ?_) hns
  obtain ⟨n', hn', hgrows⟩ := h.namespaces id n hn
  exact ⟨n', hn', hgrows.parent⟩

/-- `site'` is inside `site`. -/
structure Inside (c : Compilation) (site' site : UseSite) : Prop where
  scope : site.scope ∈ c.scopes.outward site'.scope
  home : site.home ∈ c.namespaces.outward site'.home

theorem Inside.within (h : c.Inside site' site) (hsite : site.Within c.environment) :
    site'.Within c.environment where
  scope := Arena.holds_of_chain hsite.scope (c.scopes.outward_eq _ ▸ h.scope)
  home := Arena.holds_of_chain hsite.home (c.namespaces.outward_eq _ ▸ h.home)

/-- A rule that covers a place covers the places inside it. -/
theorem Covers.inside {r : Rule} (hr : c.Covers site r) (h : c.Inside site' site) :
    c.Covers site' r := by
  unfold Covers at hr ⊢
  cases hsite : r.site with
  | scope s =>
    rw [hsite, Scopes.outward_eq] at hr
    rw [Scopes.outward_eq]
    exact Arena.mem_chain_trans hr (c.scopes.outward_eq _ ▸ h.scope)
  | within ns =>
    rw [hsite, NamespaceTree.outward_eq] at hr
    rw [NamespaceTree.outward_eq]
    exact Arena.mem_chain_trans hr (c.namespaces.outward_eq _ ▸ h.home)

theorem Grows.within (h : c.Grows c') (hsite : site.Within c.environment) :
    site.Within c'.environment :=
  ⟨h.holds_scope hsite.scope, h.holds_namespace hsite.home⟩

theorem Grows.covers (h : c.Grows c') (hsite : site.Within c.environment) {r : Rule}
    (hr : c.Covers site r) : c'.Covers site r := by
  unfold Covers at hr ⊢
  rwa [h.scopes_outward hsite.scope, h.namespaces_outward hsite.home]

theorem Grows.denies (h : c.Grows c') (hsite : site.Within c.environment)
    (hinside : c'.Inside site' site) (hdenied : c.Denies site target) :
    c'.Denies site' target := by
  obtain ⟨r, hr, hdenies, hcovers⟩ := (denies_iff hsite).1 hdenied
  refine (denies_iff (hinside.within (h.within hsite))).2 ⟨r, h.rules.subset hr, hdenies, ?_⟩
  exact (h.covers hsite hcovers).inside hinside

namespace Later

theorem reachable (h : c.Later c') (hc : c.Reachable) : c'.Reachable := by
  induction h with
  | refl => exact hc
  | step op _ ih => exact ih.step op
  | mount path _ hother ih => exact ih.mount path hother

theorem grows (h : c.Later c') (hc : c.Reachable) : c.Grows c' := by
  induction h with
  | refl => exact .refl c
  | step op h ih => exact ih.trans (op.after_updates (h.reachable hc).intact).grows
  | mount path h hother ih =>
    exact ih.trans (Compiling.mount_runs (h.reachable hc).intact hother.intact path).1.grows

end Later
end Compilation

/-! ## What is denied is not given -/

namespace Compilation

/-- The definition is stored with that identity. -/
def Identifies (c : Compilation) (id : DefId) (identity : Identity) : Prop :=
  ∃ d, c.definitions.get? id = some d ∧ d.identity = identity

/-- The instance is one of a definition of that identity. -/
def Shows (c : Compilation) (inst : Instance) (identity : Identity) : Prop :=
  inst.identity = some identity ∨ ∃ id, inst.definition = some id ∧ c.Identifies id identity

variable {c : Compilation} {site : UseSite} {identity : Identity}

theorem Denies.not_identifies (hdenied : c.Denies site (.definition identity)) {id : DefId}
    (hallowed : c.environment.AllowsDefinition site id) : ¬ c.Identifies id identity := by
  rintro ⟨d, hd, rfl⟩
  obtain ⟨d', hd', hnone⟩ := hallowed
  obtain rfl : d = d' := Option.some.inj (hd.symm.trans hd')
  obtain ⟨r, hr⟩ := hdenied
  have hboth : Except.ok none = Except.ok (some r) := hnone.symm.trans hr
  cases hboth

theorem not_shows_empty (c : Compilation) (kind : Kind) (identity : Identity) :
    ¬ c.Shows (.empty kind) identity := by
  rintro (h | ⟨id, h, -⟩) <;> cases h

end Compilation

namespace Compiling

variable {α : Type} {c : Compilation} {site : UseSite} {identity : Identity}

theorem outcome_parseName_bind {token : String} {f : Name → Compiling α} {a : α}
    (h : (parseName token >>= f).outcome c = .ok a) : ∃ n, (f n).outcome c = .ok a := by
  unfold parseName at h
  split at h
  · rename_i n _
    exact ⟨n, h⟩
  · cases h

theorem not_identifies_definitionFor (hdenied : c.Denies site (.definition identity))
    {token : String} {expected : Category} {id : DefId}
    (h : (definitionFor token expected site).outcome c = .ok id) : ¬ c.Identifies id identity := by
  rw [definitionFor, outcome_recording] at h
  obtain ⟨n, hn⟩ := outcome_parseName_bind h
  have hresolve : c.environment.resolveUse site n expected = .ok id := by
    rw [← hn]
    change _ = (liftM (c.environment.resolveUse site n expected) : Compiling DefId).outcome c
    cases c.environment.resolveUse site n expected <;> rfl
  exact hdenied.not_identifies (Environment.resolveUse_eq_ok hresolve).2

theorem not_shows_instanceOfName (hdenied : c.Denies site (.definition identity)) {n : Name}
    {edits : List Edit} {expected : Category} {span : Option Span} {inst : Instance}
    (h : (instanceOfName n edits expected site span).outcome c = .ok inst) :
    ¬ c.Shows inst identity := by
  rw [instanceOfName, outcome_recording, outcome_resolving] at h
  have hrespects : c.environment.library.Respects (fun _ => True) fun _ _ _ => True :=
    ⟨fun _ _ _ _ => trivial, fun _ _ _ => ⟨fun _ _ => trivial, trivial⟩,
      fun _ _ _ _ => ⟨fun _ _ => trivial, trivial⟩⟩
  obtain ⟨id, d, hid, hidentity, hd, -, hallowed, -⟩ :=
    (Environment.instanceOf_gives hrespects n edits expected c.session trivial).1 inst h
  have hnot := hdenied.not_identifies hallowed
  rintro (hshown | ⟨id', hid', hshown⟩)
  · exact hnot ⟨d, hd, Option.some.inj (hidentity.symm.trans hshown)⟩
  · exact hnot (Option.some.inj (hid.symm.trans hid') ▸ hshown)

theorem not_shows_instanceFor (hdenied : c.Denies site (.definition identity)) {token : String}
    {expected : Category} {inst : Instance}
    (h : (instanceFor token expected site).outcome c = .ok inst) : ¬ c.Shows inst identity := by
  unfold instanceFor parseName at h
  split at h
  · exact not_shows_instanceOfName hdenied h
  · cases h

theorem not_shows_instanceOrEmpty (hdenied : c.Denies site (.definition identity))
    {token : String} {expected : Category} {inst : Instance}
    (h : (instanceOrEmpty token expected site).outcome c = .ok inst) :
    ¬ c.Shows inst identity := by
  rw [instanceOrEmpty, outcome, run_tryCatch] at h
  rcases hfor : (instanceFor token expected site).outcome c with (e | f) | inst'
  · rw [hfor] at h
    rw [← Except.ok.inj h]
    exact c.not_shows_empty _ _
  · rw [hfor] at h
    cases h
  · rw [hfor] at h
    rw [← Except.ok.inj h]
    exact not_shows_instanceFor hdenied hfor

theorem refused_checkTag {tag : String} (hdenied : c.Denies site (.element tag)) :
    ∃ rule, (checkTag tag site).outcome c = .error (.refused (.denied tag rule)) := by
  obtain ⟨r, hr⟩ := hdenied
  have hcheck : c.environment.checkUse site (.element tag) =
      .error (.refused (.denied tag r.denial.render)) := by
    unfold Environment.checkUse Rule.check
    rw [show Rule.denying c.environment.rules c.environment.scopes
      c.environment.library.namespaces site (.element tag) = _ from hr]
    rfl
  refine ⟨r.denial.render, ?_⟩
  rw [checkTag, outcome_recording]
  change (liftM (c.environment.checkUse site (.element tag)) : Compiling Unit).outcome c = _
  rw [hcheck]
  rfl

end Compiling

open Compiling

/-- A use is denied at a place exactly if a rule that denies it covers the place. After whatever is
done later it is denied at every place inside that place, where no look-up and no instance gives a
definition of a denied identity. -/
theorem Compilation.Reachable.denied_later {c : Compilation} (hc : c.Reachable) :
    (∀ site target, site.Within c.environment →
      (c.Denies site target ↔
        ∃ r ∈ c.rules, r.denial.denies target = true ∧ c.Covers site r)) ∧
    ∀ c', c.Later c' → ∀ site site' target, site.Within c.environment → c'.Inside site' site →
      c.Denies site target →
        c'.Denies site' target ∧
        (∀ tag, target = .element tag →
          ∃ rule, (checkTag tag site').outcome c' = .error (.refused (.denied tag rule))) ∧
        ∀ identity, target = .definition identity →
          (∀ token expected id, (definitionFor token expected site').outcome c' = .ok id →
            ¬ c'.Identifies id identity) ∧
          (∀ n edits expected span inst,
            (instanceOfName n edits expected site' span).outcome c' = .ok inst →
              ¬ c'.Shows inst identity) ∧
          (∀ token expected inst, (instanceFor token expected site').outcome c' = .ok inst →
            ¬ c'.Shows inst identity) ∧
          ∀ token expected inst, (instanceOrEmpty token expected site').outcome c' = .ok inst →
            ¬ c'.Shows inst identity := by
  refine ⟨fun site target hsite => denies_iff hsite, ?_⟩
  intro c' hlater site site' target hsite hinside hdenied
  have hdenied' := (hlater.grows hc).denies hsite hinside hdenied
  refine ⟨hdenied', ?_, ?_⟩
  · rintro tag rfl
    exact refused_checkTag hdenied'
  · rintro identity rfl
    exact ⟨fun _ _ _ => not_identifies_definitionFor hdenied',
      fun _ _ _ _ _ => not_shows_instanceOfName hdenied',
      fun _ _ _ => not_shows_instanceFor hdenied',
      fun _ _ _ => not_shows_instanceOrEmpty hdenied'⟩

/-- A compilation in which boxes are denied everywhere. -/
def bare : Compilation := Operation.afterAll [.addRule (.name "Box") .global none] (.initial .initial)

/-- A box and an alias for it are written in a namespace block, and the whole is imported below
another namespace. -/
def crate : Compilation :=
  Operation.afterAll
    [.openNamespacePath ["hall"],
      .addGroup ⟨.custom, .style, "Box"⟩ (.empty .style) [] .empty none,
      .nameDefinition "Chest" "@Style Box" none]
    (.initial .initial)

/-- What was registered after the rule, by an import into a namespace and by its other name, is denied
as well. -/
theorem denied_later_bare :
    bare.Reachable ∧ crate.Reachable ∧ bare.Denies .global (.definition ⟨.custom, .style, "Box"⟩) ∧
    ((Compiling.mount crate ["house"]).after bare).Denies ⟨.global, ⟨2⟩⟩
      (.definition ⟨.custom, .style, "Box"⟩) ∧
    ∀ id, (definitionFor "Chest" .any ⟨.global, ⟨2⟩⟩).outcome
        ((Compiling.mount crate ["house"]).after bare) = .ok id →
      ¬ ((Compiling.mount crate ["house"]).after bare).Identifies id ⟨.custom, .style, "Box"⟩ := by
  have hbare : bare.Reachable := (Compilation.Reachable.initial .initial).afterAll _
  have hcrate : crate.Reachable := (Compilation.Reachable.initial .initial).afterAll _
  have hlater : bare.Later ((Compiling.mount crate ["house"]).after bare) :=
    .mount ["house"] .refl hcrate
  have hsite : UseSite.global.Within bare.environment :=
    ⟨hbare.intact.global, hbare.intact.root⟩
  have hinside : ((Compiling.mount crate ["house"]).after bare).Inside ⟨.global, ⟨2⟩⟩ .global :=
    ⟨by decide +kernel, by decide +kernel⟩
  have hdenied : bare.Denies .global (.definition ⟨.custom, .style, "Box"⟩) := by
    refine (hbare.denied_later.1 _ _ hsite).2 ⟨⟨.name "Box", .within .root, none⟩, ?_, ?_, ?_⟩
    · exact List.mem_cons_self
    · decide +kernel
    · change NamespaceId.root ∈ bare.namespaces.outward .root
      decide +kernel
  obtain ⟨hdenied', -, hidentity⟩ := hbare.denied_later.2 _ hlater _ _ _ hsite hinside hdenied
  exact ⟨hbare, hcrate, hdenied, hdenied', (hidentity _ rfl).1 "Chest" .any⟩

end Stencil
