import Stencil.Proofs.Ancestry
import Stencil.Proofs.Flattening
import Stencil.Proofs.Reachable
import Stencil.Proofs.Transport

/-! # What is remembered is not written over

The content of a definition is remembered only where nothing is remembered of it, for on the way down
from it the walk remembers others. A walk that leaves definitions out has nothing to do with what is
remembered: all that it asks for leaves out definitions too.
-/
namespace Stencil

open Resolving

namespace Resolving

variable {α β : Type} {s : Session} {x : Resolving α} {f : α → Resolving β}

/-- What `x` gives in the session `s` and the session that it leaves satisfy `Q`. -/
def Leaves (s : Session) (x : Resolving α) (Q : Except Failure α → Session → Prop) : Prop :=
  Q (x.outcome s) (x.after s)

theorem Leaves.bind {P : Except Failure α → Session → Prop} {Q : Except Failure β → Session → Prop}
    (hx : Leaves s x P) (hok : ∀ a t, P (.ok a) t → Leaves t (f a) Q)
    (herror : ∀ e t, P (.error e) t → Q (.error e) t) : Leaves s (x >>= f) Q := by
  unfold Leaves at hx ⊢
  rw [outcome, after, run_bind]
  cases h : x.outcome s with
  | ok a => exact hok a (x.after s) (h ▸ hx)
  | error e => exact herror e (x.after s) (h ▸ hx)

theorem Leaves.attempt {P : Except Failure α → Session → Prop}
    {Q : Except Failure (Except Problem α) → Session → Prop} (hx : Leaves s x P)
    (hok : ∀ a t, P (.ok a) t → Q (.ok (.ok a)) t)
    (hrefused : ∀ e t, P (.error (.refused e)) t → Q (.ok (.error e)) t)
    (hfault : ∀ e t, P (.error (.fault e)) t → Q (.error (.fault e)) t) :
    Leaves s (attempt x) Q := by
  unfold Leaves at hx ⊢
  rw [outcome, after, run_attempt]
  rcases h : x.outcome s with (e | e) | a
  · exact hrefused e _ (h ▸ hx)
  · exact hfault e _ (h ▸ hx)
  · exact hok a _ (h ▸ hx)

/-- Whatever is remembered and reported already, the resolution gives the same, reports the same, and
leaves what is remembered as it is. -/
def Detached (x : Resolving α) : Prop :=
  ∃ r ds, ∀ s : Session, x.run s = (r, ⟨s.cache, s.diagnostics ++ ds⟩)

namespace Detached

theorem throw (e : Failure) : Detached (throw e : Resolving α) :=
  ⟨.error e, [], fun s => by rw [List.append_nil]; rfl⟩

theorem pure (a : α) : Detached (pure a) :=
  ⟨.ok a, [], fun s => by rw [List.append_nil]; rfl⟩

theorem lift (r : Except Failure α) : Detached (liftM r) := by
  cases r with
  | ok a => exact pure a
  | error e => exact throw e

theorem liftFault (r : Except Fault α) : Detached (liftM r : Resolving α) := by
  cases r with
  | ok a => exact pure a
  | error e => exact throw (.fault e)

theorem liftProblem (r : Except Problem α) : Detached (liftM r : Resolving α) := by
  cases r with
  | ok a => exact pure a
  | error e => exact throw (.refused e)

theorem report (e : Problem) (span : Option Span) : Detached (report e span) :=
  ⟨.ok (), [.ofError e span], fun _ => rfl⟩

theorem bind (hx : Detached x) (hf : ∀ a, (∀ s, x.outcome s = .ok a) → Detached (f a)) :
    Detached (x >>= f) := by
  obtain ⟨r, ds, hx⟩ := hx
  have houtcome : ∀ s, x.outcome s = r := fun s => congrArg Prod.fst (hx s)
  have hafter : ∀ s, x.after s = ⟨s.cache, s.diagnostics ++ ds⟩ := fun s => congrArg Prod.snd (hx s)
  cases r with
  | error e => exact ⟨.error e, ds, fun s => by rw [run_bind, houtcome, hafter]⟩
  | ok a =>
    obtain ⟨r', ds', hrest⟩ := hf a houtcome
    refine ⟨r', ds ++ ds', fun s => ?_⟩
    rw [run_bind, houtcome, hafter]
    simp only [hrest, List.append_assoc]

theorem reportAll (es : List Problem) : Detached (reportAll es) := by
  induction es with
  | nil => exact pure ()
  | cons e es ih => exact (report e none).bind fun _ _ => ih

theorem foldlM {f : β → α → Resolving β} (hf : ∀ b a, Detached (f b a)) (as : List α) (b : β) :
    Detached (as.foldlM f b) := by
  induction as generalizing b with
  | nil => exact pure b
  | cons a as ih => exact (hf b a).bind fun b _ => ih b

end Detached
end Resolving

namespace Library

variable {l : Library} {spared : List DefId} {s t u : Session} {id : DefId}

/-! ## What is remembered stays -/

/-- The session comes from `s` by reports and by remembering definitions of which nothing was
remembered, none of them spared. Content that is remembered has the kind of its definition. -/
inductive Gains (l : Library) (spared : List DefId) (s : Session) : Session → Prop
  | refl : Gains l spared s s
  | report {t : Session} (e : Problem) (span : Option Span) (h : Gains l spared s t) :
    Gains l spared s (t.reporting e span)
  | remember {t : Session} {id : DefId} {known : Except Problem Content} (h : Gains l spared s t)
    (hspared : id ∉ spared) (hnew : t.cache.get? id = none)
    (hkind : ∀ b, known = .ok b → l.HasKind id b) : Gains l spared s (t.remembering id known)

namespace Gains

theorem trans (h : l.Gains spared s t) (h' : l.Gains spared t u) : l.Gains spared s u := by
  induction h' with
  | refl => exact h
  | report e span _ ih => exact ih.report e span
  | remember _ hspared hnew hkind ih => exact ih.remember hspared hnew hkind

theorem sparing_less {fewer : List DefId} (h : l.Gains spared s t) (hsub : fewer ⊆ spared) :
    l.Gains fewer s t := by
  induction h with
  | refl => exact .refl
  | report e span _ ih => exact ih.report e span
  | remember _ hspared hnew hkind ih => exact ih.remember (fun hid => hspared (hsub hid)) hnew hkind

theorem spares (h : l.Gains spared s t) (hid : id ∈ spared) :
    t.cache.get? id = s.cache.get? id := by
  induction h with
  | refl => rfl
  | report _ _ _ ih => exact ih
  | remember _ hspared _ _ ih =>
    rw [Session.get?_remembering, if_neg, ih]
    rintro rfl
    exact hspared hid

theorem keeps (h : l.Gains spared s t) {known : Except Problem Content}
    (hknown : s.cache.get? id = some known) : t.cache.get? id = some known := by
  induction h with
  | refl => exact hknown
  | report _ _ _ ih => exact ih
  | remember _ _ hnew _ ih =>
    rw [Session.get?_remembering, if_neg, ih]
    rintro rfl
    rw [ih] at hnew
    cases hnew

theorem kinded (h : l.Gains spared s t) (hs : l.Kinded s) : l.Kinded t := by
  induction h with
  | refl => exact hs
  | report _ _ _ ih => exact ih
  | remember _ _ _ hkind ih =>
    intro id b hb
    rw [Session.get?_remembering] at hb
    split at hb
    · rename_i hid
      exact hid ▸ hkind b (Option.some.inj hb)
    · exact ih id b hb

/-- What a walk below `id` leaves may be added to by what is remembered of `id`. -/
theorem remember_above {known : Except Problem Content} (h : l.Gains (id :: spared) s t)
    (hspared : id ∉ spared) (hnew : s.cache.get? id = none)
    (hkind : ∀ b, known = .ok b → l.HasKind id b) :
    l.Gains spared s (t.remembering id known) := by
  apply (h.sparing_less (List.subset_cons_self id spared)).remember hspared _ hkind
  rw [h.spares List.mem_cons_self, hnew]

end Gains

/-- Gathering what is inherited gains what the walks down the parents gain. -/
theorem gather_gains {d : Definition} {flat : DefId → List DefId → Resolving Content}
    (hflat : ∀ p excluded s, l.Gains spared s ((flat p excluded).after s)) (excluded : List DefId)
    (s : Session) :
    Leaves s (l.gather d excluded flat) fun r t =>
      (∀ b, r = .ok b → b.kind = d.kind) ∧ l.Gains spared s t := by
  have hgives : Gives (l.Gains spared s) (l.gather d excluded flat) fun b => b.kind = d.kind := by
    apply gather_gives fun _ e span h => h.report e span
    exact fun _ _ p fewer _ t ht => ⟨fun _ _ => trivial, ht.trans (hflat p fewer t)⟩
  exact hgives s .refl

theorem leaves_remembered (excluded : List DefId) (id : DefId) (s : Session) :
    Leaves s (remembered excluded id) fun r t =>
      t = s ∧ ∃ known, r = .ok known ∧ (known = none → excluded = [] → s.cache.get? id = none) := by
  unfold remembered
  split
  · exact ⟨rfl, _, rfl, fun hnone _ => hnone⟩
  · rename_i hexcluded
    exact ⟨rfl, none, rfl, fun _ hnil => absurd (List.isEmpty_iff.2 hnil) hexcluded⟩

/-- On the way down from the definitions of the path nothing is remembered of them, and where the walk
fails, nothing of the definition it started from. -/
theorem descend_gains (path : List DefId) (id : DefId) (excluded : List DefId) (s : Session) :
    Leaves s (l.descend path id excluded) fun r t =>
      l.Gains path s t ∧ ∀ e, r = .error e → l.Gains (id :: path) s t := by
  have still {r : Except Failure Content} : l.Gains path s s ∧
      ∀ e, r = .error e → l.Gains (id :: path) s s := ⟨.refl, fun _ _ => .refl⟩
  rw [descend]
  apply (leaves_remembered excluded id s).bind
  · rintro known t ⟨rfl, _, hknown, hnew⟩
    obtain rfl := Except.ok.inj hknown
    cases known with
    | some known => exact still
    | none =>
      by_cases hpath : id ∈ path
      · simp only [hpath, dif_pos]
        cases l.cycle path id <;> exact still
      · simp only [hpath, dif_neg, not_false_eq_true]
        split
        · exact still
        · rename_i d hd
          have hparents (p : DefId) (fewer : List DefId) (s : Session) :
              l.Gains (id :: path) s ((l.descend (id :: path) p fewer).after s) := by
            have := Arena.unvisited_cons_lt hd hpath
            exact (descend_gains (id :: path) p fewer s).1
          apply (gather_gains hparents excluded t).bind
          · rintro body u ⟨hkind, hgains⟩
            split
            · rename_i hexcluded
              -- The walk below has `id` on its path, so still nothing is remembered of it.
              have hnone := hnew rfl (List.isEmpty_iff.1 hexcluded)
              refine ⟨hgains.remember_above hpath hnone ?_, nofun⟩
              rintro b ⟨⟩
              exact ⟨d, hd, hkind body rfl⟩
            · exact ⟨hgains.sparing_less (List.subset_cons_self id path), nofun⟩
          · rintro e u ⟨-, hgains⟩
            exact ⟨hgains.sparing_less (List.subset_cons_self id path), fun _ _ => hgains⟩
  · rintro e _ ⟨-, _, he, -⟩
    cases he
termination_by l.definitions.unvisited path

theorem content_gains (id : DefId) (s : Session) :
    Leaves s (l.content id) fun _ t => l.Gains [] s t := by
  apply (leaves_remembered [] id s).bind
  · rintro known t ⟨rfl, _, hknown, hnew⟩
    obtain rfl := Except.ok.inj hknown
    cases known with
    | some known => exact Gains.refl
    | none =>
      apply Leaves.bind (P := fun r u => l.Gains [] t u ∧ ∀ e, r = .ok (.error e) →
        l.Gains [id] t u)
      · apply (descend_gains [] id [] t).attempt
        · rintro body u ⟨hgains, -⟩
          exact ⟨hgains, nofun⟩
        · rintro e u ⟨hgains, hfails⟩
          exact ⟨hgains, fun _ _ => hfails _ rfl⟩
        · rintro e u ⟨hgains, -⟩
          exact ⟨hgains, nofun⟩
      · rintro found u ⟨hgains, hfails⟩
        cases found with
        | ok body => exact hgains
        | error e => exact (hfails e rfl).remember_above List.not_mem_nil (hnew rfl rfl) (by nofun)
      · exact fun e u h => h.1
  · rintro e _ ⟨-, _, he, -⟩
    cases he

theorem keeps_gains_descend (path : List DefId) (id : DefId) (excluded : List DefId) :
    Keeps (l.Gains path s) (l.descend path id excluded) :=
  fun t ht => ⟨fun _ _ => trivial, ht.trans (descend_gains path id excluded t).1⟩

theorem respects_gains (l : Library) (s : Session) :
    l.Respects (l.Gains [] s) fun _ _ _ => True where
  report _ e span h := h.report e span
  content id t ht := ⟨fun _ _ => trivial, ht.trans (content_gains id t)⟩
  edited id edits := by
    apply (Keeps.liftFault _).bind
    intro d _
    apply (Keeps.liftProblem _).bind
    intro _ _
    apply editFlat_gives (P := fun _ => True) fun _ e span h => h.report e span
    exact fun excluded => keeps_gains_descend [] id excluded

theorem keeps_gains_contentWithout (id : DefId) (excluded : List DefId) :
    Keeps (l.Gains [] s) (l.contentWithout id excluded) := by
  unfold contentWithout
  split
  · exact (l.respects_gains s).content id
  · exact keeps_gains_descend [] id excluded

/-! ## What leaves definitions out -/

variable {d : Definition} {excluded : List DefId} {edits : List Edit}

theorem exclude_detached (ancestors excluded : List DefId) (target : Name) :
    Detached (l.exclude d ancestors excluded target) := by
  apply (Detached.liftFault _).bind
  intro found _
  have hwarn : Detached (do
      report (.dangling ("delete " ++ target.render) d.identity.render) none
      return excluded) :=
    (Detached.report _ _).bind fun _ _ => .pure _
  cases found with
  | error e => exact hwarn
  | ok p =>
    change Detached (if _ then _ else _)
    split
    · exact .pure _
    · exact hwarn

theorem excludeAll_detached (edits : List Edit) (excluded : List DefId) :
    Detached (l.excludeAll id d edits excluded) := by
  unfold excludeAll
  dsimp only
  split
  · exact .pure _
  · apply (Detached.liftFault _).bind
    exact fun ancestors _ => .foldlM (exclude_detached ancestors) _ _

/-- Edited content is detached if that of which it is made is, as far as the edits leave out some
definition or other. -/
theorem editFlat_detached {flat : List DefId → Resolving Content}
    (hflat : ∀ fewer, fewer ≠ [] → Detached (flat fewer)) (hnone : edits = [] → excluded ≠ [])
    (hsome : ∀ d set, l.definitions.get? id = some d →
      l.excludeDeleted id d edits excluded.toFinset = .ok set → set.Nonempty) :
    Detached (l.editFlat flat id edits excluded) := by
  unfold editFlat
  split
  · rename_i hedits
    exact hflat excluded (hnone (List.isEmpty_iff.1 hedits))
  · cases hd : l.find id with
    | error f => exact .throw _
    | ok d =>
      apply (excludeAll_detached edits excluded).bind
      intro fewer hfewer
      have hyields : Yields (fun _ => True) (l.excludeAll id d edits excluded)
          (Lists (l.excludeDeleted id d edits excluded.toFinset)) :=
        excludeAll_lists (fun _ _ _ _ => trivial) edits excluded
      have hlists := (hyields .initial trivial).1
      rw [hfewer] at hlists
      have hset : l.excludeDeleted id d edits excluded.toFinset = .ok fewer.toFinset := by
        cases h : l.excludeDeleted id d edits excluded.toFinset with
        | error f =>
          rw [h] at hlists
          cases hlists
        | ok set =>
          rw [h] at hlists
          exact congrArg Except.ok (Except.ok.inj hlists).symm
      have hfewer : fewer ≠ [] := by
        rintro rfl
        exact Finset.not_nonempty_empty (hsome d _ (Arena.get?_of_find hd) hset)
      apply (hflat fewer hfewer).bind
      intro base _
      exact (Detached.reportAll _).bind fun _ _ => .pure _

theorem gather_detached {flat : DefId → List DefId → Resolving Content} (hexcluded : excluded ≠ [])
    (hflat : ∀ p fewer, fewer ≠ [] → Detached (flat p fewer)) :
    Detached (l.gather d excluded flat) := by
  apply Detached.bind
  · apply Detached.foldlM
    intro gathered e
    apply (Detached.lift _).bind
    intro p _
    apply (Detached.liftProblem _).bind
    intro _ _
    split
    · exact .pure _
    · have hinherited : Detached (l.editFlat (flat p) p e.edits excluded) := by
        apply editFlat_detached (hflat p) (fun _ => hexcluded)
        intro _ set _ hset
        obtain ⟨x, hx⟩ := List.exists_mem_of_ne_nil excluded hexcluded
        exact ⟨x, subset_of_excludeDeleted hset (List.mem_toFinset.2 hx)⟩
      exact hinherited.bind fun _ _ => .liftProblem _
  · exact fun _ _ => .liftProblem _

/-- A walk that leaves definitions out has nothing to do with what is remembered. -/
theorem descend_detached (path : List DefId) (id : DefId) {excluded : List DefId}
    (hexcluded : excluded ≠ []) : Detached (l.descend path id excluded) := by
  have hunasked : remembered excluded id = pure none := by
    unfold remembered
    rw [if_neg (by simpa using hexcluded)]
  rw [descend, hunasked, pure_bind]
  by_cases hpath : id ∈ path
  · simp only [hpath, dif_pos]
    exact (Detached.liftFault _).bind fun e _ => .throw _
  · simp only [hpath, dif_neg, not_false_eq_true]
    split
    · exact .throw _
    · rename_i d hd
      have hgather : Detached (l.gather d excluded
          fun parent ex => l.descend (id :: path) parent ex) := by
        apply gather_detached hexcluded
        intro p fewer hfewer
        have := Arena.unvisited_cons_lt hd hpath
        exact descend_detached (id :: path) p hfewer
      apply hgather.bind
      intro body _
      rw [if_neg (by simpa using hexcluded)]
      exact .pure body
termination_by l.definitions.unvisited path

theorem exists_ancestors_of_excludeDeleted {E fewer : Finset DefId} {target : Name}
    (h : l.excludeDeleted id d edits E = .ok fewer)
    (htarget : target ∈ edits.filterMap Edit.deletedAncestor?) :
    ∃ ids, l.ancestors id = .ok ids := by
  unfold excludeDeleted at h
  dsimp only at h
  split at h
  · rename_i hnone
    rw [List.isEmpty_iff.1 hnone] at htarget
    cases htarget
  · obtain ⟨ids, hids, -⟩ := Except.bind_eq_ok h
    exact ⟨ids, hids⟩

theorem contentWithout_detached (id : DefId) (hexcluded : excluded ≠ []) :
    Detached (l.contentWithout id excluded) := by
  unfold contentWithout
  rw [if_neg (by simpa using hexcluded)]
  exact descend_detached [] id hexcluded

/-- An edit that takes out a definition from which `id` does inherit leaves it out of the walk. -/
theorem contentEdited_detached {target : Name} {x : DefId}
    (htarget : .deleteInheritance target ∈ edits) (hx : l.TakesOut id target x) :
    Detached (l.contentEdited id edits) := by
  apply (Detached.liftFault _).bind
  intro d _
  apply (Detached.liftProblem _).bind
  intro _ _
  apply editFlat_detached fun fewer hfewer => descend_detached [] id hfewer
  · rintro rfl
    cases htarget
  · intro d set hd hset
    obtain ⟨d', hd', hmeans, hne, hreach⟩ := hx
    obtain rfl := Option.some.inj (hd.symm.trans hd')
    have hdeleted : target ∈ edits.filterMap Edit.deletedAncestor? :=
      List.mem_filterMap.2 ⟨_, htarget, rfl⟩
    obtain ⟨ids, hids⟩ := exists_ancestors_of_excludeDeleted hset hdeleted
    have hmem : x ∈ ids :=
      ((Collecting.start id).of_collectAncestors hids).mem_iff x |>.2 ⟨hne, hreach⟩
    exact ⟨x, (mem_of_excludeDeleted hset x).2 (.inr ⟨target, hdeleted, ⟨ids, hids, hmem⟩, hmeans⟩)⟩

end Library

/-! ## Sessions of an environment -/

namespace Environment

theorem kept_gains (s : Session) : Compiling.Kept fun l => l.Gains [] s := fun l => l.respects_gains s

theorem after_gains (env : Environment) (q : Query) (s : Session) :
    env.library.Gains [] s (q.after env s) :=
  q.after_keeps (env.library.respects_gains s) Library.keeps_gains_contentWithout .refl

theorem afterAll_kinded (env : Environment) (qs : List Query) {s : Session}
    (hs : env.library.Kinded s) : env.library.Kinded (Query.afterAll env qs s) := by
  induction qs generalizing s with
  | nil => exact hs
  | cons q qs ih => exact ih ((env.after_gains q s).kinded hs)

/-- Whatever is asked in whatever session, all that is remembered stays as it is, and what is added is
of definitions of which nothing was remembered. Content without some definitions has nothing to do with
what is remembered, nor has content after an edit that takes out one of those that are inherited from.
Content that is remembered has the kind of its definition. -/
theorem remembered_for_good (env : Environment) :
    (∀ (q : Query) (s : Session), env.library.Gains [] s (q.after env s) ∧
      ∀ id known, s.cache.get? id = some known → (q.after env s).cache.get? id = some known) ∧
    (∀ id excluded, excluded ≠ [] → Detached (env.library.contentWithout id excluded)) ∧
    (∀ id edits target x, .deleteInheritance target ∈ edits → env.library.TakesOut id target x →
      Detached (env.library.contentEdited id edits)) ∧
    (∀ qs ds, env.library.Kinded (Query.afterAll env qs ⟨.empty, ds⟩)) ∧
    ∀ c : Compilation, c.environment = env →
      (∀ (r : Request) id known, c.session.cache.get? id = some known →
        (r.after c).session.cache.get? id = some known) ∧
      (c.Reachable → ∀ qs, env.library.Kinded (Query.afterAll env qs c.session)) := by
  refine ⟨fun q s => ?_, fun id excluded => Library.contentWithout_detached id, ?_, ?_, ?_⟩
  · exact ⟨env.after_gains q s, fun id known => (env.after_gains q s).keeps⟩
  · exact fun id edits target x => Library.contentEdited_detached
  · exact fun qs ds => env.afterAll_kinded qs nofun
  · rintro c rfl
    refine ⟨fun r id known hknown => ?_, fun hc qs => c.environment.afterAll_kinded qs hc.kinded⟩
    obtain ⟨s, hs, hgains⟩ := r.after_resolves (kept_gains c.session) c
    rw [hs]
    exact (hgains .refl).keeps hknown

end Environment

/-- The sun and the moon inherit from each other, but the moon leaves itself out of the sun. -/
def sky : Compilation :=
  let style (name property value : String) (parent : String) (edits : List Edit) : Operation :=
    .addGroup ⟨.custom, .style, name⟩ (.style (.ofList [(property, .concrete value)]))
      [⟨.ofKind .style parent, .explicit, edits, none⟩] .empty none
  Operation.afterAll [style "Sun" "color" "gold" "Moon" [],
    style "Moon" "width" "1px" "Sun" [.deleteInheritance (.ofKind .style "Moon")]] (.initial .initial)

theorem remembered_for_good_sky :
    sky.Reachable ∧ sky.library.TakesOut ⟨0⟩ (.ofKind .style "Moon") ⟨1⟩ ∧
    Detached (sky.library.contentWithout ⟨0⟩ [⟨1⟩]) ∧
    Detached (sky.library.contentEdited ⟨0⟩ [.deleteInheritance (.ofKind .style "Moon")]) ∧
    ∃ s known, s = Query.afterAll sky.environment [.content ⟨1⟩] sky.session ∧
      sky.library.Kinded s ∧ s.cache.get? ⟨1⟩ = some known ∧ s.cache.get? ⟨0⟩ = none ∧
      (Query.after sky.environment (.content ⟨0⟩) s).cache.get? ⟨1⟩ = some known := by
  have hreach : sky.Reachable := (Compilation.Reachable.initial .initial).afterAll _
  have hmoon : sky.library.Inherits ⟨0⟩ ⟨1⟩ := by
    refine ⟨_, rfl, _, List.mem_cons_self, ?_⟩
    decide +kernel
  have hmeans : sky.library.resolve .root (.ofKind .style "Moon") (.ofKind .style) = .ok ⟨1⟩ := by
    decide +kernel
  have htakes : sky.library.TakesOut ⟨0⟩ (.ofKind .style "Moon") ⟨1⟩ :=
    ⟨_, rfl, hmeans, by decide, .single hmoon⟩
  obtain ⟨hstays, hwithout, hedited, -, hreached⟩ := sky.environment.remembered_for_good
  have hcache : ((Query.afterAll sky.environment [.content ⟨1⟩] sky.session).cache.get? ⟨1⟩).isSome ∧
      (Query.afterAll sky.environment [.content ⟨1⟩] sky.session).cache.get? ⟨0⟩ = none := by
    decide +kernel
  obtain ⟨known, hknown⟩ := Option.isSome_iff_exists.1 hcache.1
  exact ⟨hreach, htakes, hwithout ⟨0⟩ [⟨1⟩] (by decide),
    hedited ⟨0⟩ _ _ ⟨1⟩ List.mem_cons_self htakes, _, known, rfl, (hreached sky rfl).2 hreach _,
    hknown, hcache.2, (hstays (.content ⟨0⟩) _).2 ⟨1⟩ known hknown⟩

end Stencil
