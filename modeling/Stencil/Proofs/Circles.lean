import Mathlib.Data.List.Chain
import Stencil.Proofs.Heir
import Stencil.Proofs.Import
import Stencil.Proofs.Mismatch
import Stencil.Proofs.RequestOrder

/-! # Which circles are told

Where every inheritance below a definition is found and none of it is edited, an answer about its
content tells of a circle exactly if one is reached from it, and names the definitions of that circle
one after another. The walk down ends early at everything that is remembered, so what is remembered
has to be as good an answer as the walk would have been.
-/
namespace Stencil

open Relation Resolving

namespace Library

variable {l : Library} {id p : DefId} {d : Definition} {path : List DefId} {texts : List String}

/-- The definition is stored. Whatever it inherits, directly or not, is found and comes without
edits. -/
structure Plain (l : Library) (id : DefId) : Prop where
  stored : l.definitions.Holds id
  edges : ∀ q d, ReflTransGen l.Inherits id q → l.definitions.get? q = some d →
    ∀ e ∈ d.edges, e.edits = [] ∧ ∃ p, l.parentOf d e = .ok p

/-- Every inheritance is found and comes without edits. -/
def inheritsPlainly (l : Library) : Bool :=
  (List.range l.definitions.size).all fun i =>
    match l.definitions.get? ⟨i⟩ with
    | none => true
    | some d => d.edges.all fun e => e.edits.isEmpty && (l.parentOf d e).toBool

theorem plain_of_inheritsPlainly (h : l.inheritsPlainly = true) (hid : l.definitions.Holds id) :
    l.Plain id where
  stored := hid
  edges q d _ hd e he := by
    have hq := List.all_eq_true.1 h q.index (by simpa using Arena.lt_size_of_get? hd)
    rw [hd] at hq
    have hedge := List.all_eq_true.1 hq e he
    rw [Bool.and_eq_true, List.isEmpty_iff] at hedge
    refine ⟨hedge.1, ?_⟩
    cases hp : l.parentOf d e with
    | ok p => exact ⟨p, rfl⟩
    | error f =>
      rw [hp] at hedge
      exact absurd hedge.2 (by simp [Except.toBool])

/-- From the definition one is reached that inherits from itself, directly or not. -/
def ReachesCircle (l : Library) (id : DefId) : Prop :=
  ∃ q, ReflTransGen l.Inherits id q ∧ TransGen l.Inherits q q

/-- The text names the definition. -/
def Named (l : Library) (id : DefId) (text : String) : Prop :=
  ∃ d, l.definitions.get? id = some d ∧ d.identity.render = text

/-- The texts name distinct definitions that are reached from `id`, each of which inherits from the
next and the last from the first, and then the first once more. -/
def Circle (l : Library) (id : DefId) (texts : List String) : Prop :=
  ∃ first rest, (first :: rest).Nodup ∧
    (∀ q ∈ first :: rest, ReflTransGen l.Inherits id q) ∧
    (first :: rest ++ [first]).IsChain l.Inherits ∧
    List.Forall₂ l.Named (first :: rest ++ [first]) texts

theorem Plain.parent (h : l.Plain id) (huniform : l.Uniform) (hp : l.Inherits id p) :
    l.Plain p where
  stored := by
    obtain ⟨d, hd, e, he, hparent⟩ := hp
    obtain ⟨d', hd', -⟩ := (huniform id d hd).2 e he p hparent
    exact Arena.holds_of_get? hd'
  edges q d hq := h.edges q d (.head hp hq)

/-- A circle is reached through one of the parents. -/
theorem reachesCircle_iff : l.ReachesCircle id ↔ ∃ p, l.Inherits id p ∧ l.ReachesCircle p := by
  constructor
  · rintro ⟨q, hq, hcircle⟩
    rcases hq.cases_head with rfl | ⟨p, hp, hq⟩
    · obtain ⟨p, hp, hback⟩ := TransGen.head'_iff.1 hcircle
      exact ⟨p, hp, id, hback, hcircle⟩
    · exact ⟨p, hp, q, hq, hcircle⟩
  · rintro ⟨p, hp, q, hq, hcircle⟩
    exact ⟨q, .head hp hq, hcircle⟩

theorem Circle.parent (hp : l.Inherits id p) (h : l.Circle p texts) : l.Circle id texts := by
  obtain ⟨first, rest, hnodup, hreach, hround, hnames⟩ := h
  exact ⟨first, rest, hnodup, fun q hq => .head hp (hreach q hq), hround, hnames⟩

/-- Along a chain the first leads to all others. -/
theorem transGen_of_isChain {r : DefId → DefId → Prop} {x y : DefId} {xs : List DefId}
    (h : (x :: xs).IsChain r) (hy : y ∈ xs) : TransGen r x y :=
  (h.imp fun _ _ => TransGen.single).rel_cons hy

theorem Circle.reachesCircle (h : l.Circle id texts) : l.ReachesCircle id := by
  obtain ⟨first, rest, -, hreach, hround, -⟩ := h
  exact ⟨first, hreach first List.mem_cons_self, transGen_of_isChain hround (by simp)⟩

/-! ## The circle that the walk closes -/

/-- A way down the inheritance, the innermost first. -/
def Trail (l : Library) (path : List DefId) : Prop :=
  path.IsChain fun inner outer => l.Inherits outer inner

theorem Trail.stored (h : l.Trail (id :: path)) : l.Stored path := by
  induction path generalizing id with
  | nil => exact stored_nil
  | cons q path ih =>
    obtain ⟨hq, hpath⟩ := List.isChain_cons_cons.1 h
    exact (ih hpath).cons hq

theorem named_of_mapM_find {ids : List DefId} {ds : List Definition}
    (h : ids.mapM l.find = .ok ds) :
    List.Forall₂ l.Named ids (ds.map fun d => d.identity.render) := by
  induction ids generalizing ds with
  | nil =>
    obtain rfl := Except.ok.inj h
    exact .nil
  | cons q ids ih =>
    rw [List.mapM_cons] at h
    obtain ⟨d, hd, h⟩ := Except.bind_eq_ok h
    obtain ⟨ds', hds, h⟩ := Except.bind_eq_ok h
    obtain rfl := Except.ok.inj h
    exact .cons ⟨d, Arena.get?_of_find hd, rfl⟩ (ih hds)

/-- Where a way down comes to a definition again, the part of it in between is a circle. -/
theorem exists_circle (htrail : l.Trail (id :: path)) (hnodup : path.Nodup) (hid : id ∈ path) :
    ∃ texts, l.cycle path id = .ok (.circular texts) ∧ l.Circle id texts := by
  obtain ⟨inner, outer, rfl, hinner⟩ := List.eq_append_cons_of_mem hid
  have htake : (inner ++ id :: outer).takeWhile (fun p => decide (p ≠ id)) = inner := by
    rw [List.takeWhile_append_of_pos (by simpa using fun p hp => ne_of_mem_of_not_mem hp hinner)]
    simp
  have hround : (id :: inner.reverse ++ [id]).IsChain l.Inherits := by
    have hprefix : l.Trail (id :: inner ++ [id]) := htrail.prefix ⟨outer, by simp⟩
    rw [Trail, ← List.isChain_reverse] at hprefix
    simpa using hprefix
  have hstored : l.Stored (id :: inner.reverse ++ [id]) := by
    intro q hq
    have hmem : q ∈ inner ∨ q = id := by simpa [or_comm, or_assoc] using hq
    apply htrail.stored q
    simp only [List.mem_append, List.mem_cons]
    tauto
  obtain ⟨ds, hds⟩ := mapM_find hstored
  refine ⟨_, by rw [cycle, htake, hds]; rfl, id, inner.reverse, ?_, ?_, hround,
    named_of_mapM_find hds⟩
  · exact List.nodup_cons.2
      ⟨by simpa using hinner, List.nodup_reverse.2 hnodup.of_append_left⟩
  · intro q hq
    rcases List.mem_cons.1 hq with rfl | hq
    · exact .refl
    · exact (transGen_of_isChain hround (by simp [hq])).to_reflTransGen

/-! ## Answers about plain definitions -/

/-- Content is an answer where no circle is reached, and the only other answer is a circle. -/
structure Tells (l : Library) (id : DefId) (r : Except Failure Content) : Prop where
  content : ∀ b, r = .ok b → ¬ l.ReachesCircle id
  circle : ∀ f, r = .error f → ∃ texts, f = .refused (.circular texts) ∧ l.Circle id texts

theorem Tells.isCircular_iff {r : Except Failure Content} (h : l.Tells id r) :
    IsCircular r ↔ l.ReachesCircle id := by
  cases r with
  | ok b => exact iff_of_false not_isCircular_ok (h.content b rfl)
  | error f =>
    obtain ⟨texts, rfl, hcircle⟩ := h.circle f rfl
    exact iff_of_true ⟨texts, rfl⟩ hcircle.reachesCircle

/-- What an answer about `id` gives has the kind of `id`. Where nothing is left out and `id` is plain,
it tells of circles. -/
structure Judges (l : Library) (id : DefId) (excluded : List DefId) (r : Except Failure Content) :
    Prop where
  kind : ∀ b, r = .ok b → l.HasKind id b
  tells : l.Uniform → excluded = [] → l.Plain id → l.Tells id r

theorem inherit_plain {e : Inheritance} (hp : l.parentOf d e = .ok p) (hedits : e.edits = [])
    (flat : DefId → List DefId → Resolving Content) (gathered : Content) :
    l.inherit d [] flat gathered e = (do return ← overlayFor d gathered (← flat p [])) := by
  rw [inherit_of_ok hp, hedits]
  rfl

theorem exists_overlayFor {gathered later : Content} (hgathered : gathered.kind = d.kind)
    (hlater : later.kind = d.kind) :
    ∃ b, overlayFor d gathered later = .ok b ∧ b.kind = d.kind := by
  obtain ⟨b, hb⟩ := Content.exists_overlay (hgathered.trans hlater.symm)
  exact ⟨b, by rw [overlayFor, hb], (Content.kind_overlay hb).trans hgathered⟩

variable {I : Session → Prop} {flat : DefId → List DefId → Resolving Content}

/-- The parents that came before had no circle, and the first that has one tells of it. -/
theorem foldlM_inherit_tells (hd : l.definitions.get? id = some d) {edges : List Inheritance}
    (hedges : edges ⊆ d.edges)
    (hplain : ∀ e ∈ edges, e.edits = [] ∧ ∃ p, l.parentOf d e = .ok p)
    (hflat : ∀ p, l.Inherits id p → Yields I (flat p []) fun r =>
      (∀ b, r = .ok b → b.kind = d.kind) ∧ l.Tells p r)
    {gathered : Content} (hkind : gathered.kind = d.kind) :
    Yields I (edges.foldlM (l.inherit d [] flat) gathered) fun r =>
      (∀ b, r = .ok b → b.kind = d.kind ∧
        ∀ e ∈ edges, ∀ p, l.parentOf d e = .ok p → ¬ l.ReachesCircle p) ∧
      ∀ f, r = .error f → ∃ texts, f = .refused (.circular texts) ∧ l.Circle id texts := by
  induction edges generalizing gathered with
  | nil =>
    apply Yields.pure
    refine ⟨fun b hb => ⟨Except.ok.inj hb ▸ hkind, by simp⟩, nofun⟩
  | cons e edges ih =>
    obtain ⟨hedits, p, hp⟩ := hplain e List.mem_cons_self
    have hinherits : l.Inherits id p := ⟨d, hd, e, hedges List.mem_cons_self, hp⟩
    rw [List.foldlM_cons, inherit_plain hp hedits, bind_assoc]
    refine (hflat p hinherits).bind (fun inherited hinherited => ?_) fun f hf => ?_
    · obtain ⟨body, hbody, hkind⟩ := exists_overlayFor hkind (hinherited.1 inherited rfl)
      have hnone := hinherited.2.content inherited rfl
      rw [hbody]
      refine Yields.mono (ih (fun e he => hedges (List.mem_cons_of_mem _ he))
        (fun e he => hplain e (List.mem_cons_of_mem _ he)) hkind) ?_
      rintro r ⟨hok, herror⟩
      refine ⟨fun b hb => ⟨(hok b hb).1, ?_⟩, herror⟩
      intro e' he' p' hp'
      rcases List.mem_cons.1 he' with rfl | he'
      · obtain rfl := Except.ok.inj (hp.symm.trans hp')
        exact hnone
      · exact (hok b hb).2 e' he' p' hp'
    · refine ⟨nofun, fun f' hf' => ?_⟩
      obtain rfl := Except.error.inj hf'
      obtain ⟨texts, hf, hcircle⟩ := hf.2.circle f rfl
      exact ⟨texts, hf, hcircle.parent hinherits⟩

/-- What is gathered for a plain definition tells of circles if what its parents give does. -/
theorem gather_tells (huniform : l.Uniform) (hd : l.definitions.get? id = some d)
    (hplain : l.Plain id)
    (hflat : ∀ p, l.Inherits id p → Yields I (flat p []) fun r =>
      (∀ b, r = .ok b → b.kind = d.kind) ∧ l.Tells p r) :
    Yields I (l.gather d [] flat) fun r => (∀ b, r = .ok b → b.kind = d.kind) ∧ l.Tells id r := by
  refine (foldlM_inherit_tells hd (List.Subset.refl _) (hplain.edges id d .refl hd) hflat
    (Content.kind_empty d.kind)).bind (fun gathered hgathered => ?_) fun f hf => ?_
  · obtain ⟨hkind, hnone⟩ := hgathered.1 gathered rfl
    obtain ⟨body, hbody, hbodyKind⟩ :=
      exists_overlayFor hkind (d.kind_ownContent.trans (huniform id d hd).1)
    rw [hbody]
    refine Yields.pure ⟨fun b hb => Except.ok.inj hb ▸ hbodyKind, fun _ _ hreaches => ?_, nofun⟩
    obtain ⟨p, ⟨d', hd', e, he, hp⟩, hreaches⟩ := reachesCircle_iff.1 hreaches
    obtain rfl := Option.some.inj (hd.symm.trans hd')
    exact hnone e he p hp hreaches
  · exact ⟨nofun, nofun, fun f' hf' => Except.error.inj hf' ▸ hf.2 f rfl⟩

/-- What is gathered is rightly judged if what the parents give is. -/
theorem gather_judges (hreport : ∀ s e span, I s → I (s.reporting e span))
    (hd : l.definitions.get? id = some d) {excluded : List DefId}
    (hflat : ∀ p, l.Inherits id p → ∀ fewer, Yields I (flat p fewer) (l.Judges p fewer)) :
    Yields I (l.gather d excluded flat) (l.Judges id excluded) := by
  -- Of all other definitions nothing is claimed but the kind.
  by_cases hplain : l.Uniform ∧ excluded = [] ∧ l.Plain id
  · obtain ⟨huniform, rfl, hplain⟩ := hplain
    have hparents (p : DefId) (hp : l.Inherits id p) : Yields I (flat p []) fun r =>
        (∀ b, r = .ok b → b.kind = d.kind) ∧ l.Tells p r := by
      apply (hflat p hp []).mono
      intro r hr
      exact ⟨fun b hb => huniform.kind_eq hd hp (hr.kind b hb),
        hr.tells huniform rfl (hplain.parent huniform hp)⟩
    apply (gather_tells huniform hd hplain hparents).mono
    exact fun r hr => ⟨fun b hb => ⟨d, hd, hr.1 b hb⟩, fun _ _ _ => hr.2⟩
  · have hgives : Gives I (l.gather d excluded flat) fun b => b.kind = d.kind :=
      gather_gives hreport
        (fun e he p fewer hp => .of_yields (hflat p ⟨d, hd, e, he, hp⟩ fewer)) excluded
    apply Yields.mono hgives
    refine fun r hr => ⟨fun b hb => ⟨d, hd, hr b hb⟩, fun huniform hnone hid => ?_⟩
    exact absurd ⟨huniform, hnone, hid⟩ hplain

/-! ## What is remembered -/

/-- All that is remembered is as good an answer as the walk down would have been. -/
def Candid (l : Library) (s : Session) : Prop :=
  ∀ id known, s.cache.get? id = some known → l.Judges id [] (known.mapError .refused)

theorem Candid.remembering {s : Session} (h : l.Candid s) {known : Except Problem Content}
    (hknown : l.Judges id [] (known.mapError .refused)) : l.Candid (s.remembering id known) := by
  intro id' known' hget
  rw [Session.get?_remembering] at hget
  split at hget
  · rename_i hid
    obtain rfl := Option.some.inj hget
    exact hid ▸ hknown
  · exact h id' known' hget

theorem candid_reporting (s : Session) (e : Problem) (span : Option Span) (h : l.Candid s) :
    l.Candid (s.reporting e span) := h

theorem remembered_judges (excluded : List DefId) (id : DefId) :
    Yields l.Candid (remembered excluded id) (Recalls True (l.Judges id excluded)) := by
  unfold remembered
  split
  · rename_i hnone
    obtain rfl := List.isEmpty_iff.1 hnone
    apply Yields.remembered
    intro s hs
    cases hk : s.cache.get? id with
    | none => exact .inl ⟨rfl, trivial⟩
    | some known => exact .inr ⟨known, rfl, hs id known hk⟩
  · exact .pure (.inl ⟨rfl, trivial⟩)

/-- A circle that is reached from `id` is an answer about it. -/
theorem Circle.judges {excluded : List DefId} (h : l.Circle id texts) :
    l.Judges id excluded (.error (.refused (.circular texts))) where
  kind := nofun
  tells _ _ _ := ⟨nofun, fun _ hf => ⟨texts, (Except.error.inj hf).symm, h⟩⟩

/-- Whichever way the walk came to a definition, its answer is right, and so is all it remembers. -/
theorem descend_judges {path : List DefId} {id : DefId} (htrail : l.Trail (id :: path))
    (hnodup : path.Nodup) (excluded : List DefId) :
    Yields l.Candid (l.descend path id excluded) (l.Judges id excluded) := by
  apply descend_yields (remembered_judges excluded id)
  · rintro - hid
    obtain ⟨texts, htexts, hcircle⟩ := exists_circle htrail hnodup hid
    exact ⟨texts, htexts, hcircle.judges⟩
  · rintro - - hd
    refine ⟨nofun, fun _ _ hplain => ?_⟩
    obtain ⟨d, hd'⟩ := hplain.stored.exists_get?
    cases hd.symm.trans hd'
  · -- The trail grows by a definition that was not on it, so it never holds one twice.
    rintro - hid d hd
    have below (p : DefId) (hp : l.Inherits id p) (fewer : List DefId) :=
      have := Arena.unvisited_cons_lt hd hid
      descend_judges (htrail.cons_cons hp) (List.nodup_cons.2 ⟨hid, hnodup⟩) fewer
    exact gather_judges candid_reporting hd below
  · rintro - rfl s b hs hb
    exact hs.remembering hb
termination_by l.definitions.unvisited path

theorem trail_singleton (id : DefId) : l.Trail [id] := List.isChain_singleton id

theorem content_judges (id : DefId) : Yields l.Candid (l.content id) (l.Judges id []) :=
  content_yields (remembered_judges [] id) (descend_judges (trail_singleton id) .nil [])
    fun _ _ _ hs he => hs.remembering he

theorem contentWithout_candid (id : DefId) (excluded : List DefId) :
    Keeps l.Candid (l.contentWithout id excluded) := by
  unfold contentWithout
  split
  · exact .of_yields (content_judges id)
  · exact .of_yields (descend_judges (trail_singleton id) .nil excluded)

theorem respects_candid (l : Library) : l.Respects l.Candid fun _ _ _ => True where
  report := candid_reporting
  content id := .of_yields (content_judges id)
  edited id edits := by
    apply (Keeps.liftFault _).bind
    intro d _
    apply (Keeps.liftProblem _).bind
    intro _ _
    apply editFlat_gives (P := fun _ => True) candid_reporting
    exact fun excluded => Keeps.of_yields (descend_judges (trail_singleton id) .nil excluded)

theorem candid_of_empty {s : Session} (h : s.cache = .empty) : l.Candid s := by
  intro id known hget
  rw [h] at hget
  cases hget

/-- From a candid session the content of a plain definition tells of circles. -/
theorem Candid.content_tells {s : Session} (h : l.Candid s) (huniform : l.Uniform)
    (hplain : l.Plain id) : l.Tells id ((l.content id).outcome s) :=
  (content_judges id s h).1.tells huniform rfl hplain

end Library

/-- An answer about the content of a definition is an error for a circle exactly if one is reached
from it, and otherwise there is content. The error names the circle. -/
structure Library.Detects (l : Library) (id : DefId) (r : Except Failure Content) : Prop where
  circular : IsCircular r ↔ l.ReachesCircle id
  otherwise : ¬ l.ReachesCircle id → ∃ b, r = .ok b
  circle : ∀ texts, r = .error (.refused (.circular texts)) → l.Circle id texts

theorem Library.Tells.detects {l : Library} {id : DefId} {r : Except Failure Content}
    (h : l.Tells id r) : l.Detects id r where
  circular := h.isCircular_iff
  otherwise hnone := by
    cases r with
    | ok b => exact ⟨b, rfl⟩
    | error f =>
      obtain ⟨texts, -, hcircle⟩ := h.circle f rfl
      exact absurd hcircle.reachesCircle hnone
  circle texts hr := by
    obtain ⟨texts', heq, hcircle⟩ := h.circle _ hr
    obtain rfl : texts = texts' := by simpa using heq
    exact hcircle

namespace Compilation

variable {c : Compilation} {id : DefId}

/-- Where all that a definition inherits is found and comes without edits, circles are detected
exactly, whatever was asked before: of the library alone, or of the compilation since nothing was
remembered. -/
theorem Reachable.circles_detected (hc : c.Reachable) (hfits : c.Fits)
    (hplain : c.library.Plain id) :
    (∀ qs ds, c.library.Detects id
      ((c.library.content id).outcome (Query.afterAll c.environment qs ⟨.empty, ds⟩))) ∧
    (c.session.cache = .empty → ∀ rs, c.library.Detects id
      ((Compiling.contentOf id).outcome (Request.afterAll rs c))) := by
  have huniform := hc.intact.uniform (hc.filed hfits)
  constructor
  · intro qs ds
    have hrespects : c.environment.library.Respects c.library.Candid fun _ _ _ => True :=
      c.library.respects_candid
    have hcandid : c.library.Candid (Query.afterAll c.environment qs ⟨.empty, ds⟩) :=
      Query.afterAll_keeps hrespects Library.contentWithout_candid qs (Library.candid_of_empty rfl)
    exact (hcandid.content_tells huniform hplain).detects
  · intro hempty rs
    obtain ⟨s, hs, hcandid⟩ := Request.afterAll_resolves Library.respects_candid rs c
    obtain ⟨d, hd⟩ := hplain.stored.exists_get?
    have hout := Compiling.outcome_contentOf_of_some (c := { c with session := s }) hd
    rw [hs, hout]
    exact ((hcandid (Library.candid_of_empty hempty)).content_tells huniform hplain).detects

end Compilation

/-- Two style groups that inherit from each other, and one that inherits from a group without parents
and from the second of the two. -/
def stairs : Compilation :=
  let style (name : String) (parents : List String) : Operation :=
    .addGroup ⟨.custom, .style, name⟩ (.empty .style)
      (parents.map fun parent => ⟨.ofKind .style parent, .explicit, [], none⟩) .empty none
  Operation.afterAll
    [style "Up" ["Down"], style "Down" ["Up"], style "Rail" [], style "Flight" ["Rail", "Down"]]
    (.initial .initial)

/-- The flight tells of the circle that it leads to, from its own parent on or, once the other group
was asked for, from that one on. The rail has content. -/
theorem circles_detected_stairs :
    stairs.Reachable ∧ stairs.Fits ∧ stairs.library.Plain ⟨3⟩ ∧ stairs.library.Plain ⟨2⟩ ∧
    stairs.session.cache = .empty ∧
    stairs.library.Circle ⟨3⟩
      ["[Custom] @Style Down", "[Custom] @Style Up", "[Custom] @Style Down"] ∧
    stairs.library.Circle ⟨3⟩
      ["[Custom] @Style Up", "[Custom] @Style Down", "[Custom] @Style Up"] ∧
    ¬ stairs.library.ReachesCircle ⟨2⟩ := by
  have hreach : stairs.Reachable := (Compilation.Reachable.initial .initial).afterAll _
  have hfits : stairs.Fits := ⟨by decide +kernel, by decide +kernel⟩
  have hempty : stairs.session.cache = .empty := by rfl
  have hflight : stairs.library.Plain ⟨3⟩ :=
    Library.plain_of_inheritsPlainly (by decide +kernel) (by decide +kernel)
  have hrail : stairs.library.Plain ⟨2⟩ :=
    Library.plain_of_inheritsPlainly (by decide +kernel) (by decide +kernel)
  have hfirst : ((stairs.library.content ⟨3⟩).outcome (Query.afterAll stairs.environment
      [.content ⟨2⟩] ⟨.empty, []⟩)).map Content.size = .error (.refused (.circular
        ["[Custom] @Style Down", "[Custom] @Style Up", "[Custom] @Style Down"])) := by
    decide +kernel
  have hlater : ((Compiling.contentOf ⟨3⟩).outcome (Request.afterAll [.contentOf ⟨0⟩]
      stairs)).map Content.size = .error (.refused (.circular
        ["[Custom] @Style Up", "[Custom] @Style Down", "[Custom] @Style Up"])) := by
    decide +kernel
  have hcontent : ((Compiling.contentOf ⟨2⟩).outcome (Request.afterAll
      [.contentOf ⟨0⟩, .contentOf ⟨3⟩] stairs)).map Content.size = .ok 0 := by
    decide +kernel
  obtain ⟨hqueries, hrequests⟩ := hreach.circles_detected hfits hflight
  refine ⟨hreach, hfits, hflight, hrail, hempty, ?_, ?_, fun hreaches => ?_⟩
  · exact (hqueries _ _).circle _ (Except.map_eq_error.1 hfirst)
  · exact (hrequests hempty _).circle _ (Except.map_eq_error.1 hlater)
  · obtain ⟨b, hb, -⟩ := Except.map_eq_ok.1 hcontent
    have hdetects := (hreach.circles_detected hfits hrail).2 hempty
    obtain ⟨path, hpath⟩ := (hdetects _).circular.2 hreaches
    cases hb.symm.trans hpath

end Stencil
