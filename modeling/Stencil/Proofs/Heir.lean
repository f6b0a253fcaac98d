import Stencil.Proofs.Coupling
import Stencil.Proofs.Kinds
import Stencil.Proofs.Overlay

/-! # Heirs that add nothing

A definition without content of its own that inherits from one other, as it is, has the content of
that one. Once both have been looked up, a session that remembers the heir cannot be told from one
that does not.
-/
namespace Stencil

open Resolving

namespace Library

variable {l : Library} {heir parent id : DefId} {d d' : Definition} {raw : Content} {s t : Session}
  {path : List DefId}

/-- `heir`, which is stored as `d`, adds nothing to what it inherits, and that is all of `parent`,
which is stored as `d'` and of the same kind. -/
structure Heir (l : Library) (heir : DefId) (d : Definition) (parent : DefId) (d' : Definition) :
    Prop where
  stored : l.definitions.get? heir = some d
  parentStored : l.definitions.get? parent = some d'
  kind : d'.kind = d.kind
  body : d.body = .empty d.kind
  noValue : d.noValue = .empty
  edge : ∃ e, d.edges = [e] ∧ e.edits = [] ∧ l.parentOf d e = .ok parent

theorem overlayFor_empty_left (hkind : raw.kind = d.kind) :
    overlayFor d (.empty d.kind) raw = .ok raw := by
  rw [overlayFor, ← hkind, Content.empty_overlay]

theorem overlayFor_empty_right (hkind : raw.kind = d.kind) :
    overlayFor d raw (.empty d.kind) = .ok raw := by
  rw [overlayFor, ← hkind, Content.overlay_empty]

theorem inherit_of_ok {e : Inheritance} (hp : l.parentOf d e = .ok parent)
    (excluded : List DefId) (flat : DefId → List DefId → Resolving Content) (gathered : Content) :
    l.inherit d excluded flat gathered e = (do
      checkEdits d e.edits
      if excluded.contains parent then return gathered
      return ← overlayFor d gathered
        (← l.editFlat (flat parent) parent e.edits excluded)) := by
  rw [inherit, hp]
  rfl

namespace Heir

theorem inherits (h : l.Heir heir d parent d') : l.Inherits heir parent := by
  obtain ⟨e, hedges, -, hp⟩ := h.edge
  exact ⟨d, h.stored, e, by simp [hedges], hp⟩

theorem ownContent (h : l.Heir heir d parent d') : d.ownContent = .empty d.kind := by
  have hplain (s : StyleContent) : s.addPlaceholders d.noValue.toList = s := by
    rw [h.noValue]
    rfl
  rw [Definition.ownContent, h.body]
  cases d.kind with
  | style => exact congrArg Content.style (hplain _)
  | element => rfl
  | var => rfl

theorem gather_eq (h : l.Heir heir d parent d') (flat : DefId → List DefId → Resolving Content) :
    l.gather d [] flat = (do
      let inherited ← flat parent []
      let gathered ← overlayFor d (.empty d.kind) inherited
      return ← overlayFor d gathered (.empty d.kind)) := by
  obtain ⟨e, hedges, hedits, hp⟩ := h.edge
  have hinherit : l.inherit d [] flat (.empty d.kind) e = (do
      return ← overlayFor d (.empty d.kind) (← flat parent [])) := by
    rw [inherit_of_ok hp, hedits]
    rfl
  rw [gather, hedges, List.foldlM_cons, hinherit, h.ownContent]
  simp only [List.foldlM_nil, bind_pure, bind_assoc]

/-- The heir gathers what its parent gives. -/
theorem run_gather (h : l.Heir heir d parent d') (flat : DefId → List DefId → Resolving Content)
    (hkind : raw.kind = d.kind) (hflat : (flat parent []).outcome s = .ok raw) :
    (l.gather d [] flat).run s = (.ok raw, (flat parent []).after s) := by
  rw [h.gather_eq, run_bind, hflat]
  change ((liftM (overlayFor d (.empty d.kind) raw) : Resolving Content) >>= _).run _ = _
  rw [overlayFor_empty_left hkind]
  change (liftM (overlayFor d raw (.empty d.kind)) : Resolving Content).run _ = _
  rw [overlayFor_empty_right hkind]
  rfl

end Heir

/-! ## What is remembered -/

theorem run_descend_of_remembered {known : Except Problem Content}
    (hs : s.cache.get? id = some known) (path : List DefId) :
    (l.descend path id []).run s = (known.mapError .refused, s) := by
  have hknown : (remembered [] id).run s = (.ok (some known), s) := by
    rw [← hs]
    rfl
  rw [descend, run_bind, outcome, after, hknown]
  rfl

theorem run_descend_of_forgotten (hs : s.cache.get? id = none) (hpath : id ∉ path)
    (hd : l.definitions.get? id = some d) :
    (l.descend path id []).run s = (do
      let body ← l.gather d [] fun parent ex => l.descend (id :: path) parent ex
      remember id (.ok body)
      return body : Resolving Content).run s := by
  have hknown : (remembered [] id).run s = (.ok none, s) := by
    rw [← hs]
    rfl
  rw [descend, run_bind, outcome, after, hknown]
  simp only [hpath, dif_neg, not_false_eq_true]
  split
  · rename_i hnone
    rw [hd] at hnone
    cases hnone
  · rename_i d' hd'
    rw [hd] at hd'
    cases hd'
    rfl

/-- Content that was found is remembered. -/
theorem descend_remembers (hpath : id ∉ path) (hd : l.definitions.get? id = some d)
    (h : (l.descend path id []).outcome s = .ok raw) :
    ((l.descend path id []).after s).cache.get? id = some (.ok raw) := by
  cases hs : s.cache.get? id with
  | some known =>
    have hrun := run_descend_of_remembered (l := l) hs path
    rw [outcome, hrun] at h
    rw [after, hrun, hs]
    cases known with
    | error e => cases h
    | ok b => exact congrArg (some ∘ Except.ok) (Except.ok.inj h)
  | none =>
    have hrun := run_descend_of_forgotten hs hpath hd
    rw [run_bind] at hrun
    rw [outcome, hrun] at h
    rw [after, hrun]
    split at h
    · obtain rfl := Except.ok.inj h
      exact (OrderedMap.get?_insert _ id id _).trans (if_pos rfl)
    · cases h

theorem gather_congr {excluded : List DefId} {flat flat' : DefId → List DefId → Resolving Content}
    (h : ∀ e ∈ d.edges, ∀ p, l.parentOf d e = .ok p → flat p = flat' p) :
    l.gather d excluded flat = l.gather d excluded flat' := by
  have hfold (edges : List Inheritance) (hedges : edges ⊆ d.edges) (gathered : Content) :
      edges.foldlM (l.inherit d excluded flat) gathered =
        edges.foldlM (l.inherit d excluded flat') gathered := by
    induction edges generalizing gathered with
    | nil => rfl
    | cons e edges ih =>
      have hinherit : l.inherit d excluded flat gathered e =
          l.inherit d excluded flat' gathered e := by
        cases hp : l.parentOf d e with
        | error f => rw [inherit, inherit, hp]; rfl
        | ok p =>
          rw [inherit_of_ok hp, inherit_of_ok hp, h e (hedges List.mem_cons_self) p hp]
      rw [List.foldlM_cons, List.foldlM_cons, hinherit]
      congr 1
      funext gathered
      exact ih (fun e he => hedges (List.mem_cons_of_mem _ he)) gathered
  rw [gather, gather, hfold d.edges (List.Subset.refl _)]

theorem cycle_append (hid : id ∈ path) : l.cycle (path ++ [heir]) id = l.cycle path id := by
  have htake : (path ++ [heir]).takeWhile (fun p => decide (p ≠ id)) =
      path.takeWhile fun p => decide (p ≠ id) := by
    induction path with
    | nil => simp at hid
    | cons q path ih =>
      by_cases hq : q = id
      · simp [hq]
      · have hid : id ∈ path := (List.mem_cons.1 hid).resolve_left (Ne.symm hq)
        simpa [hq] using ih hid
  rw [cycle, cycle, htake]

/-- A walk that does not come by `heir` is the same inside it. -/
theorem descend_append {id : DefId} (hid : ¬ Relation.ReflTransGen l.Inherits id heir)
    (path excluded : List DefId) :
    l.descend (path ++ [heir]) id excluded = l.descend path id excluded := by
  rw [descend, descend]
  congr 1
  funext known
  cases known with
  | some known => rfl
  | none =>
    by_cases hpath : id ∈ path
    · have hpath' : id ∈ path ++ [heir] := List.mem_append_left _ hpath
      simp only [hpath, hpath', dif_pos, cycle_append]
    · have hpath' : id ∉ path ++ [heir] := by
        intro h
        rcases List.mem_append.1 h with h | h
        · exact hpath h
        · exact hid (List.mem_singleton.1 h ▸ .refl)
      simp only [hpath, hpath', dif_neg, not_false_eq_true]
      split
      · rfl
      · rename_i d hd
        rw [gather_congr]
        intro e he p hp
        have := Arena.unvisited_cons_lt hd hpath
        funext excluded
        exact descend_append (fun h => hid (.head ⟨d, hd, e, he, hp⟩ h)) (id :: path) excluded
termination_by l.definitions.unvisited path

/-! ## Sessions with and without the heir -/

/-- `t` is `s` with the content of the parent remembered of the heir as well. -/
structure Agree (heir parent : DefId) (raw : Content) (s t : Session) : Prop where
  source : s.cache.get? parent = some (.ok raw)
  pending : ∀ known, s.cache.get? heir = some known → known = .ok raw
  settled : t.cache.get? heir = some (.ok raw)
  others : ∀ id, id ≠ heir → t.cache.get? id = s.cache.get? id
  diagnostics : t.diagnostics = s.diagnostics

namespace Agree

theorem start (hparent : s.cache.get? parent = some (.ok raw))
    (hheir : s.cache.get? heir = some (.ok raw)) : Agree heir parent raw s s where
  source := hparent
  pending _ h := Option.some.inj (h.symm.trans hheir)
  settled := hheir
  others _ _ := rfl
  diagnostics := rfl

/-- The heir may be remembered in one session before it is in the other. -/
theorem remembering (hparent : s.cache.get? parent = some (.ok raw))
    (hheir : ∀ known, s.cache.get? heir = some known → known = .ok raw) :
    Agree heir parent raw s (s.remembering heir (.ok raw)) where
  source := hparent
  pending := hheir
  settled := by simp
  others id hid := by simp [hid.symm]
  diagnostics := by simp

theorem reporting (h : Agree heir parent raw s t) (e : Problem) (span : Option Span) :
    Agree heir parent raw (s.reporting e span) (t.reporting e span) where
  source := h.source
  pending := h.pending
  settled := h.settled
  others := h.others
  diagnostics := congrArg (fun ds => ds.report e span) h.diagnostics

/-- What is remembered of another definition than the two is remembered in both sessions. -/
theorem both (h : Agree heir parent raw s t) (hheir : id ≠ heir) (hparent : id ≠ parent)
    (known : Except Problem Content) :
    Agree heir parent raw (s.remembering id known) (t.remembering id known) where
  source := by simp [hparent, h.source]
  pending := by simpa [hheir] using h.pending
  settled := by simp [hheir, h.settled]
  others id' hid' := by simp [h.others id' hid']
  diagnostics := by simp [h.diagnostics]

theorem caught_up (h : Agree heir parent raw s t) (hne : parent ≠ heir) :
    Agree heir parent raw (s.remembering heir (.ok raw)) t where
  source := by simp [hne.symm, h.source]
  pending := by simp
  settled := h.settled
  others id hid := by simp [hid.symm, h.others id hid]
  diagnostics := by simp [h.diagnostics]

end Agree

theorem report_couples (e : Problem) (span : Option Span) :
    Couples (Agree heir parent raw) (report e span) :=
  fun _ _ h => ⟨rfl, h.reporting e span⟩

theorem remember_couples (hheir : id ≠ heir) (hparent : id ≠ parent)
    (known : Except Problem Content) : Couples (Agree heir parent raw) (remember id known) :=
  fun _ _ h => ⟨rfl, h.both hheir hparent known⟩

theorem remembered_couples (excluded : List DefId) (h : excluded = [] → id ≠ heir) :
    Couples (Agree heir parent raw) (remembered excluded id) := by
  unfold remembered
  split
  · rename_i hempty
    intro s t hst
    exact ⟨congrArg Except.ok (hst.others id (h (List.isEmpty_iff.1 hempty))).symm, hst⟩
  · exact .pure none

theorem Heir.ne (h : l.Heir heir d parent d') (hheir : ¬ Relation.TransGen l.Inherits heir heir) :
    parent ≠ heir := by
  rintro rfl
  exact hheir (.single h.inherits)

/-- Of both definitions either session gives the same content. -/
theorem Heir.descend_agree (h : l.Heir heir d parent d')
    (hheir : ¬ Relation.TransGen l.Inherits heir heir) (hkind : raw.kind = d.kind)
    (hid : id = heir ∨ id = parent) (path : List DefId)
    (hreach : ∀ q ∈ path, Relation.TransGen l.Inherits q id) (hst : Agree heir parent raw s t) :
    (l.descend path id []).outcome s = .ok raw ∧ (l.descend path id []).outcome t = .ok raw ∧
      Agree heir parent raw ((l.descend path id []).after s) ((l.descend path id []).after t) := by
  have hparent (path : List DefId) : (l.descend path parent []).run s = (.ok raw, s) :=
    run_descend_of_remembered hst.source path
  rcases hid with rfl | rfl
  · have ht : (l.descend path id []).run t = (.ok raw, t) := run_descend_of_remembered hst.settled path
    cases hs : s.cache.get? id with
    | some known =>
      have hrun := run_descend_of_remembered (l := l) hs path
      rw [hst.pending known hs] at hrun
      rw [outcome, outcome, after, after, hrun, ht]
      exact ⟨rfl, rfl, hst⟩
    | none =>
      have hgather := h.run_gather (fun p ex => l.descend (id :: path) p ex) hkind
        (congrArg Prod.fst (hparent _))
      have hrun := run_descend_of_forgotten hs (fun hid => hheir (hreach id hid)) h.stored
      rw [run_bind, outcome, after, hgather] at hrun
      rw [outcome, outcome, after, after, hrun, ht]
      refine ⟨rfl, rfl, ?_⟩
      rw [after, hparent]
      exact hst.caught_up (h.ne hheir)
  · have ht : (l.descend path id []).run t = (.ok raw, t) :=
      run_descend_of_remembered ((hst.others id (h.ne hheir)).trans hst.source) path
    rw [outcome, outcome, after, after, hparent, ht]
    exact ⟨rfl, rfl, hst⟩

/-- A walk cannot tell whether the heir is remembered. -/
theorem Heir.descend_couples (h : l.Heir heir d parent d')
    (hheir : ¬ Relation.TransGen l.Inherits heir heir) (hkind : raw.kind = d.kind)
    {path : List DefId} {id : DefId} (hreach : ∀ q ∈ path, Relation.TransGen l.Inherits q id)
    (excluded : List DefId) : Couples (Agree heir parent raw) (l.descend path id excluded) := by
  by_cases hid : excluded = [] ∧ (id = heir ∨ id = parent)
  · obtain ⟨rfl, hid⟩ := hid
    intro s t hst
    obtain ⟨hs, ht, hafter⟩ := h.descend_agree hheir hkind hid path hreach hst
    exact ⟨hs.trans ht.symm, hafter⟩
  · have hothers (hempty : excluded = []) : id ≠ heir ∧ id ≠ parent :=
      not_or.1 fun h => hid ⟨hempty, h⟩
    rw [descend]
    apply (remembered_couples excluded fun hempty => (hothers hempty).1).bind
    intro known
    cases known with
    | some known => exact .liftProblem known
    | none =>
      by_cases hpath : id ∈ path
      · simp only [hpath, dif_pos]
        apply (Couples.liftFault _).bind
        exact fun e => .throw _
      · simp only [hpath, dif_neg, not_false_eq_true]
        split
        · exact .throw _
        · rename_i d' hd'
          have below (e : Inheritance) (he : e ∈ d'.edges) (p : DefId) (excluded : List DefId)
              (hp : l.parentOf d' e = .ok p) :
              Couples (Agree heir parent raw) (l.descend (id :: path) p excluded) := by
            have := Arena.unvisited_cons_lt hd' hpath
            have hinherits : l.Inherits id p := ⟨d', hd', e, he, hp⟩
            apply h.descend_couples hheir hkind
            intro q hq
            rcases List.mem_cons.1 hq with rfl | hq
            · exact .single hinherits
            · exact (hreach q hq).tail hinherits
          apply (gather_couples report_couples below excluded).bind
          intro body
          split
          · rename_i hempty
            obtain ⟨hne, hne'⟩ := hothers (List.isEmpty_iff.1 hempty)
            exact (remember_couples hne hne' (.ok body)).bind fun _ => .pure body
          · exact .pure body
termination_by l.definitions.unvisited path

theorem run_content_of_ok (h : (l.descend [] id []).outcome s = .ok raw) :
    (l.content id).run s = (l.descend [] id []).run s := by
  cases hs : s.cache.get? id with
  | some known =>
    have hknown : (Resolving.remembered id).run s = (.ok (some known), s) := by
      rw [← hs]
      rfl
    rw [run_descend_of_remembered hs, content, run_bind, outcome, after, hknown]
    rfl
  | none =>
    have hknown : (Resolving.remembered id).run s = (.ok none, s) := by
      rw [← hs]
      rfl
    rw [content, run_bind, outcome, after, hknown]
    change (attempt (l.descend [] id []) >>= _).run s = _
    rw [run_attempt_bind_of_ok h]
    exact congrArg (·, _) h.symm

/-- The content is what the walk finds, also where that is an error. -/
theorem outcome_content (id : DefId) (s : Session) :
    (l.content id).outcome s = (l.descend [] id []).outcome s := by
  cases hs : s.cache.get? id with
  | some known =>
    have hknown : (Resolving.remembered id).run s = (.ok (some known), s) := by
      rw [← hs]
      rfl
    rw [outcome, outcome, run_descend_of_remembered hs, content, run_bind, outcome, after, hknown]
    rfl
  | none =>
    have hknown : (Resolving.remembered id).run s = (.ok none, s) := by
      rw [← hs]
      rfl
    rw [outcome, content, run_bind, outcome, after, hknown]
    change ((attempt (l.descend [] id []) >>= _).run s).1 = _
    rcases hout : (l.descend [] id []).outcome s with (e | f) | body
    · rw [run_attempt_bind_of_refused hout]
      rfl
    · rw [run_bind, outcome, run_attempt, hout]
      rfl
    · rw [run_attempt_bind_of_ok hout]
      rfl

theorem Heir.content_couples (h : l.Heir heir d parent d')
    (hheir : ¬ Relation.TransGen l.Inherits heir heir) (hkind : raw.kind = d.kind) (id : DefId) :
    Couples (Agree heir parent raw) (l.content id) := by
  by_cases hid : id = heir ∨ id = parent
  · intro s t hst
    obtain ⟨hs, ht, hafter⟩ := h.descend_agree hheir hkind hid [] (by simp) hst
    rw [outcome, outcome, after, after, run_content_of_ok hs, run_content_of_ok ht]
    exact ⟨hs.trans ht.symm, hafter⟩
  · obtain ⟨hne, hne'⟩ := not_or.1 hid
    apply (remembered_couples [] fun _ => hne).bind
    intro known
    cases known with
    | some known => exact .liftProblem known
    | none =>
      apply (h.descend_couples hheir hkind (by simp) []).attempt.bind
      intro found
      cases found with
      | ok body => exact .pure body
      | error e => exact (remember_couples hne hne' (.error e)).bind fun _ => .throw _

theorem Heir.contentEdited_couples (h : l.Heir heir d parent d')
    (hheir : ¬ Relation.TransGen l.Inherits heir heir) (hkind : raw.kind = d.kind) (id : DefId)
    (edits : List Edit) : Couples (Agree heir parent raw) (l.contentEdited id edits) := by
  apply Couples.bind (.liftFault _)
  intro d'
  apply Couples.bind (.liftProblem _)
  intro _
  exact editFlat_couples report_couples (h.descend_couples hheir hkind (by simp)) id edits []

/-! ## The first look at the heir -/

theorem contentEdited_nil (hd : l.definitions.get? id = some d) :
    l.contentEdited id [] = l.descend [] id [] := by
  have hfind : l.find id = .ok d := by
    rw [find, Arena.find, hd]
  rw [contentEdited, hfind]
  rfl

/-- Nothing is remembered of a definition that a walk does not come by. -/
theorem walks_past (l : Library) (heir : DefId) :
    l.Walks (fun s => s.cache.get? heir = none)
      (fun id => ¬ Relation.ReflTransGen l.Inherits id heir) fun _ _ => True where
  report _ _ _ h := h
  inherits _ _ hid hp h := hid (.head hp h)
  made _ _ _ := trivial
  recalled _ _ _ _ _ := trivial
  remember s id b hs hid _ := by
    have hne : id ≠ heir := fun h => hid (h ▸ .refl)
    simp [hne, hs]
  fail s id e hs hid := by
    have hne : id ≠ heir := fun h => hid (h ▸ .refl)
    simp [hne, hs]

/-- The heir has the content of its parent unless something else is remembered of it, and from then
on the sessions agree. -/
theorem Heir.contentEdited_agree (h : l.Heir heir d parent d')
    (hheir : ¬ Relation.TransGen l.Inherits heir heir) (hkind : raw.kind = d.kind)
    (hcache : ∀ known, s.cache.get? heir = some known → s.cache.get? parent = some known)
    (hraw : (l.contentEdited parent []).outcome s = .ok raw) :
    (l.contentEdited heir []).outcome s = .ok raw ∧
      Agree heir parent raw ((l.contentEdited parent []).after s)
        ((l.contentEdited heir []).after s) := by
  rw [contentEdited_nil h.parentStored] at hraw ⊢
  rw [contentEdited_nil h.stored]
  cases hs : s.cache.get? heir with
  | some known =>
    have hparent := run_descend_of_remembered (l := l) (hcache known hs) []
    rw [outcome, hparent] at hraw
    cases known with
    | error e => cases hraw
    | ok b =>
      obtain rfl : b = raw := Except.ok.inj hraw
      rw [after, hparent, outcome, after, run_descend_of_remembered hs]
      exact ⟨rfl, .start (hcache _ hs) hs⟩
  | none =>
    have hpast : ¬ Relation.ReflTransGen l.Inherits parent heir :=
      fun hp => hheir (.head' h.inherits hp)
    have hwithin : l.descend [heir] parent [] = l.descend [] parent [] :=
      descend_append hpast [] []
    have hgather := h.run_gather (fun p ex => l.descend [heir] p ex) (s := s) hkind
      (by rw [hwithin, hraw])
    have hrun := run_descend_of_forgotten hs (List.not_mem_nil (a := heir)) h.stored
    rw [run_bind, outcome, after, hgather, hwithin] at hrun
    rw [outcome, after, after, hrun]
    refine ⟨rfl, .remembering (descend_remembers (by simp) h.parentStored hraw) ?_⟩
    intro known hknown
    have hnone := (descend_gives (walks_past l heir) [] hpast [] s hs).2
    cases hnone.symm.trans hknown

end Library
end Stencil
