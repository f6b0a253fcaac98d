import Stencil.Proofs.Inheritance
import Stencil.Proofs.Session

/-! # Inheritance with memory

What is remembered of a definition is compared with what a walk without memory finds. The two
agree unless the walk closes a circle, and all that is ever remembered, circles apart, is the
content that the definition unfolds to.
-/
namespace Stencil

open Resolving

/-- From some depth on the approximations `w` are all `r`. -/
def EndsIn {α : Type} (w : Nat → Except Failure α) (r : Except Failure α) : Prop :=
  ∃ depth, ∀ n, depth ≤ n → w n = r

theorem EndsIn.unique {α : Type} {w : Nat → Except Failure α} {r r' : Except Failure α}
    (h : EndsIn w r) (h' : EndsIn w r') : r = r' := by
  obtain ⟨n, hn⟩ := h
  obtain ⟨m, hm⟩ := h'
  rw [← hn (max n m) (Nat.le_max_left n m), hm (max n m) (Nat.le_max_right n m)]

theorem EndsIn.of_succ {α : Type} {w : Nat → Except Failure α} {r : Except Failure α}
    (h : EndsIn (fun n => w (n + 1)) r) : EndsIn w r := by
  obtain ⟨n, hn⟩ := h
  refine ⟨n + 1, fun m hm => ?_⟩
  obtain ⟨m, rfl⟩ : ∃ k, m = k + 1 := ⟨m - 1, by omega⟩
  exact hn m (by omega)

/-- `r` is `u` unless that is a circle, and unless `r` is one the approximations `w` end in it. -/
structure Tracks {α : Type} (u : Except Failure α) (w : Nat → Except Failure α)
    (r : Except Failure α) : Prop where
  settles : Settles u r
  unfolds : ¬ IsCircular r → EndsIn w r

namespace Tracks

variable {α β : Type} {u : Except Failure α} {w : Nat → Except Failure α}
  {g : α → Except Failure β} {v : Nat → α → Except Failure β}

theorem refl (r : Except Failure α) : Tracks r (fun _ => r) r :=
  ⟨.refl r, fun _ => ⟨0, fun _ _ => rfl⟩⟩

theorem bind_ok {a : α} {r : Except Failure β} (h : Tracks u w (.ok a))
    (hr : Tracks (g a) (fun n => v n a) r) : Tracks (u >>= g) (fun n => w n >>= v n) r := by
  constructor
  · intro hc
    cases u with
    | ok b =>
      cases h.settles not_isCircular_ok
      exact hr.settles hc
    | error e => cases h.settles fun he => hc he.of_error
  · intro hc
    obtain ⟨n, hn⟩ := h.unfolds not_isCircular_ok
    obtain ⟨m, hm⟩ := hr.unfolds hc
    refine ⟨max n m, fun k hk => ?_⟩
    change w k >>= v k = r
    rw [hn k (by omega)]
    exact hm k (by omega)

theorem bind_error {e : Failure} (h : Tracks u w (.error e)) :
    Tracks (u >>= g) (fun n => w n >>= v n) (.error e) := by
  constructor
  · intro hc
    cases u with
    | ok b => cases h.settles not_isCircular_ok
    | error e' =>
      cases h.settles fun he => hc he.of_error
      rfl
  · intro hc
    obtain ⟨n, hn⟩ := h.unfolds fun he => hc he.of_error
    refine ⟨n, fun k hk => ?_⟩
    change w k >>= v k = .error e
    rw [hn k hk]
    rfl

end Tracks

theorem Resolving.Yields.tracks {α β : Type} {I : Session → Prop} {x : Resolving α}
    {f : α → Resolving β} {u : Except Failure α} {w : Nat → Except Failure α}
    {g : α → Except Failure β} {v : Nat → α → Except Failure β} (hx : Yields I x (Tracks u w))
    (hf : ∀ a, Yields I (f a) (Tracks (g a) fun n => v n a)) :
    Yields I (x >>= f) (Tracks (u >>= g) fun n => w n >>= v n) :=
  hx.bind (fun a ha => (hf a).mono fun _ => ha.bind_ok) fun _ he => he.bind_error

namespace Library

variable {l : Library} {I : Session → Prop} {id : DefId} {d : Definition}

/-- The list of excluded definitions that a resolution gives has the members of a set. -/
def Lists (set : Except Fault (Finset DefId)) (r : Except Failure (List DefId)) : Prop :=
  r.map List.toFinset = set.mapError .fault

theorem Lists.bind {α : Type} {x : Resolving (List DefId)} {f : List DefId → Resolving α}
    {set : Except Fault (Finset DefId)} {Q : Except Failure α → Prop}
    (hx : Yields I x (Lists set))
    (hok : ∀ fewer : List DefId, set = .ok fewer.toFinset → Yields I (f fewer) Q)
    (herror : ∀ e, set = .error e → Q (.error (.fault e))) : Yields I (x >>= f) Q := by
  cases set with
  | error e =>
    apply hx.bind
    · intro fewer h
      cases h
    · intro f h
      cases h
      exact herror e rfl
  | ok set =>
    apply hx.bind
    · intro fewer h
      obtain rfl : fewer.toFinset = set := Except.ok.inj h
      exact hok fewer rfl
    · intro f h
      cases h

theorem exclude_lists (hreport : ∀ s e span, I s → I (s.reporting e span))
    (ancestors excluded : List DefId) (target : Name) :
    Yields I (l.exclude d ancestors excluded target)
      (Lists (l.excludeNamed d ancestors excluded.toFinset target)) := by
  have warned (e : Problem) : Yields I (do report e none; return excluded)
      (Lists (.ok excluded.toFinset)) :=
    Yields.bind (P := (· = .ok ())) (.report (fun s => hreport s _ _) rfl) (fun _ _ => .pure rfl)
      nofun
  unfold exclude excludeNamed
  cases Failure.settle (l.resolve d.home target (.ofKind d.kind)) with
  | error f => exact .throw rfl
  | ok found =>
    cases found with
    | error e => exact warned _
    | ok p =>
      change Yields I (if ancestors.contains p then pure (p :: excluded) else _)
        (Lists (.ok (if p ∈ ancestors then insert p excluded.toFinset else excluded.toFinset)))
      by_cases hp : p ∈ ancestors
      · rw [if_pos (by simpa using hp), if_pos hp]
        exact .pure (congrArg Except.ok List.toFinset_cons)
      · rw [if_neg (by simpa using hp), if_neg hp]
        exact warned _

theorem foldlM_exclude_lists (hreport : ∀ s e span, I s → I (s.reporting e span))
    (ancestors excluded : List DefId) (targets : List Name) :
    Yields I (targets.foldlM (l.exclude d ancestors) excluded)
      (Lists (targets.foldlM (l.excludeNamed d ancestors) excluded.toFinset)) := by
  induction targets generalizing excluded with
  | nil => exact .pure rfl
  | cons target targets ih =>
    apply Lists.bind (exclude_lists hreport ancestors excluded target)
    · intro fewer hset
      rw [List.foldlM_cons, hset]
      exact ih fewer
    · intro e hset
      rw [List.foldlM_cons, hset]
      rfl

theorem excludeAll_lists (hreport : ∀ s e span, I s → I (s.reporting e span))
    (edits : List Edit) (excluded : List DefId) :
    Yields I (l.excludeAll id d edits excluded)
      (Lists (l.excludeDeleted id d edits excluded.toFinset)) := by
  unfold excludeAll excludeDeleted
  dsimp only
  split
  · exact .pure rfl
  · cases l.ancestors id with
    | error f => exact .throw rfl
    | ok ancestors => exact foldlM_exclude_lists hreport ancestors excluded _

variable {flat : List DefId → Resolving Content} {u : Finset DefId → Except Failure Content}
  {w : Nat → Finset DefId → Except Failure Content}

/-- Edits only ever exclude more, so the content is asked for with at least what was excluded. -/
theorem editFlat_tracks (hreport : ∀ s e span, I s → I (s.reporting e span))
    (excluded : List DefId)
    (h : ∀ fewer : List DefId, excluded ⊆ fewer →
      Yields I (flat fewer) (Tracks (u fewer.toFinset) fun n => w n fewer.toFinset))
    (edits : List Edit) :
    Yields I (l.editFlat flat id edits excluded)
      (Tracks (l.edited u id edits excluded.toFinset)
        fun n => l.edited (w n) id edits excluded.toFinset) := by
  unfold editFlat edited
  split
  · exact h excluded (List.Subset.refl _)
  · apply Yields.tracks (.liftFault (.refl _))
    intro d
    apply Lists.bind (excludeAll_lists hreport edits excluded)
    · intro fewer hset
      have hsub : excluded ⊆ fewer := fun x hx =>
        List.mem_toFinset.1 (subset_of_excludeDeleted hset (List.mem_toFinset.2 hx))
      rw [hset]
      apply Yields.tracks (h fewer hsub)
      intro base
      exact Yields.bind (P := (· = .ok ())) (.reportAll (fun s e => hreport s e none) rfl)
        (fun _ _ => .pure (.refl _)) nofun
    · intro e hset
      rw [hset]
      exact .refl _

variable {flats : DefId → List DefId → Resolving Content} {us : l.ParentContent id}
  {ws : Nat → l.ParentContent id}

theorem foldlM_inherit_tracks (hreport : ∀ s e span, I s → I (s.reporting e span))
    (excluded : List DefId)
    (h : ∀ p hp (fewer : List DefId), excluded ⊆ fewer → Yields I (flats p fewer)
      (Tracks (us p hp fewer.toFinset) fun n => ws n p hp fewer.toFinset))
    (hd : l.definitions.get? id = some d) (edges : List Inheritance)
    (he : edges ⊆ d.edges) (body : Content) :
    Yields I (edges.foldlM (l.inherit d excluded flats) body)
      (Tracks (l.overlayParents hd excluded.toFinset us edges he body)
        fun n => l.overlayParents hd excluded.toFinset (ws n) edges he body) := by
  induction edges generalizing body with
  | nil => exact .pure (.refl _)
  | cons e edges ih =>
    rw [List.foldlM_cons, inherit]
    cases hp : l.parentOf d e with
    | error f =>
      simp only [overlayParents_of_error hd he hp]
      exact .throw (.refl _)
    | ok p =>
      simp only [overlayParents_of_ok hd he hp]
      change Yields I ((do
        checkEdits d e.edits
        if excluded.contains p then pure body
        else
          let inherited ← l.editFlat (flats p) p e.edits excluded
          overlayFor d body inherited) >>= _) _
      rw [bind_assoc]
      apply Yields.tracks (.liftProblem (.refl _))
      intro _
      by_cases hx : p ∈ excluded
      · simp only [List.contains_iff_mem, hx, List.mem_toFinset, if_true, pure_bind]
        exact ih _ body
      · simp only [List.contains_iff_mem, hx, List.mem_toFinset, if_false, bind_assoc]
        apply Yields.tracks (editFlat_tracks hreport excluded (h p _) e.edits)
        intro inherited
        exact Yields.tracks (.liftProblem (.refl _)) fun body => ih _ body

theorem merged_of_none {excluded : Finset DefId} {flat : l.ParentContent id}
    (hd : l.definitions.get? id = none) :
    l.merged id excluded flat = .error (.fault .outsideTable) := by
  unfold merged
  split <;> simp_all

theorem merged_of_some {excluded : Finset DefId} {flat : l.ParentContent id}
    (hd : l.definitions.get? id = some d) :
    l.merged id excluded flat = (do
      let gathered ←
        l.overlayParents hd excluded flat d.edges (List.Subset.refl _) (.empty d.kind)
      overlayFor d gathered d.ownContent) := by
  unfold merged
  split
  · simp_all
  · rename_i d' hd'
    obtain rfl : d' = d := by simp_all
    rfl

theorem gather_tracks (hreport : ∀ s e span, I s → I (s.reporting e span))
    (excluded : List DefId)
    (h : ∀ p hp (fewer : List DefId), excluded ⊆ fewer → Yields I (flats p fewer)
      (Tracks (us p hp fewer.toFinset) fun n => ws n p hp fewer.toFinset))
    (hd : l.definitions.get? id = some d) :
    Yields I (l.gather d excluded flats)
      (Tracks (l.merged id excluded.toFinset us)
        fun n => l.merged id excluded.toFinset (ws n)) := by
  simp only [merged_of_some hd]
  exact Yields.tracks (foldlM_inherit_tracks hreport excluded h hd d.edges _ _)
    fun gathered => .liftProblem (.refl _)

/-! ## What is remembered

All of it is judged against the cache `m` from which resolution started.
-/

variable {m : Cache}

/-- What was remembered at first still is, and all that is remembered of a definition is what a
walk down from it finds, circles apart. -/
structure Faithful (l : Library) (m : Cache) (s : Session) : Prop where
  keeps : ∀ id known, m.get? id = some known → s.cache.get? id = some known
  tracks : ∀ id known, s.cache.get? id = some known →
    Tracks (l.walked m [] id ∅) (fun n => l.unfolded m n id ∅) (known.mapError .refused)

theorem tracks_of_known {path : List DefId} {excluded : Finset DefId} {r : Except Failure Content}
    (hk : known m id excluded = some r) :
    Tracks (l.walked m path id excluded) (fun n => l.unfolded m n id excluded) r where
  settles _ := (walked_of_known hk).symm
  unfolds _ := EndsIn.of_succ ⟨0, fun _ _ => unfolded_of_known hk⟩

theorem known_of_get? {known : Except Problem Content} (h : m.get? id = some known) :
    Library.known m id ∅ = some (known.mapError .refused) := by
  simp [Library.known, h]

theorem known_of_none (excluded : Finset DefId) (h : m.get? id = none) :
    Library.known m id excluded = none := by
  simp [Library.known, h]

theorem Faithful.start (l : Library) (s : Session) : l.Faithful s.cache s where
  keeps _ _ h := h
  tracks _ _ h := tracks_of_known (known_of_get? h)

theorem Faithful.reporting {s : Session} (h : l.Faithful m s) (e : Problem)
    (span : Option Span) : l.Faithful m (s.reporting e span) := ⟨h.keeps, h.tracks⟩

theorem Faithful.remembering {s : Session} (h : l.Faithful m s) {known : Except Problem Content}
    (hm : m.get? id = none)
    (hk : Tracks (l.walked m [] id ∅) (fun n => l.unfolded m n id ∅)
      (known.mapError .refused)) :
    l.Faithful m (s.remembering id known) where
  keeps id' known' hget := by
    rw [Session.get?_remembering, if_neg]
    · exact h.keeps id' known' hget
    · rintro rfl
      simp [hm] at hget
  tracks id' known' hget := by
    rw [Session.get?_remembering] at hget
    split at hget
    · rename_i hid
      obtain rfl : known = known' := Option.some.inj hget
      exact hid ▸ hk
    · exact h.tracks id' known' hget

/-- Nothing is remembered, and `N` holds, or what is remembered satisfies `Q`. -/
def Recalls (N : Prop) (Q : Except Failure Content → Prop)
    (r : Except Failure (Option (Except Problem Content))) : Prop :=
  (r = .ok none ∧ N) ∨ ∃ known, r = .ok (some known) ∧ Q (known.mapError .refused)

/-- Either something faithful is remembered, or nothing was from the start. -/
theorem remembered_faithful (excluded : List DefId) (id : DefId) :
    Yields (l.Faithful m) (remembered excluded id)
      (Recalls (known m id excluded.toFinset = none ∧ (excluded = [] → m.get? id = none))
        (Tracks (l.walked m [] id excluded.toFinset)
          fun n => l.unfolded m n id excluded.toFinset)) := by
  unfold remembered
  split
  · rename_i hx
    obtain rfl := List.isEmpty_iff.1 hx
    apply Yields.remembered
    intro s hs
    cases hk : s.cache.get? id with
    | none =>
      have hm : m.get? id = none := by
        cases hm : m.get? id with
        | none => rfl
        | some known => rw [hs.keeps id known hm] at hk; cases hk
      exact .inl ⟨rfl, known_of_none _ hm, fun _ => hm⟩
    | some known => exact .inr ⟨known, rfl, hs.tracks id known hk⟩
  · rename_i hx
    have hne : excluded ≠ [] := fun h => hx (List.isEmpty_iff.2 h)
    have hset : excluded.toFinset ≠ ∅ := fun h => hne (List.toFinset_eq_empty_iff _ |>.1 h)
    exact .pure (.inl ⟨rfl, if_neg hset, fun h => absurd h hne⟩)

variable {path : List DefId} {excluded : Finset DefId} {r : Except Failure Content}

/-- A walk finds nothing else when more is behind it, unless it closes a circle then. -/
theorem tracks_of_root (hpath : l.Stored path)
    (h : Tracks (l.walked m [] id excluded) (fun n => l.unfolded m n id excluded) r) :
    Tracks (l.walked m path id excluded) (fun n => l.unfolded m n id excluded) r where
  settles hc := by
    have hroot := walked_settles_of_subset hpath (List.nil_subset path) hc
    rw [← hroot] at hc ⊢
    exact h.settles hc
  unfolds := h.unfolds

/-- Content found on a walk is what a walk from its definition finds, unless that one closes a
circle. -/
theorem tracks_root (hr : ¬ IsCircular r)
    (h : Tracks (l.walked m path id excluded) (fun n => l.unfolded m n id excluded) r) :
    Tracks (l.walked m [] id excluded) (fun n => l.unfolded m n id excluded) r where
  settles hc :=
    have hroot : EndsIn (fun n => l.unfolded m n id excluded) (l.walked m [] id excluded) :=
      ⟨_, fun _ hn => walked_settles_unfolded (by simp [Stored]) hn hc⟩
    (h.unfolds hr).unique hroot
  unfolds := h.unfolds

/-- One definition further down: what tracks its parents tracks it. -/
theorem tracks_step (hk : known m id excluded = none) (hid : id ∉ path)
    (h : Tracks (l.merged id excluded fun p _ => l.walked m (id :: path) p)
      (fun n => l.merged id excluded fun p _ => l.unfolded m n p) r) :
    Tracks (l.walked m path id excluded) (fun n => l.unfolded m n id excluded) r where
  settles := by
    rw [walked_of_not_mem hk hid]
    exact h.settles
  unfolds hc := by
    apply EndsIn.of_succ
    simp only [unfolded_succ hk]
    exact h.unfolds hc

/-- One step of a walk with memory: what is remembered is taken, a definition on the path closes a
circle, and the content gathered for any other is remembered if it leaves nothing out. -/
theorem descend_yields {I : Session → Prop} {N : Prop} {Q : Except Failure Content → Prop}
    {path excluded : List DefId} (hknown : Yields I (remembered excluded id) (Recalls N Q))
    (hcircle : N → id ∈ path →
      ∃ texts, l.cycle path id = .ok (.circular texts) ∧ Q (.error (.refused (.circular texts))))
    (houtside : N → id ∉ path → l.definitions.get? id = none → Q (.error (.fault .outsideTable)))
    (hgather : N → id ∉ path → ∀ d, l.definitions.get? id = some d →
      Yields I (l.gather d excluded fun p ex => l.descend (id :: path) p ex) Q)
    (hremember : N → excluded = [] → ∀ s b, I s → Q (.ok b) → I (s.remembering id (.ok b))) :
    Yields I (l.descend path id excluded) Q := by
  rw [descend]
  refine hknown.bind (fun found hfound => ?_) (by simp [Recalls])
  rcases hfound with ⟨hfound, hN⟩ | ⟨known, hfound, hQ⟩ <;> obtain rfl := Except.ok.inj hfound
  · by_cases hid : id ∈ path
    · obtain ⟨texts, htexts, hQ⟩ := hcircle hN hid
      simp only [hid, dif_pos, htexts]
      exact .refuse hQ
    · simp only [hid, dif_neg, not_false_eq_true]
      split
      · rename_i hd
        exact .throw (houtside hN hid hd)
      · rename_i d hd
        refine (hgather hN hid d hd).bind (fun body hbody => ?_) fun e he => he
        split
        · rename_i hx
          exact Yields.bind (P := (· = .ok ()))
            (.remember (fun s hs => hremember hN (List.isEmpty_iff.1 hx) s body hs hbody) rfl)
            (fun _ _ => .pure hbody) fun e he => by cases he
        · exact .pure hbody
  · exact .liftProblem hQ

/-- What is remembered is taken. Else a fault of the walk is passed on, and an error is remembered
for the definition asked for. -/
theorem content_yields {I : Session → Prop} {N : Prop} {Q : Except Failure Content → Prop}
    (hknown : Yields I (remembered [] id) (Recalls N Q))
    (hdescend : Yields I (l.descend [] id []) Q)
    (hfail : N → ∀ s e, I s → Q (.error (.refused e)) → I (s.remembering id (.error e))) :
    Yields I (l.content id) Q := by
  refine Yields.bind hknown (fun found hfound => ?_) (by simp [Recalls])
  rcases hfound with ⟨hfound, hN⟩ | ⟨known, hfound, hQ⟩ <;> obtain rfl := Except.ok.inj hfound
  · refine Yields.bind (P := fun r => Q (r >>= fun found => found.mapError .refused)) ?_
      (fun found hfound => ?_) fun e he => he
    · exact hdescend.attempt (fun b h => h) (fun e h => h) fun f h => h
    · cases found with
      | ok body => exact .pure hfound
      | error e =>
        exact Yields.bind (P := (· = .ok ()))
          (.remember (fun s hs => hfail hN s e hs hfound) rfl) (fun _ _ => .refuse hfound)
          fun e he => by cases he
  · exact .liftProblem hQ

/-- A walk with memory, started where all that is remembered is faithful, tracks the walk without,
and what it remembers is faithful. -/
theorem descend_tracks {path : List DefId} (hpath : l.Stored path) (id : DefId)
    (excluded : List DefId) :
    Yields (l.Faithful m) (l.descend path id excluded)
      (Tracks (l.walked m path id excluded.toFinset)
        fun n => l.unfolded m n id excluded.toFinset) := by
  apply descend_yields
  · exact (remembered_faithful excluded id).mono fun r hr =>
      hr.imp_right (Exists.imp fun known => And.imp_right (tracks_of_root hpath))
  · rintro ⟨hk, -⟩ hid
    obtain ⟨texts, htexts⟩ := cycle_of_mem hpath hid
    rw [walked_of_mem hk hid, htexts]
    exact ⟨texts, rfl, .refl _, fun hc => absurd ⟨texts, rfl⟩ hc⟩
  · rintro ⟨hk, -⟩ hid hd
    exact tracks_step hk hid (by simp only [merged_of_none hd]; exact .refl _)
  · rintro ⟨hk, -⟩ hid d hd
    have below (p : DefId) (hp : l.Inherits id p) (fewer : List DefId) (_ : excluded ⊆ fewer) :=
      have := Arena.unvisited_cons_lt hd hid
      descend_tracks (hpath.cons hp) p fewer
    exact (gather_tracks (fun s e span h => h.reporting e span) excluded below hd).mono
      fun r hr => tracks_step hk hid hr
  · rintro ⟨-, hm⟩ rfl s b hs hb
    exact hs.remembering (hm rfl) (tracks_root not_isCircular_ok hb)
termination_by l.definitions.unvisited path

theorem stored_nil : l.Stored [] := by simp [Stored]

theorem content_tracks (id : DefId) :
    Yields (l.Faithful m) (l.content id)
      (Tracks (l.walked m [] id ∅) fun n => l.unfolded m n id ∅) :=
  content_yields (remembered_faithful [] id) (descend_tracks stored_nil id [])
    fun hnew _ _ hs he => hs.remembering (hnew.2 rfl) he

theorem contentWithout_tracks (id : DefId) (excluded : List DefId) :
    Yields (l.Faithful m) (l.contentWithout id excluded)
      (Tracks (l.walked m [] id excluded.toFinset)
        fun n => l.unfolded m n id excluded.toFinset) := by
  unfold contentWithout
  split
  · rename_i hx
    obtain rfl := List.isEmpty_iff.1 hx
    exact content_tracks id
  · exact descend_tracks stored_nil id excluded

/-- The content of a definition after edits that it has to allow; `flat` gives its content. -/
def allowedEdited (l : Library) (flat : Finset DefId → Except Failure Content) (id : DefId)
    (edits : List Edit) : Except Failure Content := do
  checkEdits (← l.find id) edits
  l.edited flat id edits ∅

theorem contentEdited_tracks (id : DefId) (edits : List Edit) :
    Yields (l.Faithful m) (l.contentEdited id edits)
      (Tracks (l.allowedEdited (l.walked m [] id) id edits)
        fun n => l.allowedEdited (l.unfolded m n id) id edits) := by
  unfold contentEdited allowedEdited
  apply Yields.tracks (.liftFault (.refl _))
  intro d
  apply Yields.tracks (.liftProblem (.refl _))
  intro _
  exact editFlat_tracks (fun s e span h => h.reporting e span) []
    (fun fewer _ => descend_tracks stored_nil id fewer) edits

end Library
end Stencil
