import Stencil.Proofs.Termination

/-! # Content of different kinds never meets

A definition has content of its kind and inherits from definitions of its kind only. So the walk down
the inheritance never lays content over content of another kind, and it does not matter what would
happen then.
-/
namespace Stencil

theorem Content.exists_overlay {b later : Content} (h : b.kind = later.kind) :
    ∃ r, b.overlay later = some r := by
  cases b <;> cases later <;> simp_all [overlay, kind]

theorem Definition.kind_ownContent (d : Definition) : d.ownContent.kind = d.body.kind := by
  unfold ownContent
  cases d.body <;> rfl

/-! ## Resolutions that run alike -/

namespace Resolving

variable {α β : Type} {I : Session → Prop}

/-- From a session that satisfies `I` the resolutions run alike. What they give satisfies `P`, and `I`
holds afterwards. -/
def Alike (I : Session → Prop) (x y : Resolving α) (P : α → Prop) : Prop :=
  Gives I x P ∧ ∀ s, I s → y.run s = x.run s

namespace Alike

variable {x y : Resolving α} {f g : α → Resolving β} {P P' : α → Prop} {Q : β → Prop}

theorem of_gives (h : Gives I x P) : Alike I x x P := ⟨h, fun _ _ => rfl⟩

theorem mono (h : Alike I x y P) (hP : ∀ a, P a → P' a) : Alike I x y P' := ⟨h.1.mono hP, h.2⟩

theorem bind (hx : Alike I x y P) (hf : ∀ a, P a → Alike I (f a) (g a) Q) :
    Alike I (x >>= f) (y >>= g) Q := by
  refine ⟨hx.1.bind fun a ha => (hf a ha).1, fun s hs => ?_⟩
  obtain ⟨hP, hI⟩ := hx.1 s hs
  have hsame : y.outcome s = x.outcome s ∧ y.after s = x.after s := by
    rw [outcome, after, hx.2 s hs]
    exact ⟨rfl, rfl⟩
  rw [run_bind, run_bind, hsame.1, hsame.2]
  cases h : x.outcome s with
  | error e => rfl
  | ok a => exact (hf a (hP a h)).2 _ hI

theorem foldlM {f g : β → α → Resolving β} {as : List α}
    (hf : ∀ b, ∀ a ∈ as, Q b → Alike I (f b a) (g b a) Q) {b : β} (hb : Q b) :
    Alike I (as.foldlM f b) (as.foldlM g b) Q := by
  induction as generalizing b with
  | nil => exact .of_gives (.pure hb)
  | cons a as ih =>
    rw [List.foldlM_cons, List.foldlM_cons]
    apply (hf b a List.mem_cons_self hb).bind
    exact fun b hb => ih (fun b a ha => hf b a (List.mem_cons_of_mem _ ha)) hb

end Alike
end Resolving

open Resolving

/-! ## The walk with something else in place of the mismatch -/

namespace Library

/-- Lays content over what was gathered, with `instead` for content of another kind. -/
def overlayOr (instead : Content → Content → Resolving Content) (gathered later : Content) :
    Resolving Content :=
  match gathered.overlay later with
  | some b => return b
  | none => instead gathered later

def inheritOr (l : Library) (instead : Definition → Content → Content → Resolving Content)
    (d : Definition) (excluded : List DefId)
    (flat : DefId → List DefId → Resolving Content) (gathered : Content) (e : Inheritance) :
    Resolving Content := do
  let parent ← l.parentOf d e
  checkEdits d e.edits
  if excluded.contains parent then return gathered
  let inherited ← l.editFlat (flat parent) parent e.edits excluded
  overlayOr (instead d) gathered inherited

def gatherOr (l : Library) (instead : Definition → Content → Content → Resolving Content)
    (d : Definition) (excluded : List DefId)
    (flat : DefId → List DefId → Resolving Content) : Resolving Content := do
  let gathered ← d.edges.foldlM (l.inheritOr instead d excluded flat) (.empty d.kind)
  overlayOr (instead d) gathered d.ownContent

/-- The walk down the inheritance, with `instead` wherever content meets content of another kind. -/
def descendOr (l : Library) (instead : Definition → Content → Content → Resolving Content)
    (path : List DefId) (id : DefId) (excluded : List DefId) : Resolving Content := do
  match ← remembered excluded id with
  | some known => known
  | none =>
    if h : id ∈ path then Resolving.refuse (← l.cycle path id)
    else
      match hd : l.definitions.get? id with
      | none => throw (.fault .outsideTable)
      | some d =>
        have := Arena.unvisited_cons_lt hd h
        let body ← l.gatherOr instead d excluded fun parent ex =>
          l.descendOr instead (id :: path) parent ex
        if excluded.isEmpty then Resolving.remember id (.ok body)
        return body
termination_by l.definitions.unvisited path
decreasing_by assumption

/-- The error that stands there in the walk. -/
def mismatch (d : Definition) (_ later : Content) : Resolving Content :=
  Resolving.refuse (.wrongKind d.identity.render d.kind.keyword later.kind.keyword)

variable {l : Library} {instead : Definition → Content → Content → Resolving Content}

theorem overlayOr_mismatch (d : Definition) (gathered later : Content) :
    overlayOr (mismatch d) gathered later = liftM (overlayFor d gathered later) := by
  unfold overlayOr overlayFor
  cases gathered.overlay later <;> rfl

theorem gatherOr_mismatch (d : Definition) (excluded : List DefId)
    (flat : DefId → List DefId → Resolving Content) :
    l.gatherOr mismatch d excluded flat = l.gather d excluded flat := by
  have hinherit : l.inheritOr mismatch d excluded flat = l.inherit d excluded flat := by
    funext gathered e
    simp only [inheritOr, overlayOr_mismatch]
    rfl
  simp only [gatherOr, hinherit, overlayOr_mismatch]
  rfl

/-- One step of the walk, with the content of the definition gathered by `gather`. -/
def stepBy (l : Library)
    (gather : Definition → List DefId → (DefId → List DefId → Resolving Content) → Resolving Content)
    (f : List DefId → DefId → List DefId → Resolving Content) (path : List DefId) (id : DefId)
    (excluded : List DefId) : Resolving Content := do
  match ← remembered excluded id with
  | some known => known
  | none =>
    if id ∈ path then Resolving.refuse (← l.cycle path id)
    else
      match l.definitions.get? id with
      | none => throw (.fault .outsideTable)
      | some d =>
        let body ← gather d excluded (f (id :: path))
        if excluded.isEmpty then Resolving.remember id (.ok body)
        return body

theorem descend_eq_stepBy (path : List DefId) :
    l.descend path = l.stepBy l.gather l.descend path :=
  l.descend_eq path

theorem descendOr_eq (path : List DefId) :
    l.descendOr instead path = l.stepBy (l.gatherOr instead) (l.descendOr instead) path := by
  funext id excluded
  rw [descendOr, stepBy]
  congr 1
  funext known
  cases known with
  | some known => rfl
  | none =>
    by_cases hmem : id ∈ path
    · simp only [hmem, dif_pos, if_pos]
    · simp only [hmem, dif_neg, if_neg, not_false_eq_true]
      split <;> rename_i hd <;> simp only [hd]

/-- With the error in its place, that is the walk itself. -/
theorem descendOr_mismatch (path : List DefId) : l.descendOr mismatch path = l.descend path := by
  funext id excluded
  rw [descendOr_eq, descend_eq_stepBy, stepBy, stepBy]
  congr 1
  funext known
  cases known with
  | some known => rfl
  | none =>
    by_cases hmem : id ∈ path
    · simp only [hmem, if_pos]
    · simp only [hmem, if_neg, not_false_eq_true]
      cases hd : l.definitions.get? id with
      | none => rfl
      | some d =>
        have := Arena.unvisited_cons_lt hd hmem
        simp only [descendOr_mismatch (id :: path), gatherOr_mismatch]
termination_by l.definitions.unvisited path

/-! ## Definitions of one kind -/

/-- A definition has content of its kind and inherits from definitions of its kind. -/
def Uniform (l : Library) : Prop :=
  l.definitions.All fun _ d => d.body.kind = d.kind ∧
    ∀ e ∈ d.edges, ∀ p, l.parentOf d e = .ok p →
      ∃ d', l.definitions.get? p = some d' ∧ d'.kind = d.kind

variable {I : Session → Prop} {d : Definition}

/-- What a parent gives has the kind of the heir. -/
theorem Uniform.kind_eq (h : l.Uniform) {id p : DefId} (hd : l.definitions.get? id = some d)
    (hp : l.Inherits id p) {b : Content} (hb : l.HasKind p b) : b.kind = d.kind := by
  obtain ⟨d', hd', e, he, hp⟩ := hp
  obtain rfl := Option.some.inj (hd.symm.trans hd')
  obtain ⟨d', hd', hkind⟩ := (h id d hd).2 e he p hp
  obtain ⟨d'', hd'', hb⟩ := hb
  obtain rfl := Option.some.inj (hd'.symm.trans hd'')
  exact hb.trans hkind

theorem overlayOr_alike {gathered later : Content} (hgathered : gathered.kind = d.kind)
    (hlater : later.kind = d.kind) :
    Alike I (liftM (overlayFor d gathered later)) (overlayOr (instead d) gathered later)
      fun b => b.kind = d.kind := by
  obtain ⟨b, hb⟩ := Content.exists_overlay (hgathered.trans hlater.symm)
  have hkind : b.kind = d.kind := (Content.kind_overlay hb).trans hgathered
  simp only [overlayFor, overlayOr, hb]
  exact .of_gives (.pure hkind)

theorem editFlat_alike (hreport : ∀ s e span, I s → I (s.reporting e span))
    {flat flat' : List DefId → Resolving Content} {P : Kind → Prop} {id : DefId}
    (hflat : ∀ excluded, Alike I (flat excluded) (flat' excluded) fun b => P b.kind)
    (edits : List Edit) (excluded : List DefId) :
    Alike I (l.editFlat flat id edits excluded) (l.editFlat flat' id edits excluded)
      fun b => P b.kind := by
  unfold editFlat
  split
  · exact hflat excluded
  · apply (Alike.of_gives (Keeps.liftFault _)).bind
    intro d _
    apply (Alike.of_gives (Keeps.of_yields (excludeAll_lists hreport edits excluded))).bind
    intro fewer _
    apply (hflat fewer).bind
    intro base hbase
    apply (Alike.of_gives (Keeps.reportAll hreport)).bind
    intro _ _
    apply Alike.of_gives
    apply Gives.pure
    rw [Edit.kind_applyAll]
    exact hbase

theorem inheritOr_alike (hreport : ∀ s e span, I s → I (s.reporting e span))
    {flat flat' : DefId → List DefId → Resolving Content} {e : Inheritance}
    (hflat : ∀ p excluded, l.parentOf d e = .ok p →
      Alike I (flat p excluded) (flat' p excluded) fun b => b.kind = d.kind)
    (excluded : List DefId) {gathered : Content} (hkind : gathered.kind = d.kind) :
    Alike I (l.inherit d excluded flat gathered e) (l.inheritOr instead d excluded flat' gathered e)
      fun b => b.kind = d.kind := by
  apply Alike.bind (P := fun p => l.parentOf d e = .ok p)
  · exact .of_gives (.lift fun _ h => h)
  · intro p hp
    apply (Alike.of_gives (Keeps.liftProblem _)).bind
    intro _ _
    split
    · exact .of_gives (.pure hkind)
    · apply (editFlat_alike (P := (· = d.kind)) hreport (fun ex => hflat p ex hp) e.edits
        excluded).bind
      exact fun inherited hinherited => overlayOr_alike hkind hinherited

theorem gatherOr_alike (hreport : ∀ s e span, I s → I (s.reporting e span))
    {flat flat' : DefId → List DefId → Resolving Content} (hbody : d.body.kind = d.kind)
    (hflat : ∀ e ∈ d.edges, ∀ p excluded, l.parentOf d e = .ok p →
      Alike I (flat p excluded) (flat' p excluded) fun b => b.kind = d.kind)
    (excluded : List DefId) :
    Alike I (l.gather d excluded flat) (l.gatherOr instead d excluded flat')
      fun b => b.kind = d.kind := by
  apply Alike.bind (P := fun gathered => gathered.kind = d.kind)
  · apply Alike.foldlM
    · exact fun gathered e he hkind => inheritOr_alike hreport (hflat e he) excluded hkind
    · exact Content.kind_empty d.kind
  · exact fun gathered hkind => overlayOr_alike hkind (d.kind_ownContent.trans hbody)

/-- Among definitions of one kind the walk is the same whatever stands in place of the mismatch. -/
theorem Uniform.descendOr_alike (h : l.Uniform)
    (instead : Definition → Content → Content → Resolving Content) (path : List DefId) (id : DefId)
    (excluded : List DefId) :
    Alike l.Kinded (l.descend path id excluded) (l.descendOr instead path id excluded)
      (l.HasKind id) := by
  have hwalks := l.walks_kinded
  rw [descend_eq_stepBy, descendOr_eq, stepBy, stepBy]
  apply (Alike.of_gives (remembered_gives hwalks excluded id)).bind
  intro known hknown
  cases known with
  | some known =>
    apply Alike.of_gives
    apply Gives.liftProblem
    exact fun b hb => hknown b (congrArg some hb)
  | none =>
    by_cases hmem : id ∈ path
    · simp only [hmem, if_pos]
      exact .of_gives ((Keeps.liftFault _).bind fun e _ => .refuse e)
    · simp only [hmem, if_neg, not_false_eq_true]
      cases hd : l.definitions.get? id with
      | none => exact .of_gives (.throw _)
      | some d =>
        have hbody := (h id d hd).1
        have := Arena.unvisited_cons_lt hd hmem
        apply (gatherOr_alike hwalks.report hbody (fun e he p ex hp => ?_) excluded).bind
        · intro body hkind
          have hbody : l.HasKind id body := ⟨d, hd, hkind⟩
          apply Alike.of_gives
          split
          · have hkeeps := Keeps.remember fun s hs => hwalks.remember s id body hs trivial hbody
            exact hkeeps.bind fun _ _ => .pure hbody
          · exact .pure hbody
        · apply (h.descendOr_alike instead (id :: path) p ex).mono
          exact fun b hb => h.kind_eq hd ⟨d, hd, e, he, hp⟩ hb
termination_by l.definitions.unvisited path

end Library

/-! ## Kinds of what names mean -/

/-- What a use expects of the kind, a name cannot change. -/
theorem Name.kind_of_combine {n : Name} {expected c : Category} {k : Kind}
    (h : n.combine expected = .ok c) (hk : expected.kind = some k) : c.kind = some k := by
  obtain ⟨origin, -, h⟩ := Except.bind_eq_ok h
  obtain ⟨kind, hkind, h⟩ := Except.bind_eq_ok h
  obtain rfl := Except.ok.inj h
  rw [hk] at hkind
  unfold combinePart at hkind
  cases hsaid : n.kind with
  | none =>
    rw [hsaid] at hkind
    exact (Except.ok.inj hkind).symm
  | some said =>
    simp only [hsaid] at hkind
    split at hkind
    · rename_i heq
      rw [← Except.ok.inj hkind, heq]
    · cases hkind

theorem Category.kind_of_covers {c : Category} {identity : Identity} {k : Kind}
    (h : c.covers identity = true) (hk : c.kind = some k) : identity.kind = k := by
  simp only [covers, admits, hk, Option.all_some, Bool.and_eq_true, beq_iff_eq] at h
  exact h.2.symm

/-- In a definition, a name that is used for a kind of group means a group of that kind. -/
def Library.Discerning (l : Library) : Prop :=
  l.definitions.All fun _ d => ∀ n k used, l.resolve d.home n (.ofKind k) = .ok used →
    ∃ d', l.definitions.get? used = some d' ∧ d'.kind = k

namespace Compilation

variable {c : Compilation}

theorem Filed.covers_of_offers (hc : c.Filed) {category : Category} {id : DefId}
    (h : c.library.Offers category id) :
    ∃ d, c.definitions.get? id = some d ∧ category.covers d.identity = true := by
  rcases h with ⟨ns, n, identity, hn, hid, hcovers⟩ | ⟨ns, n, name, d, -, -, hd, hcovers⟩
  · obtain ⟨d, hd, rfl, -⟩ := hc ns n hn identity id hid
    exact ⟨d, hd, hcovers⟩
  · exact ⟨d, hd, hcovers⟩

theorem Intact.discerning (hc : c.Intact) (hfiled : c.Filed) : c.library.Discerning := by
  intro id d hd n k used hused
  rcases hc.toClosed.library.answers_resolve n (.ofKind k) (hc.definitions id d hd).1 with
    ⟨used', hused', category, hcombine, hoffers⟩ | ⟨problem, hrefused⟩
  · obtain rfl := Except.ok.inj (hused.symm.trans hused')
    obtain ⟨d', hd', hcovers⟩ := hfiled.covers_of_offers hoffers
    exact ⟨d', hd', Category.kind_of_covers hcovers (Name.kind_of_combine hcombine rfl)⟩
  · cases hused.symm.trans hrefused

theorem Intact.uniform (hc : c.Intact) (hfiled : c.Filed) : c.library.Uniform := fun id d hd =>
  ⟨hc.kinds id d hd, fun e _ => hc.discerning hfiled id d hd e.target d.kind⟩

end Compilation
end Stencil
