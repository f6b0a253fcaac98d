import Stencil.Proofs.Following
import Stencil.Proofs.Heir
import Stencil.Proofs.Reachable

/-! # Where inherited names are looked up

All names in the content of an instance are looked up from the namespace of the definition that is
instantiated, also those that were written in another definition and inherited. An heir that adds
nothing of its own therefore has the instance of its parent if the names mean the same from both
namespaces.
-/
namespace Stencil

open Resolving

namespace Library

variable {l : Library}

/-- The definition that a name means from a namespace, if it means one. -/
def meaning (l : Library) (start : NamespaceId) (n : Name) (expected : Category) :
    Except Fault (Option DefId) :=
  (Failure.settle (l.resolve start n expected)).map Except.toOption

theorem resolve_of_meaning {ns ns' : NamespaceId} {n : Name} {c : Category} {id : DefId}
    (h : l.meaning ns n c = l.meaning ns' n c) (hid : l.resolve ns n c = .ok id) :
    l.resolve ns' n c = .ok id := by
  unfold meaning at h
  rw [hid] at h
  rcases hr : l.resolve ns' n c with (e | f) | id' <;> rw [hr] at h <;> cases h
  rfl

/-- Every use and every reference that content mentions means the same from both namespaces. -/
def MeansAlike (l : Library) (ns ns' : NamespaceId) (b : Content) : Prop :=
  (∀ p ∈ b.usages,
    l.meaning ns p.2.name (.ofKind p.1) = l.meaning ns' p.2.name (.ofKind p.1)) ∧
  ∀ v ∈ b.values, ∀ r ∈ Reference.findAll v,
    l.meaning ns (.ofKind .var r.1.group) .any = l.meaning ns' (.ofKind .var r.1.group) .any

instance (l : Library) (ns ns' : NamespaceId) (b : Content) : Decidable (l.MeansAlike ns ns' b) :=
  inferInstanceAs (Decidable (_ ∧ _))

theorem MeansAlike.refl (l : Library) (ns : NamespaceId) (b : Content) : l.MeansAlike ns ns b :=
  ⟨fun _ _ => rfl, fun _ _ _ _ => rfl⟩

theorem walks_growing (l : Library) (ds : Diagnostics) :
    l.Walks (fun s => ds <+: s.diagnostics) (fun _ => True) fun _ _ => True where
  report := reporting_grows ds
  inherits _ _ _ _ := trivial
  made _ _ _ := trivial
  recalled _ _ _ _ _ := trivial
  remember _ _ _ h _ _ := h
  fail _ _ _ h _ := h

theorem leads_of_couples {α : Type} {R : Session → Session → Prop} {x : Resolving α}
    (hgrows : Grows x) (h : Couples R x) : Leads R x x where
  grows := hgrows
  follows s t _ hR hq := ⟨(h s t hR).1 ▸ hq.1, (h s t hR).2⟩

/-- Content that is looked up quietly is found as well from a related session. -/
structure Led (l : Library) (R : Session → Session → Prop) : Prop where
  content : ∀ id, Leads R (l.content id) (l.content id)
  edited : ∀ id edits, Leads R (l.contentEdited id edits) (l.contentEdited id edits)

theorem led_eq (l : Library) : l.Led Eq where
  content id := leads_of_couples (fun ds => (l.walks_growing ds).respects.content id)
    fun _ _ hst => hst ▸ ⟨rfl, rfl⟩
  edited id edits := leads_of_couples (fun ds => (l.walks_growing ds).respects.edited id edits)
    fun _ _ hst => hst ▸ ⟨rfl, rfl⟩

theorem Heir.led {heir parent : DefId} {d d' : Definition} {raw : Content}
    (h : l.Heir heir d parent d') (hheir : ¬ Relation.TransGen l.Inherits heir heir)
    (hkind : raw.kind = d.kind) : l.Led (Agree heir parent raw) where
  content id := leads_of_couples (fun ds => (l.walks_growing ds).respects.content id)
    (h.content_couples hheir hkind id)
  edited id edits := leads_of_couples (fun ds => (l.walks_growing ds).respects.edited id edits)
    (h.contentEdited_couples hheir hkind id edits)

end Library

theorem Reference.mem_located {r : Reference} {source : List Char} {pieces : List ValuePiece}
    (h : .reference r source ∈ pieces) (start : Nat) : ∃ p ∈ located start pieces, p.1 = r := by
  induction pieces generalizing start with
  | nil => simp at h
  | cons piece pieces ih =>
    rcases List.mem_cons.1 h with rfl | h
    · exact ⟨_, List.mem_cons_self, rfl⟩
    · obtain ⟨p, hp, rfl⟩ := ih h (start + Text.byteLength piece.source)
      cases piece with
      | plain text => exact ⟨p, hp, rfl⟩
      | reference r' source' => exact ⟨p, List.mem_cons_of_mem _ hp, rfl⟩

namespace Environment

variable {env : Environment} {site : UseSite} {ns ns' : NamespaceId}
  {R : Session → Session → Prop}

theorem valueIn_leads (hl : env.library.Led R) (id : DefId) (group : Name) (key : String) (override : Option String) :
    Leads R (env.valueIn id group key override)
      (env.valueIn id group key override) := by
  apply (hl.content id).bind
  intro body
  split
  · exact .throw _ _
  · exact .pure _

theorem referenceValue_leads (hl : env.library.Led R) {r : Reference}
    (h : env.library.meaning ns (.ofKind .var r.group) .any =
      env.library.meaning ns' (.ofKind .var r.group) .any) :
    Leads R (env.referenceValue site ns r) (env.referenceValue site ns' r) := by
  have hinner (id : DefId) : Leads R
      (do env.checkUseOf site id
          env.valueIn id (.ofKind .var r.group) r.key r.override)
      (do env.checkUseOf site id
          env.valueIn id (.ofKind .var r.group) r.key r.override) := by
    apply (Leads.lift fun _ h => h).bind
    exact fun _ => valueIn_leads hl id _ _ _
  unfold referenceValue
  dsimp only
  unfold Library.meaning at h
  rcases hr : env.library.resolve ns (.ofKind .var r.group) .any with (e | f) | id
  · rcases hr' : env.library.resolve ns' (.ofKind .var r.group) .any with (e' | f') | id' <;>
      rw [hr, hr'] at h <;> cases h
    exact .pure none
  · exact .throw (.fault f) _
  · rcases hr' : env.library.resolve ns' (.ofKind .var r.group) .any with (e' | f') | id' <;>
      rw [hr, hr'] at h <;> cases h
    exact (hinner id).orReport none (fun _ => rfl) fun _ => rfl

theorem fillIn_leads (hl : env.library.Led R) {text : String}
    (h : ∀ r ∈ Reference.findAll text, env.library.meaning ns (.ofKind .var r.1.group) .any =
      env.library.meaning ns' (.ofKind .var r.1.group) .any) :
    Leads R (env.fillIn site ns text) (env.fillIn site ns' text) := by
  apply Leads.bind
  · apply Leads.mapM
    intro piece hpiece
    cases piece with
    | plain text => exact .pure _
    | reference r source =>
      obtain ⟨p, hp, rfl⟩ := Reference.mem_located hpiece 0
      apply (referenceValue_leads hl (h p hp)).bind
      intro value
      cases value <;> exact .pure _
  · exact fun pieces => .pure _

theorem usageContent_leads {build build' : DefId → List Edit → Resolving Content}
    (hbuild : ∀ id edits, Leads R (build id edits) (build' id edits)) {k : Kind}
    {u : Usage}
    (h : env.library.meaning ns u.name (.ofKind k) = env.library.meaning ns' u.name (.ofKind k)) :
    Leads R (env.usageContent site ns build k u)
      (env.usageContent site ns' build' k u) := by
  refine Leads.orReport ?_ u.span (fun _ => rfl) fun _ => rfl
  apply (Leads.lift fun id hid => Library.resolve_of_meaning h hid).bind
  intro id
  apply (Leads.lift fun _ h => h).bind
  exact fun _ => hbuild id u.edits

/-- Content is expanded to the same from two namespaces from which all it mentions means the
same. -/
theorem expansion_leads (hl : env.library.Led R)
    {build build' : DefId → List Edit → Resolving Content}
    (hbuild : ∀ id edits, Leads R (build id edits) (build' id edits))
    {b : Content} (h : env.library.MeansAlike ns ns' b) :
    Leads R ((env.expansion site ns build).inlineContent b)
      ((env.expansion site ns' build').inlineContent b) := by
  apply Expansion.inlineContent_leads
  · exact fun p hp => usageContent_leads hbuild (h.1 p hp)
  · exact fun v hv => fillIn_leads hl (h.2 v hv)

end Environment

theorem Content.dropUnfilled_fst (b : Content) (target target' : String) :
    (b.dropUnfilled target).1 = (b.dropUnfilled target').1 := by
  cases b <;> rfl

theorem Content.dropUnfilled_snd {b : Content} {target : String} (target' : String)
    (h : (b.dropUnfilled target).2 = []) : (b.dropUnfilled target').2 = [] := by
  cases b with
  | style s => exact List.map_eq_nil_iff.2 (List.map_eq_nil_iff.1 h)
  | element nodes => rfl
  | var v => rfl

theorem Library.MeansAlike.dropUnfilled {l : Library} {ns ns' : NamespaceId} {b : Content}
    (h : l.MeansAlike ns ns' b) (target : String) :
    l.MeansAlike ns ns' (b.dropUnfilled target).1 := by
  cases b with
  | style s =>
    refine ⟨h.1, fun v hv => h.2 v ?_⟩
    obtain ⟨e, he, hev⟩ := List.mem_filterMap.1 hv
    exact List.mem_filterMap.2 ⟨e, (StyleContent.mem_foldl_erase he).1, hev⟩
  | element nodes => exact h
  | var v => exact h

namespace Environment

variable {env : Environment} {site : UseSite} {R : Session → Session → Prop}

theorem finish_leads (hl : env.library.Led R) {d d' : Definition}
    {build build' : DefId → List Edit → Resolving Content}
    (hbuild : ∀ id edits, Leads R (build id edits) (build' id edits))
    {raw : Content} (h : env.library.MeansAlike d.home d'.home raw) :
    Leads R (env.finish site d build raw) (env.finish site d' build' raw) := by
  apply (Leads.reportAll (Content.dropUnfilled_snd d'.identity.render)).bind
  intro _
  rw [Content.dropUnfilled_fst raw d'.identity.render d.identity.render]
  apply (Leads.lift fun _ h => h).bind
  exact fun _ => expansion_leads hl hbuild (h.dropUnfilled _)

/-- An instance that is built quietly is built as well with less around it. -/
theorem build_leads (hl : env.library.Led R) {expanding fewer : List DefId} (hsub : fewer ⊆ expanding) (id : DefId)
    (edits : List Edit) :
    Leads R (env.build site expanding id edits)
      (env.build site fewer id edits) := by
  rw [build, build]
  by_cases hid : id ∈ expanding
  · simp only [hid, dif_pos]
    cases env.library.cycle expanding id with
    | error f => exact .throw (.fault f) _
    | ok e => exact .throw (.refused e) _
  · have hid' : id ∉ fewer := fun h => hid (hsub h)
    simp only [hid, hid', dif_neg, not_false_eq_true]
    split
    · exact .throw _ _
    · rename_i d hd
      rw [assemble_eq, assemble_eq]
      apply (hl.edited id edits).bind
      intro raw
      apply finish_leads hl _ (.refl _ _ raw)
      intro used edits
      have := Arena.unvisited_cons_lt hd hid
      exact build_leads hl (List.cons_subset_cons id hsub) used edits
termination_by env.library.definitions.unvisited expanding

theorem build_of_stored {expanding : List DefId} {id : DefId} {d : Definition}
    (hid : id ∉ expanding) (hd : env.library.definitions.get? id = some d) (edits : List Edit) :
    env.build site expanding id edits =
      env.library.contentEdited id edits >>= env.finish site d fun used edits =>
        env.build site (id :: expanding) used edits := by
  rw [build]
  simp only [hid, dif_neg, not_false_eq_true]
  split
  · rename_i hnone
    cases hd.symm.trans hnone
  · rename_i d' hd'
    cases hd.symm.trans hd'
    rfl

theorem finish_grows (d : Definition) (expanding : List DefId) (raw : Content) :
    Grows (env.finish site d (fun used edits => env.build site expanding used edits) raw) := by
  intro ds
  have hl := (env.library.walks_growing ds).respects
  exact .of_gives (finish_gives hl d (build_gives hl expanding) raw)

/-- An heir that adds nothing has the instance that its parent has inside the heir's, if all names
in its content mean the same where the heir is. -/
theorem quietly_build_heir {s : Session} {heir parent : DefId} {d d' : Definition} {b : Content}
    (h : env.library.Heir heir d parent d')
    (hheir : ¬ Relation.TransGen env.library.Inherits heir heir) (hs : env.library.Kinded s)
    (hcache : ∀ known, s.cache.get? heir = some known → s.cache.get? parent = some known)
    (hmeans : ∀ raw, (env.library.content parent).outcome s = .ok raw →
      env.library.MeansAlike d'.home d.home raw)
    (hquiet : Quietly (env.build site [heir] parent []) s b) :
    Quietly (env.build site [] heir []) s b := by
  have hnot : parent ∉ [heir] := fun hmem => h.ne hheir (List.mem_singleton.1 hmem)
  have hgrows : Grows (env.library.contentEdited parent []) :=
    fun ds => (env.library.walks_growing ds).respects.edited parent []
  rw [build_of_stored hnot h.parentStored] at hquiet
  obtain ⟨raw, hraw, hfinish, hafter⟩ := hquiet.of_bind hgrows (finish_grows d' _)
  have hrawkind : raw.kind = d.kind := by
    obtain ⟨d'', hd'', hk⟩ := (env.library.respects_kinded.edited parent [] s hs).1 raw hraw.1
    cases h.parentStored.symm.trans hd''
    exact hk.trans h.kind
  have halike : env.library.MeansAlike d'.home d.home raw := by
    have hfound := hraw.1
    rw [Library.contentEdited_nil h.parentStored] at hfound
    apply hmeans raw
    rw [outcome, Library.run_content_of_ok hfound]
    exact hfound
  -- The two instances start to differ only after the content has been found.
  obtain ⟨hout, hagree⟩ := h.contentEdited_agree hheir hrawkind hcache hraw.1
  have hled := h.led hheir hrawkind
  have hinner (id : DefId) (edits : List Edit) : Leads (Library.Agree heir parent raw)
      (env.build site [parent, heir] id edits) (env.build site [heir] id edits) :=
    build_leads hled (List.subset_cons_self parent [heir]) id edits
  obtain ⟨hb, hagree⟩ := (finish_leads hled hinner halike).follows _ _ b hagree hfinish
  have hrun := run_bind (env.library.contentEdited heir [])
    (env.finish site d fun used edits => env.build site [heir] used edits) s
  rw [hout] at hrun
  rw [build_of_stored (List.not_mem_nil (a := heir)) h.stored]
  refine ⟨(congrArg Prod.fst hrun).trans hb, ?_⟩
  rw [after, hrun, ← hquiet.2, hafter]
  exact hagree.diagnostics

end Environment

/-- Whatever was done before, an heir that adds nothing has the instance of its parent wherever the
parent has one without a diagnostic, on four conditions. The names in the content mean the same from
the namespaces of both. The heir does not inherit from itself. The parent has an instance also where
the heir is refused. And nothing is remembered of the heir that is not remembered of the parent. -/
theorem Compilation.Reachable.build_heir {c : Compilation} (hc : c.Reachable) (site : UseSite)
    {heir parent : DefId} {d d' : Definition} (h : c.library.Heir heir d parent d')
    (hmeans : ∀ raw, (c.library.content parent).outcome c.session = .ok raw →
      c.library.MeansAlike d'.home d.home raw)
    (hheir : ¬ Relation.TransGen c.library.Inherits heir heir)
    (hunused : ∃ b, Quietly (c.environment.build site [heir] parent []) c.session b)
    (hcache : ∀ known, c.session.cache.get? heir = some known →
      c.session.cache.get? parent = some known)
    {b : Content} (hquiet : Quietly (c.environment.build site [] parent []) c.session b) :
    Quietly (c.environment.build site [] heir []) c.session b := by
  obtain ⟨b', hinside⟩ := hunused
  have hsame : b' = b := by
    have hleads : Leads Eq (c.environment.build site [heir] parent [])
        (c.environment.build site [] parent []) :=
      Environment.build_leads c.library.led_eq (List.nil_subset _) parent []
    have houtcome := (hleads.follows _ _ b' rfl hinside).1
    exact Except.ok.inj (houtcome.symm.trans hquiet.1)
  rw [hsame] at hinside
  exact Environment.quietly_build_heir h hheir hc.kinded hcache hmeans hinside

/-- A sign shows a lamp, and a poster in another namespace adds nothing to the sign. The lamp is
either around both namespaces or next to the sign. -/
def street (shared : Bool) : Compilation :=
  let group (name : String) (edges : List Inheritance) (nodes : List Node) : Operation :=
    .addGroup ⟨.template, .element, name⟩ (.element nodes) edges .empty none
  let lamp := group "Lamp" [] [.element ⟨"p", .empty, [], []⟩]
  let sign := group "Sign" [] [.usage ⟨.ofKind .element "Lamp", [], none⟩]
  let poster := group "Poster" [⟨⟨none, some .element, ["b"], "Sign"⟩, .explicit, [], none⟩] []
  Operation.afterAll
    ((if shared then [lamp] else []) ++ [.openNamespacePath ["b"]] ++
      (if shared then [] else [lamp]) ++
      [sign, .closeNamespace, .openNamespacePath ["a"], poster, .closeNamespace])
    (.initial .initial)

/-- The sign and the poster as they are stored. -/
def street.sign : Definition where
  identity := ⟨.template, .element, "Sign"⟩
  home := ⟨1⟩
  scope := ⟨1⟩
  edges := []
  body := .element [.usage ⟨.ofKind .element "Lamp", [], none⟩]
  noValue := .empty
  span := none

def street.poster : Definition where
  identity := ⟨.template, .element, "Poster"⟩
  home := ⟨2⟩
  scope := ⟨2⟩
  edges := [⟨⟨none, some .element, ["b"], "Sign"⟩, .explicit, [], none⟩]
  body := .element []
  noValue := .empty
  span := none

theorem street.reachable (shared : Bool) : (street shared).Reachable :=
  (Compilation.Reachable.initial .initial).afterAll _

set_option maxRecDepth 2000 in
theorem street.get?_sign (shared : Bool) :
    (street shared).definitions.get? ⟨1⟩ = some sign := by
  cases shared
  · rfl
  · rfl

set_option maxRecDepth 2000 in
theorem street.get?_poster (shared : Bool) :
    (street shared).definitions.get? ⟨2⟩ = some poster := by
  cases shared
  · rfl
  · rfl

theorem street.heir (shared : Bool) : (street shared).library.Heir ⟨2⟩ poster ⟨1⟩ sign where
  stored := get?_poster shared
  parentStored := get?_sign shared
  kind := rfl
  body := rfl
  noValue := rfl
  edge := ⟨_, rfl, rfl, by cases shared <;> decide +kernel⟩

/-- Where the lamp is around both namespaces, the poster shows it like the sign. -/
theorem build_heir_street :
    (street true).Reachable ∧ (street true).library.Heir ⟨2⟩ street.poster ⟨1⟩ street.sign ∧
    ∃ b, b.tags? = some ["p"] ∧
      Quietly ((street true).environment.build .global [] ⟨1⟩ []) (street true).session b ∧
      Quietly ((street true).environment.build .global [] ⟨2⟩ []) (street true).session b := by
  have hmeans (raw : Content)
      (hraw : ((street true).library.content ⟨1⟩).outcome (street true).session = .ok raw) :
      (street true).library.MeansAlike street.sign.home street.poster.home raw := by
    have hall : ∀ raw ∈ (((street true).library.content ⟨1⟩).outcome
        (street true).session).toOption, (street true).library.MeansAlike ⟨1⟩ ⟨2⟩ raw := by
      decide +kernel
    apply hall
    rw [hraw]
    rfl
  have hacyclic : (street true).library.Acyclic := Library.acyclic_of_inheritsOlder (by decide +kernel)
  obtain ⟨b, hb, htags⟩ : ∃ b, Quietly ((street true).environment.build .global [] ⟨1⟩ [])
      (street true).session b ∧ b.tags? = some ["p"] :=
    exists_quietly (by decide +kernel) (by decide +kernel)
  obtain ⟨b', hb', -⟩ : ∃ b, Quietly ((street true).environment.build .global [⟨2⟩] ⟨1⟩ [])
      (street true).session b ∧ b.tags? = some ["p"] :=
    exists_quietly (by decide +kernel) (by decide +kernel)
  have hnone : (street true).session.cache.get? ⟨2⟩ = none := by rfl
  refine ⟨street.reachable true, street.heir true, b, htags, hb, ?_⟩
  apply (street.reachable true).build_heir .global (street.heir true) hmeans (hacyclic ⟨2⟩)
    ⟨b', hb'⟩ _ hb
  intro known hknown
  cases hnone.symm.trans hknown

/-- Where the lamp is next to the sign, the poster does not show it. -/
theorem build_heir_elsewhere :
    (street false).Reachable ∧ (street false).library.Heir ⟨2⟩ street.poster ⟨1⟩ street.sign ∧
    ∃ b, b.tags? = some ["p"] ∧
      Quietly ((street false).environment.build .global [] ⟨1⟩ []) (street false).session b ∧
      (((street false).environment.build .global [] ⟨2⟩ []).outcome
        (street false).session).map Content.tags? = .ok (some []) ∧
      ((street false).environment.build .global [] ⟨2⟩ []).outcome (street false).session ≠
        .ok b := by
  obtain ⟨b, hb, htags⟩ : ∃ b, Quietly ((street false).environment.build .global [] ⟨1⟩ [])
      (street false).session b ∧ b.tags? = some ["p"] :=
    exists_quietly (by decide +kernel) (by decide +kernel)
  have hempty : (((street false).environment.build .global [] ⟨2⟩ []).outcome
      (street false).session).map Content.tags? = .ok (some []) := by
    decide +kernel
  refine ⟨street.reachable false, street.heir false, b, htags, hb, hempty, ?_⟩
  intro heq
  rw [heq] at hempty
  cases htags.symm.trans (Except.ok.inj hempty)

end Stencil
