import Stencil.Proofs.Scoping

/-! # Recorded contexts stay valid

A use is recorded with the scope in which it stands, and looked up from there long after the scope was
left. The way from a scope outwards ends at the global scope and never changes; what a scope knows is
never taken back, and only the current scope learns. As long as files are opened outside of all scopes,
scopes are nested like their namespaces, and leaving what was entered goes back to where that was.
-/
namespace Stencil
namespace Compilation

variable {c c' : Compilation} {id p s t : ScopeId} {name : String} {m : Meaning} {op : Operation}

/-- What can come after `c` if files are opened outside of all scopes. -/
inductive Proceeds (c : Compilation) : Compilation → Prop
  | refl : Proceeds c c
  | step {c' : Compilation} (op : Operation)
    (hop : ∀ stem, op = .openFile stem → c'.scopes.current = .global) (h : Proceeds c c') :
    Proceeds c (op.after c')
  | mount {c' other : Compilation} (path : List String) (h : Proceeds c c')
    (hother : other.Reachable) : Proceeds c ((Compiling.mount other path).after c')

theorem Proceeds.later (h : c.Proceeds c') : c.Later c' := by
  induction h with
  | refl => exact .refl
  | step op _ _ ih => exact ih.step op
  | mount path _ hother ih => exact ih.mount path hother

/-! ## Scopes are nested like their namespaces -/

/-- The namespace of each scope is that of the scope around it, or inside it. -/
def Nested (c : Compilation) : Prop :=
  ∀ id p home outer place, c.scopes.place? id = some (some p, home) →
    c.scopes.place? p = some (outer, place) → place ∈ c.namespaces.outward home

theorem home_of_place? (hc : c.Intact) {parent : Option ScopeId} {home : NamespaceId}
    (h : c.scopes.place? id = some (parent, home)) : c.namespaces.table.Holds home := by
  obtain ⟨x, hx, heq⟩ := Option.map_eq_some_iff.1 h
  obtain rfl : x.home = home := congrArg Prod.snd heq
  exact (hc.scopes id x hx).home

namespace Nested

theorem of_grows (h : c.Nested) (hc : c.Intact) (hgrows : c.Grows c')
    (hplace : ∀ id, c'.scopes.place? id = c.scopes.place? id) : c'.Nested := by
  intro id p home outer place hid hp
  rw [hplace] at hid hp
  rw [hgrows.namespaces_outward (home_of_place? hc hid)]
  exact h id p home outer place hid hp

/-- The scope that is entered has a namespace inside that of the current one, and so has the scope of a
file, as the current one is global. -/
theorem step (h : c.Nested) (hc : c.Reachable) (op : Operation)
    (hop : ∀ stem, op = .openFile stem → c.scopes.current = .global)
    (hfits : (op.after c).Fits) : (op.after c).Nested := by
  have hintact := hc.intact
  have hgrows := (op.after_updates hintact).grows
  rcases place?_after hintact op with hsame | ⟨-, home, hplace, a, path, hleads, ha⟩
  · exact h.of_grows hintact hgrows hsame
  intro id p home' outer place hid hp
  have hlinked := (hc.step op).linked hfits
  rw [hplace] at hid
  split at hid
  · -- the scope that was entered, in the one that was current
    cases hid
    rw [hplace, if_neg (Nat.ne_of_lt hintact.current)] at hp
    have hhome : c.home = .ok place := Scopes.homeOf_of_place? hp
    obtain rfl : a = place := by
      rcases ha with ha | ⟨rfl, stem, hstem⟩
      · exact Except.ok.inj (ha.symm.trans hhome)
      · rw [hop stem hstem, hc.seated.global] at hp
        exact congrArg Prod.snd (Option.some.inj hp)
    obtain ⟨before, hbefore⟩ :=
      hlinked.exists_leads (hgrows.holds_namespace (home_of_place? hintact hp))
    exact (hlinked.mem_outward_iff (NamespaceTree.leads_append.2 ⟨a, hbefore, hleads⟩)).2
      ⟨before, List.prefix_append _ _, hbefore⟩
  · have hlt : p.index < id.index := hc.seated.older id p home' hid
    have hold : id.index < c.scopes.table.size := Scopes.holds_of_place? hid
    rw [hplace, if_neg (by omega)] at hp
    rw [hgrows.namespaces_outward (home_of_place? hintact hid)]
    exact h id p home' outer place hid hp

/-- The namespaces of all scopes around a scope are around its namespace. -/
theorem home_mem (h : c.Nested) {parent : Option ScopeId} {home : NamespaceId}
    (hs : c.scopes.place? s = some (parent, home))
    (ht : t ∈ c.scopes.outward s) :
    ∃ around, c.scopes.homeOf t = .ok around ∧ around ∈ c.namespaces.outward home := by
  have hself : home ∈ c.namespaces.outward home := by
    rw [NamespaceTree.outward_eq]
    exact Arena.mem_chain_self _ _ _
  fun_induction c.scopes.outward s generalizing parent home with
  | case1 s _ =>
    obtain rfl := List.mem_singleton.1 ht
    exact ⟨home, Scopes.homeOf_of_place? hs, hself⟩
  | case2 s p hsome hlt ih =>
    rcases List.mem_cons.1 ht with rfl | ht
    · exact ⟨home, Scopes.homeOf_of_place? hs, hself⟩
    · have hparent : c.scopes.parent? s = some p := hsome
      rw [Scopes.parent?_eq, hs] at hparent
      obtain rfl : parent = some p := hparent
      obtain ⟨outer, place, hp⟩ :=
        Scopes.exists_place? (Nat.lt_trans hlt (Scopes.holds_of_place? hs))
      have hplace := h s p home outer place hs hp
      have hself' : place ∈ c.namespaces.outward place := by
        rw [NamespaceTree.outward_eq]
        exact Arena.mem_chain_self _ _ _
      obtain ⟨around, haround, hmem⟩ := ih hp ht hself'
      refine ⟨around, haround, ?_⟩
      rw [NamespaceTree.outward_eq] at hmem hplace ⊢
      exact Arena.mem_chain_trans hmem hplace
  | case3 s _ _ _ =>
    obtain rfl := List.mem_singleton.1 ht
    exact ⟨home, Scopes.homeOf_of_place? hs, hself⟩

end Nested

theorem Proceeds.nested {config : Config} (h : (Compilation.initial config).Proceeds c)
    (hfits : c.Fits) : c.Nested := by
  induction h with
  | refl =>
    intro id p home outer place hid
    have hlt := Scopes.initial_seated.older id p home hid
    have hholds : id.index < 1 := Scopes.holds_of_place? hid
    omega
  | @mount c other path hc hother ih =>
    have hreachable := hc.later.reachable (.initial config)
    have hgrows := (Compiling.mount_runs hreachable.intact hother.intact path).1.grows
    refine (ih (hgrows.fits hfits)).of_grows hreachable.intact hgrows fun id => ?_
    rw [show _ = _ from Compiling.mount_spares _ path c]
  | @step c op hop hc ih =>
    have hreachable := hc.later.reachable (.initial config)
    have hgrows := (op.after_updates hreachable.intact).grows
    exact (ih (hgrows.fits hfits)).step hreachable op hop hfits

/-- The way from a scope outwards goes from scope to scope, each in the next one, to the global scope.
The namespaces of these scopes are around that of the first one, and a name means what it means in the
first of them that knows it. -/
structure Standing (c : Compilation) (s : ScopeId) : Prop where
  head : (c.scopes.outward s).head? = some s
  parents : (c.scopes.outward s).IsChain fun x y => c.scopes.parent? x = some y
  last : (c.scopes.outward s).getLast? = some .global
  older : (c.scopes.outward s).Pairwise fun x y => y.index < x.index
  homes : ∃ home, c.scopes.homeOf s = .ok home ∧ ∀ t ∈ c.scopes.outward s,
    ∃ around, c.scopes.homeOf t = .ok around ∧ around ∈ c.namespaces.outward home
  innermost : ∀ name, ∃ r, c.scopes.meaningFrom s name = .ok r ∧ ∀ m, r = some m ↔
    ∃ inner t outer, c.scopes.outward s = inner ++ t :: outer ∧
      c.scopes.meaningIn t name = some m ∧ ∀ x ∈ inner, c.scopes.meaningIn x name = none

theorem Nested.standing (h : c.Nested) (hseated : c.scopes.Seated)
    (hs : c.scopes.table.Holds s) : c.Standing s := by
  obtain ⟨hhead, hchain, hlast⟩ := hseated.outward_chain hs
  obtain ⟨parent, home, hplace⟩ := Scopes.exists_place? hs
  refine ⟨hhead, hchain.imp fun _ _ => And.left, hlast, hseated.pairwise_outward hs, ?_,
    fun name => ?_⟩
  · exact ⟨home, Scopes.homeOf_of_place? hplace, fun t ht => h.home_mem hplace ht⟩
  · refine ⟨_, Scopes.meaningFrom_of_holds hs name, fun m => ?_⟩
    rw [List.findSome?_eq_some_iff]

/-! ## Only the current scope learns -/

theorem exists_ne_of_findSome?_ne {α β : Type} {f g : α → Option β} {as : List α}
    (h : as.findSome? f ≠ as.findSome? g) : ∃ a ∈ as, f a ≠ g a := by
  induction as with
  | nil => exact absurd rfl h
  | cons a as ih =>
    by_cases ha : f a = g a
    · rw [List.findSome?_cons, List.findSome?_cons, ha] at h
      split at h
      · exact absurd rfl h
      · obtain ⟨x, hx, hne⟩ := ih h
        exact ⟨x, List.mem_cons_of_mem _ hx, hne⟩
    · exact ⟨a, List.mem_cons_self, ha⟩

/-- The operation gives the name a meaning in the current scope, where it had none. -/
def Defines (c : Compilation) (op : Operation) (name : String) : Prop :=
  c.scopes.meaningIn c.scopes.current name = none ∧
    ∃ m, (op.after c).scopes.meaningIn c.scopes.current name = some m

theorem meaningIn_after (hc : c.Intact) (op : Operation)
    (hm : c.scopes.meaningIn id name = some m) :
    (op.after c).scopes.meaningIn id name = some m := by
  obtain ⟨scopes, hlearns, heq⟩ := learns_after hc op
  rw [heq]
  exact hlearns.meaningIn hm

theorem defines_of_ne (hc : c.Intact) {op : Operation}
    (hne : (op.after c).scopes.meaningIn id name ≠ c.scopes.meaningIn id name) :
    id = c.scopes.current ∧ c.Defines op name := by
  have hnone : c.scopes.meaningIn id name = none := by
    by_contra hsome
    obtain ⟨m, hm⟩ := Option.ne_none_iff_exists'.1 hsome
    exact hne ((meaningIn_after hc op hm).trans hm.symm)
  obtain ⟨m, hm⟩ := Option.ne_none_iff_exists'.1 (hnone ▸ hne)
  obtain ⟨scopes, hlearns, heq⟩ := learns_after hc op
  rcases hlearns.only_current ((heq id name).symm.trans hm) with hold | rfl
  · cases hnone.symm.trans hold
  · exact ⟨rfl, hnone, m, hm⟩

theorem Later.meaningIn (h : c.Later c') (hc : c.Reachable)
    (hm : c.scopes.meaningIn id name = some m) : c'.scopes.meaningIn id name = some m := by
  induction h with
  | refl => exact hm
  | step op h ih => exact meaningIn_after (h.reachable hc).intact op ih
  | mount path h hother ih =>
    rw [show _ = _ from Compiling.mount_spares _ path _]
    exact ih

/-- What a name means from a scope changes only when the name gets a meaning in a scope around it. -/
theorem Later.exists_defines (h : c.Later c') (hc : c.Reachable) (hs : c.scopes.table.Holds s)
    (hne : c'.scopes.meaningFrom s name ≠ c.scopes.meaningFrom s name) :
    ∃ c₁ op, c.Later c₁ ∧ (op.after c₁).Later c' ∧ c₁.scopes.current ∈ c.scopes.outward s ∧
      c₁.Defines op name := by
  induction h with
  | refl => exact absurd rfl hne
  | @mount c₁ other path h hother ih =>
    have hsame : ((Compiling.mount other path).after c₁).scopes = c₁.scopes :=
      Compiling.mount_spares other path c₁
    obtain ⟨c₂, op, hbefore, hafter, hcurrent, hdefines⟩ := ih (hsame ▸ hne)
    exact ⟨c₂, op, hbefore, hafter.mount path hother, hcurrent, hdefines⟩
  | @step c₁ op h ih =>
    by_cases heq : c₁.scopes.meaningFrom s name = c.scopes.meaningFrom s name
    · have hintact := (h.reachable hc).intact
      have hs₁ := (h.grows hc).holds_scope hs
      have hgrows := (op.after_updates hintact).grows
      rw [← heq, Scopes.meaningFrom_of_holds (hgrows.holds_scope hs₁),
        Scopes.meaningFrom_of_holds hs₁, hgrows.scopes_outward hs₁] at hne
      obtain ⟨t, ht, hne⟩ := exists_ne_of_findSome?_ne fun h => hne (congrArg Except.ok h)
      obtain ⟨rfl, hdefines⟩ := defines_of_ne hintact hne
      exact ⟨c₁, op, h, .refl, (h.grows hc).scopes_outward hs ▸ ht, hdefines⟩
    · obtain ⟨c₂, op', hbefore, hafter, hcurrent, hdefines⟩ := ih heq
      exact ⟨c₂, op', hbefore, hafter.step op, hcurrent, hdefines⟩

/-- The way outwards from the scope and its namespace are as before. What it knew, it still knows, and
if a name means something else from there, a scope around it has learned the name in between. -/
structure Kept (c c' : Compilation) (s : ScopeId) : Prop where
  outward : c'.scopes.outward s = c.scopes.outward s
  home : c'.scopes.homeOf s = c.scopes.homeOf s
  known : ∀ name m, c.scopes.meaningIn s name = some m → c'.scopes.meaningIn s name = some m
  learned : ∀ name, c'.scopes.meaningFrom s name ≠ c.scopes.meaningFrom s name →
    ∃ c₁ op, c.Later c₁ ∧ (op.after c₁).Later c' ∧ c₁.scopes.current ∈ c.scopes.outward s ∧
      c₁.Defines op name

theorem Grows.homeOf (h : c.Grows c') (hs : c.scopes.table.Holds s) :
    c'.scopes.homeOf s = c.scopes.homeOf s := by
  obtain ⟨x, hx⟩ := hs.exists_get?
  obtain ⟨x', hx', -, hparent, hhome⟩ := h.scopes s x hx
  rw [Scopes.homeOf_of_place? (Scopes.place?_of_get? hx),
    Scopes.homeOf_of_place? (Scopes.place?_of_get? hx'), hhome]

theorem Grows.parent? (h : c.Grows c') (hs : c.scopes.table.Holds s) :
    c'.scopes.parent? s = c.scopes.parent? s := by
  obtain ⟨x, hx⟩ := hs.exists_get?
  obtain ⟨x', hx', -, hparent, -⟩ := h.scopes s x hx
  rw [Scopes.parent?, Scopes.parent?, hx, hx']
  exact hparent

theorem Later.kept (h : c.Later c') (hc : c.Reachable) (hs : c.scopes.table.Holds s) :
    c.Kept c' s where
  outward := (h.grows hc).scopes_outward hs
  home := (h.grows hc).homeOf hs
  known _ _ hm := h.meaningIn hc hm
  learned _ hne := h.exists_defines hc hs hne

/-! ## Leaving what was entered -/

theorem parent?_opened (hc : c.Intact) (henters : op.Enters c)
    (hroom : (op.after c).scopes.table.size ≤ idLimit) :
    (op.after c).scopes.parent? (op.after c).scopes.current = some c.scopes.current := by
  obtain ⟨-, -, home, hget⟩ := opened hc henters hroom
  rw [Scopes.parent?, hget]
  rfl

/-- A scope that is opened is put in front of those that are open. -/
theorem outward_opened (hc : c.Intact) (henters : op.Enters c)
    (hroom : (op.after c).scopes.table.size ≤ idLimit) :
    (op.after c).scopes.outward (op.after c).scopes.current =
      (op.after c).scopes.current :: c.scopes.outward c.scopes.current := by
  have hgrows := (op.after_updates hc).grows
  obtain ⟨hcurrent, -⟩ := opened hc henters hroom
  have hlt : c.scopes.current.index < (op.after c).scopes.current.index := hcurrent ▸ hc.current
  rw [Scopes.outward_of_parent? (parent?_opened hc henters hroom) hlt,
    hgrows.scopes_outward hc.current]

theorem fileScope_opened (hc : c.Intact) {stem : String} (henters : (Operation.openFile stem).Enters c)
    (hroom : ((Operation.openFile stem).after c).scopes.table.size ≤ idLimit) :
    ((Operation.openFile stem).after c).fileScope =
      some ((Operation.openFile stem).after c).scopes.current := by
  obtain ⟨hcurrent, hnext, -⟩ := opened hc henters hroom
  obtain ⟨-, -, -, -, hfile, -⟩ := entered hc henters
  rw [hfile, hcurrent, ← hnext]
  rfl

/-- A scope that is not open is never opened again. -/
theorem mem_outward_of_after (hc : c.Reachable) (op : Operation)
    (hroom : (op.after c).scopes.table.size ≤ idLimit) (hs : c.scopes.table.Holds s)
    (h : s ∈ (op.after c).scopes.outward (op.after c).scopes.current) :
    s ∈ c.scopes.outward c.scopes.current := by
  have hintact := hc.intact
  have hgrows := (op.after_updates hintact).grows
  by_cases henters : op.Enters c
  · obtain ⟨hcurrent, -⟩ := opened hintact henters hroom
    rw [outward_opened hintact henters hroom] at h
    rcases List.mem_cons.1 h with rfl | h
    · exact absurd (congrArg Id.index hcurrent) (Nat.ne_of_lt hs)
    · exact h
  · rcases (stayed hintact henters).2 with hlearns | ⟨p, hp, heq⟩
    · rwa [hlearns.current_eq, hgrows.scopes_outward hintact.current] at h
    · have hh : s ∈ c.scopes.outward p := by
        rw [Scopes.outward_eq, heq] at h
        rwa [Scopes.outward_eq]
      rw [Scopes.outward_eq] at hh hp ⊢
      exact Arena.mem_chain_trans hh hp

theorem fileScope_after (hc : c.Intact) (op : Operation)
    (hroom : (op.after c).scopes.table.size ≤ idLimit) :
    (op.after c).fileScope = c.fileScope ∨ op = .closeFile ∧ (op.after c).fileScope = none ∨
      (∃ stem, op = .openFile stem) ∧ (op.after c).fileScope = some ⟨c.scopes.table.size⟩ := by
  by_cases henters : op.Enters c
  · obtain ⟨-, -, -, -, hfile, -⟩ := entered hc henters
    obtain ⟨-, hnext, -⟩ := opened hc henters hroom
    rw [hfile]
    cases op with
    | openFile stem => exact .inr (.inr ⟨⟨stem, rfl⟩, congrArg some hnext⟩)
    | _ => exact .inl rfl
  · rcases (stayed hc henters).1 with hleft | hfile
    · exact .inr (.inl hleft)
    · exact .inl hfile

/-- A scope that is there does not become the scope of the file. -/
theorem Later.fileScope_ne (h : c.Later c') (hc : c.Reachable)
    (hroom : c'.scopes.table.size ≤ idLimit) (hs : c.scopes.table.Holds s)
    (hne : c.fileScope ≠ some s) : c'.fileScope ≠ some s := by
  induction h with
  | refl => exact hne
  | @mount c₁ other path h hother ih =>
    obtain ⟨hscopes, hfile⟩ := Prod.mk.inj (mount_scoping other path c₁)
    rw [hfile]
    exact ih (hscopes ▸ hroom)
  | @step c₁ op h ih =>
    have hintact := (h.reachable hc).intact
    have hle := (op.after_updates hintact).grows.scopes_le
    rcases fileScope_after hintact op hroom with hfile | ⟨-, hfile⟩ | ⟨-, hfile⟩
    · rw [hfile]
      exact ih (hle.trans hroom)
    · rw [hfile]
      exact nofun
    · have hold : s.index < c₁.scopes.table.size := (h.grows hc).holds_scope hs
      rw [hfile]
      rintro ⟨rfl⟩
      exact Nat.lt_irrefl _ hold

theorem run_closeFile (hs : c.fileScope = some s) (hopen : s ∈ c.scopes.outward c.scopes.current)
    (hp : c.scopes.parent? s = some p) (hlt : p.index < s.index) :
    Compiling.closeFile.run c =
      (.ok (), { c with scopes := { c.scopes with current := p }, fileScope := none }) := by
  have hclose := Scopes.closeThrough_of_mem hopen hp hlt
  have hget : (get : Compiling Compilation).outcome c = .ok c := rfl
  have hsame : (get : Compiling Compilation).after c = c := rfl
  rw [Compiling.closeFile, Compiling.run_bind, hget, hsame]
  dsimp only
  rw [hs]
  dsimp only
  rw [hclose]
  rfl

/-- As long as the scope of a file is open, no other file is begun, and the file is not left. -/
theorem Proceeds.fileScope_eq (h : c.Proceeds c') (hc : c.Reachable)
    (hroom : c'.scopes.table.size ≤ idLimit) (hs : c.fileScope = some s)
    (hp : c.scopes.parent? s = some p) (hopen : s ∈ c'.scopes.outward c'.scopes.current) :
    c'.fileScope = some s := by
  have hholds : c.scopes.table.Holds s := hc.intact.fileScope s hs
  induction h with
  | refl => exact hs
  | @mount c₁ other path h hother ih =>
    obtain ⟨hscopes, hfile⟩ := Prod.mk.inj (mount_scoping other path c₁)
    rw [hfile]
    exact ih (hscopes ▸ hroom) (hscopes ▸ hopen)
  | @step c₁ op hop h ih =>
    have hreachable := h.later.reachable hc
    have hgrows := h.later.grows hc
    have hle := (op.after_updates hreachable.intact).grows.scopes_le
    have hopen₁ := mem_outward_of_after hreachable op hroom (hgrows.holds_scope hholds) hopen
    have hs₁ := ih (hle.trans hroom) hopen₁
    have hp₁ : c₁.scopes.parent? s = some p := (hgrows.parent? hholds).trans hp
    have hlt := hreachable.seated.lt_of_parent? hp₁
    rcases fileScope_after hreachable.intact op hroom with hfile | ⟨rfl, -⟩ | ⟨⟨stem, rfl⟩, -⟩
    · exact hfile.trans hs₁
    · -- the scope around that of the file is older
      rw [Operation.after, Compiling.after, run_closeFile hs₁ hopen₁ hp₁ hlt,
        Scopes.outward_eq] at hopen
      exact absurd (Arena.index_le_of_mem_chain hopen) (Nat.not_le_of_lt hlt)
    · -- nothing but the global scope is open
      rw [hop stem rfl, hreachable.seated.outward_global] at hopen₁
      obtain rfl := List.mem_singleton.1 hopen₁
      rw [Scopes.parent?_eq, hreachable.seated.global] at hp₁
      cases hp₁

/-- The scope that the operation has opened can be left as soon as it is current again, also as a block
of its namespace, and the file as long as its scope is open. All of this goes back to the scope in which
the operation was done. -/
structure Returns (c : Compilation) (op : Operation) (c' : Compilation) : Prop where
  scope : c'.scopes.current = (op.after c).scopes.current →
    Compiling.closeScope.outcome c' = .ok (op.after c).scopes.current ∧
      (Compiling.closeScope.after c').scopes.current = c.scopes.current
  block : op.blockKind = .namespaceBlock → (∀ stem, op ≠ .openFile stem) →
    c'.scopes.current = (op.after c).scopes.current →
    Compiling.closeNamespace.outcome c' = .ok () ∧
      (Compiling.closeNamespace.after c').scopes.current = c.scopes.current
  file : (∃ stem, op = .openFile stem) →
    (op.after c).scopes.current ∈ c'.scopes.outward c'.scopes.current →
    Compiling.closeFile.outcome c' = .ok () ∧
      (Compiling.closeFile.after c').scopes.current = c.scopes.current

theorem run_closeScope {x : Scope} (hx : c.scopes.table.get? c.scopes.current = some x)
    (hp : x.parent = some p) : Compiling.closeScope.run c =
      (.ok c.scopes.current, { c with scopes := { c.scopes with current := p } }) := by
  change ((liftM c.scopes.close : Compiling Scopes) >>= _).run c = _
  rw [Compiling.run_liftFault_bind (Scopes.close_of_some hx hp)]
  rfl

/-- Whatever is done in a scope that was entered, leaving it goes back. -/
theorem Proceeds.returns (h : (op.after c).Proceeds c') (hc : c.Reachable) (henters : op.Enters c)
    (hroom : c'.scopes.table.size ≤ idLimit) : c.Returns op c' := by
  have hintact := hc.intact
  have hreachable := hc.step op
  have hgrows := h.later.grows hreachable
  have hroom₁ := hgrows.scopes_le.trans hroom
  obtain ⟨hcurrent, -, home, hget⟩ := opened hintact henters hroom₁
  obtain ⟨x, hx, hkind, hparent, -⟩ := hgrows.scopes _ _ hget
  have hholds := Arena.holds_of_get? hget
  refine ⟨fun hs => ?_, fun hblock hop hs => ?_, fun hbegun hopen => ?_⟩
  · rw [Compiling.outcome, Compiling.after, run_closeScope (hs ▸ hx) hparent]
    exact ⟨congrArg Except.ok hs, rfl⟩
  · have hnew : (op.after c).fileScope ≠ some (op.after c).scopes.current := by
      rcases fileScope_after hintact op hroom₁ with hfile | ⟨-, hfile⟩ | ⟨⟨stem, hstem⟩, -⟩
      · rw [hfile, hcurrent]
        exact fun hold => Nat.lt_irrefl _ (hintact.fileScope _ hold)
      · rw [hfile]
        exact (Option.some_ne_none _).symm
      · exact absurd hstem (hop stem)
    have hfile := h.later.fileScope_ne hreachable hroom hholds hnew
    rw [Compiling.outcome, Compiling.after,
      Compiling.run_closeNamespace (hs ▸ hx) (hkind.trans hblock) hparent (hs ▸ hfile)]
    exact ⟨rfl, rfl⟩
  · obtain ⟨stem, rfl⟩ := hbegun
    have hparent₁ := parent?_opened hintact henters hroom₁
    have hlt : c.scopes.current.index < ((Operation.openFile stem).after c).scopes.current.index :=
      hcurrent ▸ hintact.current
    rw [Compiling.outcome, Compiling.after, run_closeFile (h.fileScope_eq hreachable hroom
      (fileScope_opened hintact henters hroom₁) hparent₁ hopen) hopen
      ((hgrows.parent? hholds).trans hparent₁) hlt]
    exact ⟨rfl, rfl⟩

/-- In every run in which files are opened outside of all scopes, each scope stands on a way to the
global scope, which is kept with all that is known there, and leaving what was entered goes back. -/
theorem Proceeds.contexts {config : Config} (h : (Compilation.initial config).Proceeds c)
    (hfits : c.Fits) :
    (∀ s, c.scopes.table.Holds s → c.Standing s ∧ ∀ c', c.Later c' → c.Kept c' s) ∧
      ∀ op c', op.Enters c → (op.after c).Proceeds c' → c'.scopes.table.size ≤ idLimit →
        c.Returns op c' := by
  have hc := h.later.reachable (.initial config)
  refine ⟨fun s hs => ⟨(h.nested hfits).standing hc.seated hs, fun c' hlater => hlater.kept hc hs⟩, ?_⟩
  exact fun op c' henters hproceeds hroom => hproceeds.returns hc henters hroom

end Compilation

/-- An element is opened in a file. -/
def workshop : Compilation :=
  Operation.afterAll [.openFile "shop", .openScope .element] (.initial .initial)

/-- A namespace block inside the element, in which a rope was written and a scope was left. -/
def bench : Compilation :=
  Operation.afterAll [.openNamespace "bench",
    .addGroup ⟨.custom, .style, "Rope"⟩ (.empty .style) [] .empty none, .openScope .custom,
    .closeScope] workshop

/-- In the scope of the element the name of the block is learned, and the block is left to it. -/
theorem contexts_workshop :
    (Compilation.initial .initial).Proceeds workshop ∧ workshop.Fits ∧ workshop.Standing ⟨2⟩ ∧
      workshop.Later bench ∧ workshop.Kept bench ⟨2⟩ ∧
      workshop.scopes.meaningFrom ⟨2⟩ "bench" = .ok none ∧
      bench.scopes.meaningFrom ⟨2⟩ "bench" = .ok (some (.space ⟨2⟩)) ∧
      Compiling.closeNamespace.outcome bench = .ok () ∧
      (Compiling.closeNamespace.after bench).scopes.current = ⟨2⟩ := by
  have hrun : (Compilation.initial .initial).Proceeds workshop :=
    (Compilation.Proceeds.refl.step (.openFile "shop") fun _ _ => rfl).step (.openScope .element) nofun
  have hfits : workshop.Fits := ⟨by decide +kernel, by decide +kernel⟩
  have hinside : ((Operation.openNamespace "bench").after workshop).Proceeds bench :=
    ((Compilation.Proceeds.refl.step (.addGroup _ _ _ _ _) nofun).step (.openScope .custom) nofun).step
      .closeScope nofun
  have hlater : workshop.Later bench :=
    (((Compilation.Later.refl.step (.openNamespace "bench")).step (.addGroup _ _ _ _ _)).step
      (.openScope .custom)).step .closeScope
  have henters : (Operation.openNamespace "bench").Enters workshop := ⟨⟨2⟩, by decide +kernel⟩
  obtain ⟨hscopes, hreturns⟩ := hrun.contexts hfits
  obtain ⟨hstanding, hkept⟩ := hscopes ⟨2⟩ (by decide +kernel)
  have hback := (hreturns _ bench henters hinside (by decide +kernel)).block rfl nofun
    (by decide +kernel)
  have hcurrent : workshop.scopes.current = ⟨2⟩ := by decide +kernel
  exact ⟨hrun, hfits, hstanding, hlater, hkept bench hlater, by decide +kernel, by decide +kernel,
    hback.1, hback.2.trans hcurrent⟩

end Stencil
