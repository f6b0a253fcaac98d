import Stencil.Proofs.Contexts

/-! # Closing a file

Whatever is written in a file, the scopes that were open when it was begun stay open, and that of the file
stays in front of them, as long as nothing but what was opened in the file is left. So closing the file
leaves one scope after another up to that of the file, and goes back to where the file was begun.
-/
namespace Stencil

namespace Scopes

variable {s s' : Scopes} {id p target : ScopeId}

/-- Leaving one scope after another, until `target` has been left. -/
inductive LeavesThrough (target : ScopeId) : Scopes → Scopes → Prop
  | last {s s' : Scopes} (hclose : s.close = .ok s') (htarget : s.current = target) :
    LeavesThrough target s s'
  | next {s s' s'' : Scopes} (hclose : s.close = .ok s') (hother : s.current ≠ target)
    (h : LeavesThrough target s' s'') : LeavesThrough target s s''

/-- Which scope is current does not matter for the way outwards. -/
theorem outward_with (s : Scopes) (p id : ScopeId) :
    { s with current := p }.outward id = s.outward id := by
  rw [outward_eq, outward_eq]

theorem exists_of_close (h : s.close = .ok s') :
    ∃ p, s.parent? s.current = some p ∧ s' = { s with current := p } := by
  obtain ⟨x, hx, h⟩ := Except.bind_eq_ok h
  have hget := Arena.get?_of_find hx
  split at h
  · cases h
  · rename_i p hp
    exact ⟨p, by rw [parent?, hget]; exact hp, (Except.ok.inj h).symm⟩

namespace Seated

theorem of_close (h : s.Seated) (hclose : s.close = .ok s') : s'.Seated := by
  obtain ⟨p, -, rfl⟩ := exists_of_close hclose
  exact h.of_place? fun _ => rfl

/-- One scope is left, and unless that was the last to be left, the others after it. -/
theorem closeThrough_eq (h : s.Seated) (hcurrent : s.table.Holds s.current) (target : ScopeId) :
    s.closeThrough target =
      match s.close with
      | .ok s' => if s.current = target then (s', none) else s'.closeThrough target
      | .error f => (s, some f) := by
  obtain ⟨x, hx⟩ := hcurrent.exists_get?
  cases hp : x.parent with
  | none =>
    have hnone : (s.table.get? s.current).bind Scope.parent = none := by rw [hx]; exact hp
    have houtward : s.outward s.current = [s.current] := by rw [outward, hnone]
    rw [close_of_none hx hp, closeThrough, houtward]
    by_cases htarget : s.current = target
    · subst htarget
      simp
    · simp [htarget]
  | some p =>
    have hparent : s.parent? s.current = some p := by rw [parent?, hx]; exact hp
    have hlt := h.lt_of_parent? hparent
    have houtward := outward_of_parent? hparent hlt
    rw [close_of_some hx hp]
    dsimp only
    split
    · rename_i htarget
      refine htarget ▸ closeThrough_of_mem ?_ hparent hlt
      rw [houtward]
      exact List.mem_cons_self
    · rename_i hother
      obtain ⟨-, -, hlast⟩ := h.outward_chain (Nat.lt_trans hlt hcurrent)
      obtain ⟨-, -, hlast'⟩ := h.outward_chain hcurrent
      rw [houtward] at hlast'
      rw [closeThrough, houtward, hlast', List.dropWhile_cons_of_pos (by simpa using hother),
        closeThrough, s.outward_with p p, hlast]
      rfl

/-- What is said to happen at once, happens scope by scope. -/
theorem closeThrough_eq_iff (h : s.Seated) (hcurrent : s.table.Holds s.current) :
    s.closeThrough target = (s', none) ↔ s.LeavesThrough target s' := by
  induction hn : s.current.index using Nat.strong_induction_on generalizing s with
  | _ n ih =>
    have hagain {s₁ : Scopes} (hclose : s.close = .ok s₁) :
        s₁.closeThrough target = (s', none) ↔ s₁.LeavesThrough target s' := by
      obtain ⟨p, hp, rfl⟩ := exists_of_close hclose
      have hlt := h.lt_of_parent? hp
      exact ih _ (hn ▸ hlt) (h.of_close hclose) (Nat.lt_trans hlt hcurrent) rfl
    rw [h.closeThrough_eq hcurrent]
    constructor
    · intro hleft
      split at hleft
      · rename_i s₁ hclose
        split at hleft
        · rename_i htarget
          cases hleft
          exact .last hclose htarget
        · rename_i hother
          exact .next hclose hother ((hagain hclose).1 hleft)
      · cases hleft
    · rintro (⟨hclose, htarget⟩ | ⟨hclose, hother, hleaves⟩)
      · rw [hclose]
        exact if_pos htarget
      · rw [hclose]
        exact (if_neg hother).trans ((hagain hclose).2 hleaves)

/-- The scopes on the way to a scope further out are newer than that. -/
theorem exists_outward_append (h : s.Seated) (hid : s.table.Holds id) (hmem : p ∈ s.outward id) :
    ∃ inner, s.outward id = inner ++ s.outward p ∧ ∀ x ∈ inner, p.index < x.index := by
  have hsplit := List.takeWhile_append_dropWhile (p := fun x => decide (x ≠ p)) (l := s.outward id)
  rw [dropWhile_outward hmem] at hsplit
  obtain ⟨rest, hrest⟩ := s.exists_outward_eq_cons p
  have hnewer := h.pairwise_outward hid
  rw [← hsplit, hrest] at hnewer
  exact ⟨_, hsplit.symm, fun x hx =>
    (List.pairwise_append.1 hnewer).2.2 x hx p List.mem_cons_self⟩

end Seated

theorem lt_of_mem_outward (h : p ∈ s.outward id) (hne : p ≠ id) : p.index < id.index := by
  rw [outward_eq] at h
  exact Nat.lt_of_le_of_ne (Arena.index_le_of_mem_chain h) fun heq => hne (congrArg Id.mk heq)

/-- When the current scope is left, those around it stay open. -/
theorem exists_parent_of_mem (h : id ∈ s.outward s.current) (hne : id ≠ s.current) :
    ∃ x p, s.table.get? s.current = some x ∧ x.parent = some p ∧ id ∈ s.outward p := by
  rw [outward] at h
  split at h
  · exact absurd (List.mem_singleton.1 h) hne
  · rename_i p hparent
    obtain ⟨x, hx, hp⟩ := Option.bind_eq_some_iff.1 hparent
    split at h
    · exact ⟨x, p, hx, hp, (List.mem_cons.1 h).resolve_left hne⟩
    · exact absurd (List.mem_singleton.1 h) hne

end Scopes

namespace Compilation

variable {c c' : Compilation} {s p : ScopeId} {op : Operation}

/-- What can come after `c`, in which a file has been begun, before that file is closed: no other file is
begun, and no scope is left that was there already. -/
inductive WithinFile (c : Compilation) : Compilation → Prop
  | refl : WithinFile c c
  | step {c' : Compilation} (op : Operation) (hbegin : ∀ stem, op ≠ .openFile stem)
    (hclose : op ≠ .closeFile)
    (hleave : op = .closeScope → ¬ c.scopes.table.Holds c'.scopes.current) (h : WithinFile c c') :
    WithinFile c (op.after c')
  | mount {c' other : Compilation} (path : List String) (h : WithinFile c c')
    (hother : other.Reachable) : WithinFile c ((Compiling.mount other path).after c')

theorem WithinFile.proceeds (h : c.WithinFile c') : c.Proceeds c' := by
  induction h with
  | refl => exact .refl
  | step op hbegin _ _ _ ih => exact ih.step op fun stem hop => absurd hop (hbegin stem)
  | mount path _ hother ih => exact ih.mount path hother

/-! ## The scope of the file stays open -/

theorem run_closeNamespace_of_not {x : Scope} (hx : c.scopes.table.get? c.scopes.current = some x)
    (h : ¬ (x.kind = .namespaceBlock ∧ some c.scopes.current ≠ c.fileScope)) :
    Compiling.closeNamespace.run c = (.error (.fault (.noNamespaceBlock x.kind)), c) := by
  have hfind : c.scopes.find c.scopes.current = .ok x := Arena.find_of_get? hx
  change ((liftM (c.scopes.find c.scopes.current) : Compiling Scope) >>= _).run c = _
  rw [Compiling.run_liftFault_bind hfind]
  change (if x.kind = .namespaceBlock ∧ some c.scopes.current ≠ c.fileScope then _ else _ :
    Compiling Unit).run c = _
  rw [if_neg h]
  rfl

/-- The current scope is left as a block of a namespace, unless it is none or is that of the file. -/
theorem closeNamespace_cases (hcurrent : c.scopes.table.Holds c.scopes.current)
    (hfile : c.fileScope = some s) (hopen : s ∈ c.scopes.outward c.scopes.current) :
    (∃ x p, c.scopes.table.get? c.scopes.current = some x ∧ x.kind = .namespaceBlock ∧
        x.parent = some p ∧ s ≠ c.scopes.current ∧ s ∈ c.scopes.outward p ∧
        Compiling.closeNamespace.run c =
          (.ok (), { c with scopes := { c.scopes with current := p } })) ∨
      ∃ kind, Compiling.closeNamespace.run c = (.error (.fault (.noNamespaceBlock kind)), c) := by
  obtain ⟨x, hx⟩ := hcurrent.exists_get?
  by_cases hblock : x.kind = .namespaceBlock ∧ some c.scopes.current ≠ c.fileScope
  · obtain ⟨hkind, hother⟩ := hblock
    have hne : s ≠ c.scopes.current := fun h => hother (h ▸ hfile.symm)
    obtain ⟨x', p, hx', hp, hmem⟩ := Scopes.exists_parent_of_mem hopen hne
    obtain rfl := Option.some.inj (hx'.symm.trans hx)
    exact .inl ⟨x', p, hx, hkind, hp, hne, hmem,
      Compiling.run_closeNamespace hx hkind hp hother.symm⟩
  · exact .inr ⟨x.kind, run_closeNamespace_of_not hx hblock⟩

/-- As long as the file is not closed and its scope is not left itself, that scope stays open. -/
theorem mem_outward_after (hc : c.Reachable) (hroom : (op.after c).scopes.table.size ≤ idLimit)
    (hclose : op ≠ .closeFile) (hleave : op = .closeScope → s ≠ c.scopes.current)
    (hfile : c.fileScope = some s) (hopen : s ∈ c.scopes.outward c.scopes.current) :
    s ∈ (op.after c).scopes.outward (op.after c).scopes.current := by
  have hintact := hc.intact
  by_cases henters : op.Enters c
  · rw [outward_opened hintact henters hroom]
    exact List.mem_cons_of_mem _ hopen
  by_cases hleaves : op.Leaves
  · cases op with
    | closeFile => exact absurd rfl hclose
    | closeNamespace =>
      rw [Operation.after, Compiling.after]
      rcases closeNamespace_cases hintact.current hfile hopen with
        ⟨-, p, -, -, -, -, hmem, hrun⟩ | ⟨kind, hrun⟩
      · rw [hrun]
        exact (c.scopes.outward_with p p).symm ▸ hmem
      · rwa [hrun]
    | closeScope =>
      obtain ⟨x, p, hx, hp, hmem⟩ := Scopes.exists_parent_of_mem hopen (hleave rfl)
      rw [Operation.after, Compiling.after, run_closeScope hx hp]
      exact (c.scopes.outward_with p p).symm ▸ hmem
    | _ => exact hleaves.elim
  · obtain ⟨-, hlearns⟩ := learned hintact henters hleaves
    rwa [hlearns.current_eq, (op.after_updates hintact).grows.scopes_outward hintact.current]

/-- The scope of the file is open all the time. -/
theorem WithinFile.mem_outward (h : c.WithinFile c') (hc : c.Reachable)
    (hroom : c'.scopes.table.size ≤ idLimit) (hs : c.fileScope = some s)
    (hp : c.scopes.parent? s = some p) (hopen : s ∈ c.scopes.outward c.scopes.current) :
    s ∈ c'.scopes.outward c'.scopes.current := by
  induction h with
  | refl => exact hopen
  | @mount c₁ other path h hother ih =>
    have hscopes := (Prod.mk.inj (mount_scoping other path c₁)).1
    rw [hscopes] at hroom ⊢
    exact ih hroom
  | @step c₁ op hbegin hclose hleave h ih =>
    have hlater := h.proceeds.later
    have hreachable := hlater.reachable hc
    have hroom₁ := (op.after_updates hreachable.intact).grows.scopes_le.trans hroom
    have hfile := h.proceeds.fileScope_eq hc hroom₁ hs hp (ih hroom₁)
    refine mem_outward_after hreachable hroom hclose (fun hop => ?_) hfile (ih hroom₁)
    rintro rfl
    exact hleave hop (hc.intact.fileScope _ hs)

/-- As long as the file is not closed, its scope is open, inside the one in which the file was begun, and
is the scope of the file. -/
theorem WithinFile.scope_open {stem : String} (hc : c.Reachable)
    (henters : (Operation.openFile stem).Enters c)
    (h : ((Operation.openFile stem).after c).WithinFile c')
    (hroom : c'.scopes.table.size ≤ idLimit) :
    ((Operation.openFile stem).after c).scopes.current ∈ c'.scopes.outward c'.scopes.current ∧
      c'.fileScope = some ((Operation.openFile stem).after c).scopes.current ∧
      c'.scopes.parent? ((Operation.openFile stem).after c).scopes.current =
        some c.scopes.current := by
  have hbegun := hc.step (.openFile stem)
  have hgrows := h.proceeds.later.grows hbegun
  have hroom₁ := hgrows.scopes_le.trans hroom
  have hfile := fileScope_opened hc.intact henters hroom₁
  have hparent := parent?_opened hc.intact henters hroom₁
  have hopen := h.mem_outward hbegun hroom hfile hparent
    (outward_opened hc.intact henters hroom₁ ▸ List.mem_cons_self)
  exact ⟨hopen, h.proceeds.fileScope_eq hbegun hroom hfile hparent hopen,
    (hgrows.parent? hbegun.intact.current).trans hparent⟩

/-! ## Closing the file -/

/-- In `c` a file was begun, which led to `begun`. In `c'` it is closed together with all that is open in
it, and no block of a namespace is closed but one that was opened in it. -/
structure Closes (c begun c' : Compilation) : Prop where
  /-- Open are scopes that were opened in the file, then that of the file, then those from before. -/
  way : ∃ inner, c'.scopes.outward c'.scopes.current =
      inner ++ begun.scopes.current :: c.scopes.outward c.scopes.current ∧
    ∀ x ∈ inner, ¬ begun.scopes.table.Holds x
  left : c'.scopes.LeavesThrough begun.scopes.current
    { c'.scopes with current := c.scopes.current }
  /-- Nothing changes but which scope is current and which is that of the file. -/
  closed : Compiling.closeFile.run c' = (.ok (),
    { c' with scopes := { c'.scopes with current := c.scopes.current }, fileScope := none })
  again : Compiling.closeFile.run (Compiling.closeFile.after c') =
    (.ok (), Compiling.closeFile.after c')
  block : (∃ x p, c'.scopes.table.get? c'.scopes.current = some x ∧ x.kind = .namespaceBlock ∧
      ¬ begun.scopes.table.Holds c'.scopes.current ∧ x.parent = some p ∧
      Compiling.closeNamespace.run c' =
        (.ok (), { c' with scopes := { c'.scopes with current := p } })) ∨
    ∃ kind, Compiling.closeNamespace.run c' = (.error (.fault (.noNamespaceBlock kind)), c')

/-- However much is open in a file, closing it goes back to where it was begun and keeps all that was
added. -/
theorem Reachable.closes_file {stem : String} (hc : c.Reachable)
    (henters : (Operation.openFile stem).Enters c)
    (h : ((Operation.openFile stem).after c).WithinFile c')
    (hroom : c'.scopes.table.size ≤ idLimit) :
    c.Closes ((Operation.openFile stem).after c) c' := by
  obtain ⟨hopen, hfile, hparent⟩ := h.scope_open hc henters hroom
  have hbegun := hc.step (.openFile stem)
  have hgrows := h.proceeds.later.grows hbegun
  have hreachable := h.proceeds.later.reachable hbegun
  have hroom₁ := hgrows.scopes_le.trans hroom
  have houtward := outward_opened hc.intact henters hroom₁
  have hsize := size_opened hc.intact henters
  obtain ⟨hcurrent, -⟩ := opened hc.intact henters hroom₁
  generalize (Operation.openFile stem).after c = begun at *
  have hseated := hreachable.seated
  have hclosed := run_closeFile hfile hopen hparent (hseated.lt_of_parent? hparent)
  have hnew {x : ScopeId} (hx : begun.scopes.current.index < x.index) :
      ¬ begun.scopes.table.Holds x := by
    rw [hcurrent] at hx
    rw [Arena.Holds, hsize]
    exact Nat.not_lt.2 hx
  refine ⟨?_, ?_, hclosed, ?_, ?_⟩
  · obtain ⟨inner, hinner, hnewer⟩ :=
      hseated.exists_outward_append hreachable.intact.current hopen
    rw [hgrows.scopes_outward hbegun.intact.current, houtward] at hinner
    exact ⟨inner, hinner, fun x hx => hnew (hnewer x hx)⟩
  · exact (hseated.closeThrough_eq_iff hreachable.intact.current).1
      (Scopes.closeThrough_of_mem hopen hparent (hseated.lt_of_parent? hparent))
  · rw [Compiling.after, hclosed]
    rfl
  · rcases closeNamespace_cases hreachable.intact.current hfile hopen with
      ⟨x, p, hx, hkind, hp, hne, -, hrun⟩ | hfault
    · exact .inl ⟨x, p, hx, hkind, hnew (Scopes.lt_of_mem_outward hopen hne), hp, hrun⟩
    · exact .inr hfault

end Compilation

/-- A page with an element in a block, and in the element a style that was left again. -/
def page : Compilation :=
  Operation.afterAll [.openNamespace "inner", .openScope .element, .openScope .custom,
    .addGroup ⟨.custom, .style, "Rope"⟩ (.empty .style) [] .empty none, .closeScope]
    ((Operation.openFile "page").after (.initial .initial))

/-- The element is no block, but the page can be closed, and the style stays. -/
theorem closes_file_page :
    (Compilation.initial .initial).Closes ((Operation.openFile "page").after (.initial .initial))
      page ∧
      page.scopes.depth = 3 ∧ Compiling.closeNamespace.outcome page =
        .error (.fault (.noNamespaceBlock .element)) ∧
      Compiling.closeFile.outcome page = .ok () ∧ (Compiling.closeFile.after page).scopes.depth = 0 ∧
      (Compiling.closeFile.after page).scopes.table.size = 5 ∧
      (Compiling.closeFile.after page).definitions.size = 1 := by
  have hrun : ((Operation.openFile "page").after (.initial .initial)).WithinFile page :=
    ((((Compilation.WithinFile.refl.step (.openNamespace "inner") nofun nofun nofun).step
      (.openScope .element) nofun nofun nofun).step (.openScope .custom) nofun nofun nofun).step
      (.addGroup _ _ _ _ _) nofun nofun nofun).step .closeScope nofun nofun
      fun _ => by decide +kernel
  have hcloses := (Compilation.Reachable.initial .initial).closes_file ⟨rfl, rfl⟩ hrun
    (by decide +kernel)
  refine ⟨hcloses, by decide +kernel, ?_, ?_, by decide +kernel, by decide +kernel,
    by decide +kernel⟩
  · rfl
  · exact congrArg Prod.fst hcloses.closed

end Stencil
