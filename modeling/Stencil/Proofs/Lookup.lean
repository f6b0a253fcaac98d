import Stencil.Proofs.Tables

/-! # Looking names up in a closed library

From a namespace of a closed library every look-up comes to an answer, and what it finds is
registered or aliased somewhere and belongs to the category that was asked for.
-/
namespace Stencil

/-- Sequencing look-ups: both parts have succeeded. -/
theorem Except.bind_eq_ok {ε α β : Type} {x : Except ε α} {f : α → Except ε β} {b : β}
    (h : x >>= f = .ok b) : ∃ a, x = .ok a ∧ f a = .ok b := by
  cases x with
  | error e => cases h
  | ok a => exact ⟨a, rfl, h⟩

section Judgements

variable {α β : Type} {x : Except Fault α} {f : α → Except Fault β} {P P' : α → Prop} {Q : β → Prop}

/-- The look-up gives something that satisfies `P`. -/
def Finds (x : Except Fault α) (P : α → Prop) : Prop := ∃ a, x = .ok a ∧ P a

namespace Finds

theorem mono (h : Finds x P) (hP : ∀ a, P a → P' a) : Finds x P' :=
  h.imp fun a ha => ⟨ha.1, hP a ha.2⟩

theorem pure {a : α} (h : P a) : Finds (pure a) P := ⟨a, rfl, h⟩

theorem bind (hx : Finds x P) (hf : ∀ a, P a → Finds (f a) Q) : Finds (x >>= f) Q := by
  obtain ⟨a, rfl, ha⟩ := hx
  exact hf a ha

theorem mapM {as : List α} (hf : ∀ a ∈ as, Finds (f a) Q) :
    Finds (as.mapM f) fun bs => ∀ b ∈ bs, Q b := by
  induction as with
  | nil => exact pure (by simp)
  | cons a as ih =>
    rw [List.mapM_cons]
    apply (hf a List.mem_cons_self).bind
    intro b hb
    apply (ih fun a ha => hf a (List.mem_cons_of_mem _ ha)).bind
    exact fun bs hbs => pure (by simpa using ⟨hb, hbs⟩)

theorem filterMapM {f : α → Except Fault (Option β)} {as : List α} {R : α → β → Prop}
    (hf : ∀ a ∈ as, Finds (f a) fun r => ∀ b, r = some b ↔ R a b) :
    Finds (as.filterMapM f) fun bs => ∀ b, b ∈ bs ↔ ∃ a ∈ as, R a b := by
  induction as with
  | nil => exact pure (by simp)
  | cons a as ih =>
    rw [List.filterMapM_cons]
    obtain ⟨r, hr, hiff⟩ := hf a List.mem_cons_self
    have hrest := ih fun a ha => hf a (List.mem_cons_of_mem _ ha)
    rw [hr]
    cases r with
    | none => exact hrest.mono fun bs hbs b => by simp [hbs, ← hiff]
    | some b =>
      apply hrest.bind
      exact fun bs hbs => pure fun b' => by simp [hbs, ← hiff, eq_comm]

theorem findSomeM? {f : α → Except Fault (Option β)} {as : List α}
    (hf : ∀ a ∈ as, Finds (f a) fun r => ∀ b, r = some b → Q b) :
    Finds (as.findSomeM? f) fun r => ∀ b, r = some b → Q b := by
  induction as with
  | nil => exact pure (by simp)
  | cons a as ih =>
    apply (hf a List.mem_cons_self).bind
    intro r hr
    cases r with
    | none => exact ih fun a ha => hf a (List.mem_cons_of_mem _ ha)
    | some b => exact pure hr

theorem findM? {f : α → Except Fault Bool} {as : List α}
    (hf : ∀ a ∈ as, Finds (f a) fun _ => True) :
    Finds (as.findM? f) fun r => ∀ a, r = some a → a ∈ as := by
  induction as with
  | nil => exact pure (by simp)
  | cons a as ih =>
    apply (hf a List.mem_cons_self).bind
    intro r _
    cases r with
    | true => exact pure (by simp)
    | false =>
      apply (ih fun a ha => hf a (List.mem_cons_of_mem _ ha)).mono
      exact fun r hr b hb => List.mem_cons_of_mem _ (hr b hb)

theorem foldlM {f : β → α → Except Fault β} {as : List α}
    (hf : ∀ b, ∀ a ∈ as, Q b → Finds (f b a) Q) {b : β} (hb : Q b) :
    Finds (as.foldlM f b) Q := by
  induction as generalizing b with
  | nil => exact pure hb
  | cons a as ih =>
    rw [List.foldlM_cons]
    apply (hf b a List.mem_cons_self hb).bind
    intro b hb
    exact ih (fun b a ha => hf b a (List.mem_cons_of_mem _ ha)) hb

end Finds

/-- The call gives something that satisfies `P`, or an error of the source text; it ends in no
fault. -/
def Answers (x : Except Failure α) (P : α → Prop) : Prop :=
  (∃ a, x = .ok a ∧ P a) ∨ ∃ e, x = .error (.refused e)

namespace Answers

variable {y : Except Failure α} {g : α → Except Failure β}

theorem mono (h : Answers y P) (hP : ∀ a, P a → P' a) : Answers y P' :=
  h.imp_left fun h => h.imp fun a ha => ⟨ha.1, hP a ha.2⟩

theorem pure {a : α} (h : P a) : Answers (pure a) P := .inl ⟨a, rfl, h⟩

theorem refuse {e : Problem} : Answers (.error (.refused e)) P := .inr ⟨e, rfl⟩

theorem bind (hy : Answers y P) (hg : ∀ a, P a → Answers (g a) Q) : Answers (y >>= g) Q := by
  rcases hy with ⟨a, rfl, ha⟩ | ⟨e, rfl⟩
  · exact hg a ha
  · exact .inr ⟨e, rfl⟩

theorem lift (h : Finds x P) : Answers (liftM x) P := by
  obtain ⟨a, rfl, ha⟩ := h
  exact .inl ⟨a, rfl, ha⟩

theorem lift_bind (hx : Finds x P) (hg : ∀ a, P a → Answers (g a) Q) :
    Answers ((liftM x : Except Failure α) >>= g) Q :=
  (lift hx).bind hg

theorem liftProblem_bind {z : Except Problem α} (hg : ∀ a, z = .ok a → Answers (g a) Q) :
    Answers ((liftM z : Except Failure α) >>= g) Q := by
  cases z with
  | error e => exact .inr ⟨e, rfl⟩
  | ok a => exact hg a rfl

theorem settle (hy : Answers y P) : Finds (Failure.settle y) fun r => ∀ a, r = .ok a → P a := by
  rcases hy with ⟨a, rfl, ha⟩ | ⟨e, rfl⟩
  · exact ⟨.ok a, rfl, fun b hb => Except.ok.inj hb ▸ ha⟩
  · exact ⟨.error e, rfl, nofun⟩

end Answers
end Judgements

namespace Arena

variable {t : Table} {α : Type} {a : Arena t α} {id : Id t}

theorem finds_find (h : a.Holds id) : Finds (a.find id) fun x => a.get? id = some x := by
  obtain ⟨x, hx⟩ := h.exists_get?
  exact ⟨x, find_of_get? hx, hx⟩

end Arena

namespace NamespaceTree

variable {t : NamespaceTree} {id p : NamespaceId}

theorem holds_of_mem_outward (hid : t.table.Holds id) (h : p ∈ t.outward id) : t.table.Holds p :=
  Arena.holds_of_mem_chain hid (t.outward_eq id ▸ h)

theorem finds_outwardFrom (h : t.table.Holds id) :
    Finds (t.outwardFrom id) fun ids => ids = t.outward id ∧ ∀ p ∈ ids, t.table.Holds p := by
  apply (Arena.finds_find h).bind
  intro _ _
  exact .pure ⟨rfl, fun p => holds_of_mem_outward h⟩

end NamespaceTree

namespace Library

variable {l : Library} {start ns : NamespaceId} {n : Namespace} {id : DefId}

namespace Closed

theorem child (hl : l.Closed) (hn : l.namespaces.table.get? ns = some n) {name : String}
    {c : NamespaceId} (hc : n.children.get? name = some c) : l.namespaces.table.Holds c :=
  (hl.namespaces ns n hn).children name c hc

theorem registered (hl : l.Closed) (hn : l.namespaces.table.get? ns = some n)
    {identity : Identity} (hid : n.definitions.get? identity = some id) : l.definitions.Holds id :=
  (hl.namespaces ns n hn).definitions identity id hid

theorem aliased (hl : l.Closed) (hn : l.namespaces.table.get? ns = some n) {name : String}
    {m : Meaning} (hm : n.aliases.get? name = some m) :
    m.Within l.namespaces.table.size l.definitions.size :=
  (hl.namespaces ns n hn).aliases name m hm

theorem finds_follow (hl : l.Closed) (path : List String) (hns : l.namespaces.table.Holds ns) :
    Finds (l.namespaces.follow ns path) fun r =>
      ∀ found, r = some found → l.namespaces.table.Holds found := by
  induction path generalizing ns with
  | nil => exact .pure fun found hfound => Option.some.inj hfound ▸ hns
  | cons segment rest ih =>
    apply Finds.bind (P := fun r => ∀ c, r = some c → l.namespaces.table.Holds c)
    · apply (Arena.finds_find hns).bind
      exact fun n hn => .pure fun c hc => hl.child hn hc
    · intro r hr
      cases r with
      | none => exact .pure nofun
      | some c => exact ih (hr c rfl)

theorem finds_followAlias (hl : l.Closed) (path : List String)
    (hns : l.namespaces.table.Holds ns) :
    Finds (l.namespaces.followAlias ns path) fun r =>
      ∀ found, r = some found → l.namespaces.table.Holds found := by
  cases path with
  | nil => exact .pure nofun
  | cons first rest =>
    apply (Arena.finds_find hns).bind
    intro n hn
    split
    · rename_i target hm
      exact hl.finds_follow rest (hl.aliased hn hm)
    · exact .pure nofun

/-- What is tried at one namespace of the way outwards. -/
theorem finds_searchIn (hl : l.Closed) (path : List String)
    (hns : l.namespaces.table.Holds ns) :
    Finds (do
      match ← l.namespaces.followAlias ns path with
      | some found => return some found
      | none => l.namespaces.follow ns path) fun r =>
        ∀ found, r = some found → l.namespaces.table.Holds found := by
  apply (hl.finds_followAlias path hns).bind
  intro r hr
  cases r with
  | some found => exact .pure hr
  | none => exact hl.finds_follow path hns

theorem finds_search (hl : l.Closed) (path : List String)
    (hstart : l.namespaces.table.Holds start) :
    Finds (l.namespaces.search start path) fun r =>
      ∀ found, r = some found → l.namespaces.table.Holds found := by
  apply (NamespaceTree.finds_outwardFrom hstart).bind
  rintro ids ⟨-, hids⟩
  exact Finds.findSomeM? fun ns hns => hl.finds_searchIn path (hids ns hns)

end Closed

/-- The definition is registered under an identity of the category, or it is of the category and has
an alias. -/
def Offers (l : Library) (c : Category) (id : DefId) : Prop :=
  (∃ ns n identity, l.namespaces.table.get? ns = some n ∧
    n.definitions.get? identity = some id ∧ c.covers identity) ∨
  ∃ ns n name d, l.namespaces.table.get? ns = some n ∧
    n.aliases.get? name = some (.definition id) ∧ l.definitions.get? id = some d ∧
    c.covers d.identity

theorem Offers.holds {c : Category} (h : l.Offers c id) (hl : l.Closed) :
    l.definitions.Holds id := by
  rcases h with ⟨ns, n, identity, hn, hid, -⟩ | ⟨ns, n, name, d, -, -, hd, -⟩
  · exact hl.registered hn hid
  · exact Arena.holds_of_get? hd

theorem offers_named {c : Category} {name : String} (hn : l.namespaces.table.get? ns = some n)
    (hid : id ∈ n.named name c) : l.Offers c id := by
  obtain ⟨⟨origin, kind⟩, hmem, hget⟩ := List.mem_filterMap.1 hid
  exact .inl ⟨ns, n, ⟨origin, kind, name⟩, hn, hget, (List.mem_filter.1 hmem).2⟩

/-- Everything that a look-up has found is offered. -/
def Outcome.Offered (l : Library) (c : Category) : Outcome → Prop
  | .found id => l.Offers c id
  | .ambiguous ids => ∀ id ∈ ids, l.Offers c id
  | .notFound => True

theorem offered_ofCandidates {c : Category} {ids : List DefId} (h : ∀ id ∈ ids, l.Offers c id) :
    Outcome.Offered l c (.ofCandidates ids) := by
  match ids with
  | [] => trivial
  | [id] => exact h id List.mem_cons_self
  | _ :: _ :: _ => exact h

theorem finds_named (name : String) (c : Category) (hns : l.namespaces.table.Holds ns) :
    Finds (l.namespaces.named ns name c) fun ids => ∀ id ∈ ids, l.Offers c id := by
  apply (Arena.finds_find hns).bind
  exact fun n hn => .pure fun id hid => offers_named hn hid

theorem finds_levels (name : String) (c : Category)
    (hstart : l.namespaces.table.Holds start) :
    Finds (l.levels start name c) fun levels => ∀ ids ∈ levels, ∀ id ∈ ids, l.Offers c id := by
  apply (NamespaceTree.finds_outwardFrom hstart).bind
  rintro ids ⟨-, hids⟩
  apply (Finds.mapM fun ns hns => finds_named name c (hids ns hns)).bind
  intro all hall
  exact .pure fun ids hmem => hall ids (List.mem_filter.1 hmem).1

namespace Closed

theorem finds_aliasFor (hl : l.Closed) (name : String) (c : Category)
    (hstart : l.namespaces.table.Holds start) :
    Finds (l.aliasFor start name c) fun r => ∀ id, r = some id → l.Offers c id := by
  apply (NamespaceTree.finds_outwardFrom hstart).bind
  rintro ids ⟨-, hids⟩
  apply Finds.findSomeM?
  intro ns hns
  apply (Arena.finds_find (hids ns hns)).bind
  intro n hn
  split
  · rename_i id hm
    apply (Arena.finds_find (hl.aliased hn hm)).bind
    intro d hd
    apply Finds.pure
    intro id' hid'
    split at hid'
    · rename_i hcovers
      obtain rfl := Option.some.inj hid'
      exact .inr ⟨ns, n, name, d, hn, hm, hd, hcovers⟩
    · cases hid'
  · exact .pure nofun

theorem finds_isExplicit (hl : l.Closed) (hid : l.definitions.Holds id) :
    Finds (l.isExplicit id) fun _ => True := by
  apply (Arena.finds_find hid).bind
  intro d hd
  apply (Arena.finds_find (hl.definitions id d hd)).bind
  exact fun _ _ => .pure trivial

theorem finds_choose (hl : l.Closed) {c : Category} {levels : List (List DefId)}
    (h : ∀ ids ∈ levels, ∀ id ∈ ids, l.Offers c id) :
    Finds (l.choose levels) (Outcome.Offered l c) := by
  have hall : ∀ id ∈ levels.flatten, l.Offers c id := by
    intro id hid
    obtain ⟨ids, hids, hid⟩ := List.mem_flatten.1 hid
    exact h ids hids id hid
  change Finds (if _ then _ else _) _
  split
  · exact .pure (offered_ofCandidates hall)
  · split
    · apply Finds.pure
      apply offered_ofCandidates
      cases levels with
      | nil => simp
      | cons ids _ => exact h ids List.mem_cons_self
    · apply (Finds.findM? fun id hid => hl.finds_isExplicit ((hall id hid).holds hl)).bind
      intro r hr
      cases r with
      | some id => exact .pure (hall id (hr id rfl))
      | none =>
        apply Finds.pure
        cases hhead : levels.flatten with
        | nil => trivial
        | cons id ids =>
          rw [hhead] at hall
          exact hall id List.mem_cons_self
    · exact .pure hall

/-- A look-up from a namespace of a closed library ends, and what it finds is offered. -/
theorem finds_lookup (hl : l.Closed) (n : Name) (c : Category)
    (hstart : l.namespaces.table.Holds start) :
    Finds (l.lookup start n c) (Outcome.Offered l c) := by
  unfold lookup
  split
  · apply (hl.finds_search n.path hstart).bind
    intro r hr
    cases r with
    | none => exact .pure trivial
    | some ns =>
      apply (finds_named n.name c (hr ns rfl)).bind
      exact fun ids hids => .pure (offered_ofCandidates hids)
  · apply (hl.finds_aliasFor n.name c hstart).bind
    intro r hr
    cases r with
    | some id => exact .pure (hr id rfl)
    | none =>
      apply (finds_levels n.name c hstart).bind
      exact fun levels hlevels => hl.finds_choose hlevels

theorem finds_title (hl : l.Closed) (hid : l.definitions.Holds id) :
    Finds (l.title id) fun _ => True := by
  apply (Arena.finds_find hid).bind
  intro d hd
  apply Finds.bind (P := fun _ => True)
  · apply (Arena.finds_find (hl.definitions id d hd)).bind
    exact fun _ _ => .pure trivial
  · exact fun _ _ => .pure trivial

theorem finds_ambiguous (hl : l.Closed) (n : Name) {ids : List DefId}
    (hids : ∀ id ∈ ids, l.definitions.Holds id) : Finds (l.ambiguous n ids) fun _ => True := by
  apply (Finds.mapM fun id hid => hl.finds_title (hids id hid)).bind
  exact fun _ _ => .pure trivial

theorem finds_missing (hl : l.Closed) (n : Name) (c : Category)
    (hstart : l.namespaces.table.Holds start) :
    Finds (l.missing start n c) fun _ => True := by
  unfold missing
  split
  · exact .pure trivial
  · apply (hl.finds_lookup n .any hstart).bind
    intro r hr
    split
    · exact .pure trivial
    · rename_i id hid
      have hoffers : l.Offers .any id := by
        cases r with
        | found id' => exact Option.some.inj hid ▸ hr
        | ambiguous ids => exact hr id (List.mem_of_head? hid)
        | notFound => cases hid
      apply (Arena.finds_find (hoffers.holds hl)).bind
      exact fun _ _ => .pure trivial

/-- Resolving a name in a closed library ends in no fault, and the definition it gives is offered
for what was expected and said. -/
theorem answers_resolve (hl : l.Closed) (n : Name) (expected : Category)
    (hstart : l.namespaces.table.Holds start) :
    Answers (l.resolve start n expected) fun id =>
      ∃ c, n.combine expected = .ok c ∧ l.Offers c id := by
  apply Answers.liftProblem_bind
  intro c hc
  apply Answers.lift_bind (hl.finds_lookup n c hstart)
  intro r hr
  cases r with
  | found id => exact .pure ⟨c, hc, hr⟩
  | ambiguous ids =>
    apply Answers.lift_bind (hl.finds_ambiguous n fun id hid => (hr id hid).holds hl)
    exact fun _ _ => .refuse
  | notFound =>
    apply Answers.lift_bind (hl.finds_missing n c hstart)
    exact fun _ _ => .refuse

end Closed
end Library
end Stencil
