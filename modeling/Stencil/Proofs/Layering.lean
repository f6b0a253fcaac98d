import Stencil.Proofs.Linearization

/-! # The contents of one kind are a monoid

Content that is laid over content keeps its names in their order and takes new ones at the end, and a
value gives way only to a value. What the contents of one kind come to is settled by their names and
values, so it makes no difference which of three are laid together first.
-/
namespace Stencil

/-! ## Names and values settle content -/

namespace OrderedMap

variable {α β : Type} [DecidableEq α]

theorem map_some_entries (m : OrderedMap α β) :
    m.entries.map some = m.keys.map fun k => (m.get? k).map (Prod.mk k) := by
  rw [keys, List.map_map]
  apply List.map_congr_left
  intro e he
  have hget : m.get? e.1 = some e.2 := get?_eq_some_iff.2 he
  simp [hget]

/-- A map is settled by its keys, in their order, and what it gives for them. -/
theorem ext_get? {m m' : OrderedMap α β} (hkeys : m.keys = m'.keys)
    (hget : ∀ k, m.get? k = m'.get? k) : m = m' := by
  apply ext_entries
  apply List.map_injective_iff.2 (Option.some_injective _)
  rw [map_some_entries, map_some_entries, hkeys]
  simp only [hget]

end OrderedMap

theorem VarContent.ext_get? {v v' : VarContent} (hkeys : v.vars.keys = v'.vars.keys)
    (hget : ∀ name, v.get? name = v'.get? name) : v = v' :=
  congrArg mk (OrderedMap.ext_get? hkeys hget)

namespace StyleContent

/-- A property that is there and has no text is left open. -/
theorem properties_get? (s : StyleContent) (name : String) :
    s.properties.get? name =
      if name ∈ s.properties.keys then some ((s.get? name).elim .placeholder .concrete)
      else none := by
  split
  · rename_i hmem
    obtain ⟨value, hvalue⟩ :=
      Option.isSome_iff_exists.1 ((s.properties.contains_iff_mem_keys name).2 hmem)
    cases value <;> simp [get?, hvalue, StyleValue.text?]
  · rename_i hmem
    exact OrderedMap.get?_of_not_mem hmem

theorem ext_get? {s s' : StyleContent} (hkeys : s.properties.keys = s'.properties.keys)
    (hget : ∀ name, s.get? name = s'.get? name) : s = s' := by
  refine congrArg mk (OrderedMap.ext_get? hkeys fun name => ?_)
  rw [s.properties_get?, s'.properties_get?, hkeys, hget]

/-- A property that has a text keeps it or is given another. -/
theorem exists_concrete_overlay {s : StyleContent} {name text : String} (later : StyleContent)
    (h : s.properties.get? name = some (.concrete text)) :
    ∃ text', (s.overlay later).properties.get? name = some (.concrete text') ∧
      (text' = text ∨ later.properties.get? name = some (.concrete text')) := by
  have hconcrete (s : StyleContent) (text : String) :
      s.properties.get? name = some (.concrete text) ↔ s.get? name = some text := by
    rw [get?, Option.bind_eq_some_iff]
    constructor
    · exact fun h => ⟨_, h, rfl⟩
    · rintro ⟨value, hvalue, htext⟩
      cases value with
      | placeholder => cases htext
      | concrete text' =>
        obtain rfl := Option.some.inj htext
        exact hvalue
  simp only [hconcrete, get?_overlay] at h ⊢
  cases hlater : later.get? name with
  | none => exact ⟨text, h, .inl rfl⟩
  | some text' => exact ⟨text', rfl, .inr rfl⟩

end StyleContent

/-! ## Overlay -/

theorem eraseDups_append_of_nodup {α : Type} [DecidableEq α] {xs ys : List α} (hxs : xs.Nodup)
    (hys : ys.Nodup) :
    (xs ++ ys).eraseDups = xs ++ ys.filter fun y => decide (y ∉ xs) := by
  rw [List.eraseDups_append, eraseDups_of_nodup hxs]
  have hnew : ys.removeAll xs = ys.filter fun y => decide (y ∉ xs) := by
    simp [List.removeAll]
  rw [hnew, eraseDups_of_nodup (hys.filter _)]

namespace Content

variable {a b c r : Content} {parts : List Content}

/-- The names of the properties or variables, in their order; elements have none. -/
def names : Content → List String
  | style s => s.properties.keys
  | element _ => []
  | var v => v.vars.keys

theorem nodup_names (b : Content) : b.names.Nodup := by
  cases b with
  | style s => exact s.properties.nodup
  | element nodes => exact .nil
  | var v => exact v.vars.nodup

/-- Names that are there keep their places, and new ones come behind them in their own order. -/
theorem names_overlay (h : a.overlay b = some r) :
    r.names = a.names ++ b.names.filter fun name => decide (name ∉ a.names) := by
  cases a with
  | style s =>
    cases b with
    | style later =>
      cases h
      rw [names, s.keys_overlay]
      exact eraseDups_append_of_nodup s.properties.nodup later.properties.nodup
    | _ => cases h
  | element nodes =>
    cases b with
    | element later =>
      cases h
      rfl
    | _ => cases h
  | var v =>
    cases b with
    | var later =>
      cases h
      rw [names, v.keys_overlay]
      exact eraseDups_append_of_nodup v.vars.nodup later.vars.nodup
    | _ => cases h

theorem overlay_eq_none_iff : a.overlay b = none ↔ a.kind ≠ b.kind := by
  cases a <;> cases b <;> simp [overlay, kind]

/-- The same parts come to one content of each kind. -/
theorem Joins.unique (hb : Joins parts b) (hc : Joins parts c) (hkind : b.kind = c.kind) :
    b = c := by
  cases b with
  | style s =>
    cases c with
    | style s' =>
      obtain ⟨hkeys, htexts, -⟩ := hb.style s rfl
      obtain ⟨hkeys', htexts', -⟩ := hc.style s' rfl
      refine congrArg Content.style (StyleContent.ext_get? (hkeys.trans hkeys'.symm) fun name => ?_)
      rw [htexts, htexts']
    | _ => cases hkind
  | element nodes =>
    cases c with
    | element nodes' => rw [hb.element nodes rfl, hc.element nodes' rfl]
    | _ => cases hkind
  | var v =>
    cases c with
    | var v' =>
      obtain ⟨hkeys, hvalues⟩ := hb.var v rfl
      obtain ⟨hkeys', hvalues'⟩ := hc.var v' rfl
      refine congrArg Content.var (VarContent.ext_get? (hkeys.trans hkeys'.symm) fun name => ?_)
      rw [hvalues, hvalues']
    | _ => cases hkind

/-- Which of three contents of one kind are laid together first makes no difference. -/
theorem exists_overlay_assoc (hab : a.kind = b.kind) (hbc : b.kind = c.kind) :
    ∃ ab bc r, a.overlay b = some ab ∧ b.overlay c = some bc ∧
      ab.overlay c = some r ∧ a.overlay bc = some r := by
  obtain ⟨ab, hfirst⟩ := exists_overlay hab
  obtain ⟨bc, hlast⟩ := exists_overlay hbc
  have hkind : ab.kind = a.kind := kind_overlay hfirst
  have hkind' : bc.kind = b.kind := kind_overlay hlast
  obtain ⟨r, hr⟩ := exists_overlay (hkind.trans (hab.trans hbc))
  obtain ⟨r', hr'⟩ := exists_overlay (hab.trans hkind'.symm)
  have hjoins : Joins [a, b, c] r := ((Joins.single a).append (.single b) hfirst).append (.single c) hr
  have hjoins' : Joins [a, b, c] r' :=
    (Joins.single a).append ((Joins.single b).append (.single c) hlast) hr'
  have hsame : r.kind = r'.kind := (kind_overlay hr).trans (hkind.trans (kind_overlay hr').symm)
  obtain rfl := hjoins.unique hjoins' hsame
  exact ⟨ab, bc, r, hfirst, hlast, hr, hr'⟩

/-- Contents of one kind are laid over each other in any grouping, empty content changes nothing on
either side, no name comes twice or loses its place, and no text gives way to an open property. Content
of another kind is refused, and what it was to be laid over stays. -/
theorem overlay_monoid (a b c : Content) :
    (a.kind = b.kind → b.kind = c.kind → ∃ ab bc r, a.overlay b = some ab ∧
      b.overlay c = some bc ∧ ab.overlay c = some r ∧ a.overlay bc = some r) ∧
    (empty a.kind).overlay a = some a ∧ a.overlay (empty a.kind) = some a ∧
    (∀ r, a.overlay b = some r → r.kind = a.kind ∧ r.names.Nodup ∧
      r.names = a.names ++ b.names.filter fun name => decide (name ∉ a.names)) ∧
    (∀ s later, a = .style s → b = .style later → ∃ r, a.overlay b = some (.style r) ∧
      ∀ name text, s.properties.get? name = some (.concrete text) →
        ∃ text', r.properties.get? name = some (.concrete text') ∧
          (text' = text ∨ later.properties.get? name = some (.concrete text'))) ∧
    (a.kind ≠ b.kind → a.overlay b = none ∧ (a.overlay b).getD a = a) := by
  refine ⟨exists_overlay_assoc, a.empty_overlay, a.overlay_empty, ?_, ?_, ?_⟩
  · intro r hr
    exact ⟨kind_overlay hr, r.nodup_names, names_overlay hr⟩
  · rintro s later rfl rfl
    exact ⟨s.overlay later, rfl, fun _ _ h => StyleContent.exists_concrete_overlay later h⟩
  · intro hkind
    have hnone : a.overlay b = none := overlay_eq_none_iff.2 hkind
    exact ⟨hnone, by rw [hnone]; rfl⟩

/-- A coat that leaves the width open. -/
def undercoat : Content := .style (.ofList [("color", .concrete "red"), ("width", .placeholder)])

/-- A coat that gives a width and leaves the color open. -/
def gloss : Content :=
  .style (.ofList [("width", .concrete "2px"), ("margin", .concrete "0"), ("color", .placeholder)])

/-- A coat that leaves the margin open. -/
def varnish : Content := .style (.ofList [("margin", .placeholder), ("color", .concrete "blue")])

theorem overlay_monoid_paint :
    (undercoat.kind = gloss.kind ∧ gloss.kind = varnish.kind ∧ ∃ ab bc r,
      undercoat.overlay gloss = some ab ∧ gloss.overlay varnish = some bc ∧
      ab.overlay varnish = some r ∧ undercoat.overlay bc = some r) ∧
    (∃ r, undercoat.overlay gloss = some r ∧ r.names = ["color", "width", "margin"]) ∧
    (∃ r text, undercoat.overlay gloss = some (.style r) ∧
      r.properties.get? "color" = some (.concrete text)) ∧
    undercoat.overlay (.element [.text "bare"]) = none := by
  obtain ⟨hassoc, -, -, hnames, htexts, -⟩ := overlay_monoid undercoat gloss varnish
  obtain ⟨-, -, -, -, -, hrefused⟩ := overlay_monoid undercoat (.element [.text "bare"]) varnish
  obtain ⟨r, hr, hkept⟩ := htexts _ _ rfl rfl
  obtain ⟨text, htext, -⟩ := hkept "color" "red" (by decide +kernel)
  refine ⟨⟨rfl, rfl, hassoc rfl rfl⟩, ⟨_, hr, ?_⟩, ⟨r, text, hr, htext⟩, (hrefused nofun).1⟩
  rw [(hnames _ hr).2.2]
  decide +kernel

end Content
end Stencil
