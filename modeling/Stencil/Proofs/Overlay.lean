import Stencil.Content.Basic

/-! # Content laid over content

Empty content changes nothing, on whichever side it is.
-/
namespace Stencil

namespace OrderedMap

variable {α β : Type}

theorem ext_entries {m m' : OrderedMap α β} (h : m.entries = m'.entries) : m = m' := by
  cases m
  cases m'
  cases h
  rfl

/-- Steps that each add an entry under a new key add the whole list. -/
theorem entries_foldl_of_append {σ : Type} (view : σ → OrderedMap α β) {f : σ → α × β → σ}
    (hf : ∀ s e, e.1 ∉ (view s).keys → (view (f s e)).entries = (view s).entries ++ [e]) {s : σ}
    {es : List (α × β)} (h : ((view s).keys ++ es.map Prod.fst).Nodup) :
    (view (es.foldl f s)).entries = (view s).entries ++ es := by
  induction es generalizing s with
  | nil => simp
  | cons e es ih =>
    rw [List.map_cons] at h
    have hnew : e.1 ∉ (view s).keys := fun hmem =>
      (List.nodup_append.1 h).2.2 e.1 hmem e.1 List.mem_cons_self rfl
    have hkeys : (view (f s e)).keys = (view s).keys ++ [e.1] := by
      rw [keys, hf s e hnew, List.map_append]
      rfl
    rw [List.foldl_cons, ih, hf s e hnew, List.append_assoc, List.singleton_append]
    rwa [hkeys, List.append_assoc, List.singleton_append]

variable [DecidableEq α]

theorem put_of_not_mem {k : α} {v : β} {es : List (α × β)} (h : k ∉ es.map Prod.fst) :
    put k v es = es ++ [(k, v)] := by
  induction es with
  | nil => rfl
  | cons e es ih =>
    rw [List.map_cons, List.mem_cons, not_or] at h
    rw [put, if_neg fun he => h.1 he.symm, ih h.2]
    rfl

theorem entries_insert_of_not_mem (m : OrderedMap α β) {k : α} {v : β} (h : k ∉ m.keys) :
    (m.insert k v).entries = m.entries ++ [(k, v)] := put_of_not_mem h

theorem get?_of_not_mem {m : OrderedMap α β} {k : α} (h : k ∉ m.keys) : m.get? k = none := by
  cases hk : m.get? k with
  | none => rfl
  | some v => exact absurd ((m.contains_iff_mem_keys k).1 (by simp [contains, hk])) h

end OrderedMap

theorem VarContent.empty_overlay (v : VarContent) : empty.overlay v = v := by
  have h : (v.vars.entries.foldl (fun m e => m.insert e.1 e.2) OrderedMap.empty).entries =
      v.vars.entries := by
    rw [OrderedMap.entries_foldl_of_append fun m => m]
    · rfl
    · exact fun m e he => m.entries_insert_of_not_mem he
    · exact v.vars.nodup
  cases v
  exact congrArg mk (OrderedMap.ext_entries h)

theorem StyleContent.empty_overlay (s : StyleContent) : empty.overlay s = s := by
  have h : (empty.overlay s).properties.entries = s.properties.entries := by
    rw [overlay, OrderedMap.entries_foldl_of_append StyleContent.properties]
    · rfl
    · intro s e he
      have hget : s.get? e.1 = none := by
        rw [get?, OrderedMap.get?_of_not_mem he]
        rfl
      have hput : s.overlayProperty e.1 e.2 = s.put e.1 e.2 := by
        simp [overlayProperty, hget]
      rw [hput]
      exact s.properties.entries_insert_of_not_mem he
    · exact s.properties.nodup
  generalize empty.overlay s = t at h
  cases t
  cases s
  exact congrArg mk (OrderedMap.ext_entries h)

namespace Content

theorem empty_overlay (b : Content) : (empty b.kind).overlay b = some b := by
  cases b with
  | style s => exact congrArg (some ∘ style) s.empty_overlay
  | element nodes => rfl
  | var v => exact congrArg (some ∘ var) v.empty_overlay

theorem overlay_empty (b : Content) : b.overlay (empty b.kind) = some b := by
  cases b with
  | style s => rfl
  | element nodes => simp [kind, empty, overlay]
  | var v => rfl

end Content
end Stencil
