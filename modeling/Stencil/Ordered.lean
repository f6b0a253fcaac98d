/-! # Maps and sets that remember the order in which their keys came

Writing to a key that is there keeps its place; a new key goes last.
-/
namespace Stencil

structure OrderedMap (α β : Type) where
  entries : List (α × β)
  nodup : (entries.map Prod.fst).Nodup
  deriving DecidableEq

namespace OrderedMap

variable {α β : Type}

def empty : OrderedMap α β := ⟨[], by simp⟩

instance : Inhabited (OrderedMap α β) := ⟨empty⟩

def keys (m : OrderedMap α β) : List α := m.entries.map Prod.fst

def values (m : OrderedMap α β) : List β := m.entries.map Prod.snd

def size (m : OrderedMap α β) : Nat := m.entries.length

def isEmpty (m : OrderedMap α β) : Bool := m.entries.isEmpty

variable [DecidableEq α]

def get? (m : OrderedMap α β) (k : α) : Option β :=
  (m.entries.find? fun e => decide (e.1 = k)).map Prod.snd

def contains (m : OrderedMap α β) (k : α) : Bool := (m.get? k).isSome

/-- Writes `v` at the entry of `k`, or adds an entry at the end. -/
def put (k : α) (v : β) : List (α × β) → List (α × β)
  | [] => [(k, v)]
  | e :: es => if e.1 = k then (k, v) :: es else e :: put k v es

theorem keys_put (k : α) (v : β) (es : List (α × β)) :
    (put k v es).map Prod.fst =
      if k ∈ es.map Prod.fst then es.map Prod.fst else es.map Prod.fst ++ [k] := by
  induction es with
  | nil => simp [put]
  | cons e es ih =>
    by_cases h : e.1 = k
    · simp [put, h]
    · have hk : ¬ k = e.1 := fun hk => h hk.symm
      by_cases hm : k ∈ es.map Prod.fst <;> simp_all [put]

theorem nodup_put (k : α) (v : β) {es : List (α × β)} (h : (es.map Prod.fst).Nodup) :
    ((put k v es).map Prod.fst).Nodup := by
  rw [keys_put]
  split
  · exact h
  · rename_i hk
    rw [List.nodup_append]
    refine ⟨h, by simp, ?_⟩
    intro a ha b hb hab
    simp at hb
    subst hb hab
    exact hk ha

def insert (m : OrderedMap α β) (k : α) (v : β) : OrderedMap α β :=
  ⟨put k v m.entries, nodup_put k v m.nodup⟩

def erase (m : OrderedMap α β) (k : α) : OrderedMap α β :=
  ⟨m.entries.filter fun e => decide (e.1 ≠ k),
    (List.filter_sublist.map Prod.fst).nodup m.nodup⟩

@[simp] theorem get?_empty (k : α) : (empty : OrderedMap α β).get? k = none := rfl

theorem find?_put (k k' : α) (v : β) (es : List (α × β)) :
    ((put k v es).find? fun e => decide (e.1 = k')).map Prod.snd =
      if k = k' then some v else (es.find? fun e => decide (e.1 = k')).map Prod.snd := by
  induction es with
  | nil => by_cases h : k = k' <;> simp [put, h]
  | cons e es ih =>
    rw [put]
    split
    · rename_i he
      by_cases h : k = k' <;> simp [he, h]
    · rename_i he
      by_cases h' : e.1 = k'
      · have h : k ≠ k' := fun h => he (h'.trans h.symm)
        simp [h', h]
      · simpa [h'] using ih

theorem get?_insert (m : OrderedMap α β) (k k' : α) (v : β) :
    (m.insert k v).get? k' = if k = k' then some v else m.get? k' :=
  find?_put k k' v m.entries

theorem keys_insert (m : OrderedMap α β) (k : α) (v : β) :
    (m.insert k v).keys = if k ∈ m.keys then m.keys else m.keys ++ [k] :=
  keys_put k v m.entries

theorem get?_erase (m : OrderedMap α β) (k k' : α) :
    (m.erase k).get? k' = if k = k' then none else m.get? k' := by
  obtain ⟨es, nodup⟩ := m
  simp only [get?, erase]
  clear nodup
  induction es with
  | nil => simp
  | cons e es ih =>
    by_cases he : e.1 = k
    · rw [List.filter_cons_of_neg (by simpa using he), ih]
      by_cases h : k = k' <;> simp [h, he]
    · rw [List.filter_cons_of_pos (by simpa using he)]
      by_cases h' : e.1 = k'
      · have h : k ≠ k' := fun h => he (h'.trans h.symm)
        rw [List.find?_cons_of_pos (by simpa using h'), List.find?_cons_of_pos (by simpa using h'),
          if_neg h]
      · rw [List.find?_cons_of_neg (by simpa using h'), List.find?_cons_of_neg (by simpa using h'),
          ih]

theorem contains_iff_mem_keys (m : OrderedMap α β) (k : α) : m.contains k ↔ k ∈ m.keys := by
  simp [contains, get?, keys, List.find?_isSome]

theorem get?_eq_some_iff {m : OrderedMap α β} {k : α} {v : β} :
    m.get? k = some v ↔ (k, v) ∈ m.entries := by
  obtain ⟨es, nodup⟩ := m
  simp only [get?]
  induction es with
  | nil => simp
  | cons e es ih =>
    rw [List.map_cons, List.nodup_cons] at nodup
    by_cases he : e.1 = k
    · have hnot : (k, v) ∉ es := fun h => nodup.1 (he ▸ List.mem_map_of_mem h)
      rw [List.find?_cons_of_pos (by simpa using he), List.mem_cons, or_iff_left hnot]
      constructor
      · rintro h
        exact Prod.ext he.symm (Option.some.inj h).symm
      · rintro rfl
        rfl
    · have hne : (k, v) ≠ e := fun h => he (congrArg Prod.fst h).symm
      rw [List.find?_cons_of_neg (by simpa using he), List.mem_cons, or_iff_right hne]
      exact ih nodup.2

/-- Inserts the entries of a list one by one. -/
def insertMany (m : OrderedMap α β) (es : List (α × β)) : OrderedMap α β :=
  es.foldl (fun m e => m.insert e.1 e.2) m

def ofList (es : List (α × β)) : OrderedMap α β := empty.insertMany es

end OrderedMap

/-- Distinct names in the order in which they came. -/
structure NameSet where
  toList : List String
  nodup : toList.Nodup
  deriving DecidableEq

namespace NameSet

def empty : NameSet := ⟨[], by simp⟩

def insert (s : NameSet) (name : String) : NameSet :=
  if h : name ∈ s.toList then s
  else ⟨s.toList ++ [name], by
    rw [List.nodup_append]
    refine ⟨s.nodup, by simp, ?_⟩
    intro a ha b hb hab
    simp at hb
    subst hb hab
    exact h ha⟩

def ofList (names : List String) : NameSet := names.foldl insert empty

end NameSet
end Stencil
