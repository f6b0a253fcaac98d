import Stencil.Report.Fault

/-! # Tables that only grow, and the ids that point into them

An id is a 32-bit number, so the ids of a table are distinct as long as it has at most `idLimit`
entries.
-/
namespace Stencil

inductive Table where
  | scopes
  | namespaces
  | definitions
  deriving DecidableEq

def Table.label : Table → String
  | .scopes => "ScopeId"
  | .namespaces => "NamespaceId"
  | .definitions => "DefId"

/-- The number of ids, two to the power of 32. -/
def idLimit : Nat := 4294967296

structure Id (t : Table) where
  index : Nat
  deriving DecidableEq

abbrev ScopeId := Id .scopes
abbrev NamespaceId := Id .namespaces
abbrev DefId := Id .definitions

namespace Id

variable {t : Table}

/-- The id of an index: its low 32 bits. -/
def ofIndex (n : Nat) : Id t := ⟨n % idLimit⟩

instance (id : Id t) (ids : List (Id t)) : Decidable (id ∈ ids) := inferInstance

def render (id : Id t) : String := t.label ++ "#" ++ toString id.index

theorem ofIndex_of_lt {n : Nat} (h : n < idLimit) : (ofIndex n : Id t) = ⟨n⟩ := by
  rw [ofIndex, Nat.mod_eq_of_lt h]

end Id

structure Arena (t : Table) (α : Type) where
  entries : Array α

namespace Arena

variable {t : Table} {α : Type}

def size (a : Arena t α) : Nat := a.entries.size

def isEmpty (a : Arena t α) : Bool := a.entries.isEmpty

def get? (a : Arena t α) (id : Id t) : Option α := a.entries[id.index]?

/-- The entry of an id, which has to be in the table. -/
def find (a : Arena t α) (id : Id t) : Except Fault α :=
  match a.get? id with
  | some x => .ok x
  | none => .error .outsideTable

/-- The id that the next entry gets. -/
def nextId (a : Arena t α) : Id t := .ofIndex a.size

def push (a : Arena t α) (x : α) : Arena t α := ⟨a.entries.push x⟩

def modify (a : Arena t α) (id : Id t) (f : α → α) : Arena t α := ⟨a.entries.modify id.index f⟩

/-- Every entry with its id, in the order in which they came. -/
def toList (a : Arena t α) : List (Id t × α) :=
  a.entries.toList.zipIdx.map fun (x, i) => (.ofIndex i, x)

def ids (a : Arena t α) : List (Id t) := (List.range a.size).map .ofIndex

@[simp] theorem size_push (a : Arena t α) (x : α) : (a.push x).size = a.size + 1 := by
  simp [size, push]

@[simp] theorem size_modify (a : Arena t α) (id : Id t) (f : α → α) :
    (a.modify id f).size = a.size := by
  simp [size, modify]

theorem get?_push (a : Arena t α) (x : α) (id : Id t) :
    (a.push x).get? id = if id.index = a.size then some x else a.get? id := by
  rw [get?, push, Array.getElem?_push]
  rfl

theorem get?_modify (a : Arena t α) (id id' : Id t) (f : α → α) :
    (a.modify id f).get? id' = if id = id' then (a.get? id').map f else a.get? id' := by
  have h : id = id' ↔ id.index = id'.index := by
    cases id; cases id'; simp
  simp [get?, modify, Array.getElem?_modify, h]

theorem lt_size_of_get? {a : Arena t α} {id : Id t} {x : α} (h : a.get? id = some x) :
    id.index < a.size := by
  obtain ⟨h, _⟩ := Array.getElem?_eq_some_iff.1 h
  exact h

/-- How many entries have an id that is not in the list. -/
def unvisited (a : Arena t α) (visited : List (Id t)) : Nat :=
  ((List.range a.size).filter fun i => decide (⟨i⟩ ∉ visited)).length

/-- Visiting one more entry leaves fewer to visit. -/
theorem unvisited_lt {a : Arena t α} {before after : List (Id t)} {id : Id t} {x : α}
    (h : a.get? id = some x) (hsub : ∀ i ∈ before, i ∈ after) (hold : id ∉ before)
    (hnew : id ∈ after) : a.unvisited after < a.unvisited before := by
  have hfilter : ((List.range a.size).filter fun i => decide (⟨i⟩ ∉ after)) =
      ((List.range a.size).filter fun i => decide (⟨i⟩ ∉ before)).filter
        fun i => decide (⟨i⟩ ∉ after) := by
    rw [List.filter_filter]
    apply List.filter_congr
    intro i _
    by_cases hi : (⟨i⟩ : Id t) ∈ after
    · simp [hi]
    · have hb : (⟨i⟩ : Id t) ∉ before := fun hb => hi (hsub _ hb)
      simp [hi, hb]
  rw [unvisited, unvisited, hfilter, List.length_filter_lt_length_iff_exists]
  refine ⟨id.index, ?_, ?_⟩
  · simp [lt_size_of_get? h, hold]
  · simpa using hnew

theorem unvisited_cons_lt {a : Arena t α} {visited : List (Id t)} {id : Id t} {x : α}
    (h : a.get? id = some x) (hold : id ∉ visited) :
    a.unvisited (id :: visited) < a.unvisited visited :=
  unvisited_lt h (fun _ hi => List.mem_cons_of_mem _ hi) hold List.mem_cons_self

end Arena
end Stencil
