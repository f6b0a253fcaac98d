import Stencil.Content.Edit
import Stencil.Library.Session

/-! # The content of a definition together with all it inherits

Inherited content comes first, in the order in which the inheritance is written, and the
definition's own content is laid over it. What is inherited may be edited on the way, and an edit
may take whole definitions out of the inheritance.

A definition may be reached again on the way to itself. The walk ends there with an error, so it is
never deeper than there are definitions.
-/
namespace Stencil.Library

/-- The definition an inheritance means. -/
def parentOf (l : Library) (d : Definition) (e : Inheritance) : Except Failure DefId :=
  l.resolve d.home e.target (.ofKind d.kind)

/-- The definitions that `id` inherits from directly; names that mean none are passed over. -/
def parents (l : Library) (id : DefId) : Except Fault (List DefId) := do
  let d ← l.find id
  d.edges.filterMapM fun e => do
    match ← Failure.settle (l.parentOf d e) with
    | .ok p => return some p
    | .error _ => return none

/-- Those of a list that are neither the root nor seen before, each once. -/
def unseen (root : DefId) : (seen ids : List DefId) → List DefId
  | _, [] => []
  | seen, p :: ps =>
    if p = root ∨ p ∈ seen then unseen root seen ps else p :: unseen root (p :: seen) ps

theorem not_mem_of_mem_unseen {root : DefId} {seen ids : List DefId} {p : DefId}
    (h : p ∈ unseen root seen ids) : p ∉ seen := by
  induction ids generalizing seen with
  | nil => simp [unseen] at h
  | cons q qs ih =>
    rw [unseen] at h
    split at h
    · exact ih h
    · rename_i hq
      rcases List.mem_cons.1 h with rfl | h
      · exact fun hp => hq (.inr hp)
      · exact fun hp => ih h (List.mem_cons_of_mem _ hp)

theorem nodup_unseen (root : DefId) (seen ids : List DefId) : (unseen root seen ids).Nodup := by
  induction ids generalizing seen with
  | nil => simp [unseen]
  | cons q qs ih =>
    rw [unseen]
    split
    · exact ih seen
    · exact List.nodup_cons.2 ⟨fun h => not_mem_of_mem_unseen h List.mem_cons_self, ih (q :: seen)⟩

/-- Each definition found is one less to find. -/
theorem unvisited_append_le {l : Library} {order fresh : List DefId} (hnodup : fresh.Nodup)
    (hnew : ∀ p ∈ fresh, p ∉ order) (h : ∀ p ∈ fresh, (l.definitions.get? p).isSome) :
    l.definitions.unvisited (order ++ fresh) + fresh.length ≤ l.definitions.unvisited order := by
  induction fresh generalizing order with
  | nil => simp
  | cons p fresh ih =>
    rw [List.nodup_cons] at hnodup
    obtain ⟨d, hd⟩ := Option.isSome_iff_exists.1 (h p List.mem_cons_self)
    have hlt : l.definitions.unvisited (order ++ [p]) < l.definitions.unvisited order :=
      Arena.unvisited_lt hd (fun i hi => List.mem_append_left _ hi)
        (hnew p List.mem_cons_self) (by simp)
    have hrest : ∀ q ∈ fresh, q ∉ order ++ [p] := by
      intro q hq hmem
      rcases List.mem_append.1 hmem with hmem | hmem
      · exact hnew q (List.mem_cons_of_mem _ hq) hmem
      · exact hnodup.1 (List.mem_singleton.1 hmem ▸ hq)
    have hle := ih hnodup.2 hrest fun q hq => h q (List.mem_cons_of_mem _ hq)
    rw [List.append_assoc, List.singleton_append] at hle
    rw [List.length_cons]
    omega

/-- A definition found leaves two steps fewer and adds one to the stack. -/
theorem collect_lt {l : Library} {root : DefId} {order ps : List DefId} (current : DefId)
    (rest : List DefId) (h : ∀ p ∈ unseen root order ps, (l.definitions.get? p).isSome) :
    2 * l.definitions.unvisited (order ++ unseen root order ps) +
        ((unseen root order ps).reverse ++ rest).length <
      2 * l.definitions.unvisited order + (current :: rest).length := by
  have hle := unvisited_append_le (nodup_unseen root order ps)
    (fun _ => not_mem_of_mem_unseen) h
  rw [List.length_append, List.length_reverse, List.length_cons]
  omega

/-- Takes up one after another the definitions on the stack, the last found first, and collects
what they inherit from. -/
def collectAncestors (l : Library) (root : DefId) (stack order : List DefId) :
    Except Fault (List DefId) :=
  match stack with
  | [] => .ok order
  | current :: rest => do
    let ps ← l.parents current
    if h : ∀ p ∈ unseen root order ps.reverse, (l.definitions.get? p).isSome then
      have := collect_lt current rest h
      l.collectAncestors root ((unseen root order ps.reverse).reverse ++ rest)
        (order ++ unseen root order ps.reverse)
    else .error .outsideTable
termination_by 2 * l.definitions.unvisited order + stack.length
decreasing_by assumption

/-- Every definition that `id` inherits from, directly or not. -/
def ancestors (l : Library) (id : DefId) : Except Fault (List DefId) :=
  l.collectAncestors id [id] []

/-- The error for a definition that is reached again; `path` has the innermost first. -/
def cycle (l : Library) (path : List DefId) (id : DefId) : Except Fault Problem := do
  let ids := id :: (path.takeWhile fun p => decide (p ≠ id)).reverse ++ [id]
  return .circular ((← ids.mapM l.find).map fun d => d.identity.render)

def checkEdits (d : Definition) (edits : List Edit) : Except Problem Unit :=
  if d.allowsEdits edits then .ok () else .error (.notEditable d.identity.render)

/-- Lays content over what was gathered for a definition. -/
def overlayFor (d : Definition) (gathered later : Content) : Except Problem Content :=
  match gathered.overlay later with
  | some b => .ok b
  | none => .error (.wrongKind d.identity.render d.kind.keyword later.kind.keyword)

/-- Adds to the excluded definitions the one that an edit of `d` names. It has to be among those
that `d` inherits from; otherwise the edit is answered by a warning. -/
def exclude (l : Library) (d : Definition) (ancestors : List DefId) (excluded : List DefId)
    (target : Name) : Resolving (List DefId) := do
  match ← Failure.settle (l.resolve d.home target (.ofKind d.kind)) with
  | .ok p =>
    if ancestors.contains p then return p :: excluded
  | .error _ => pure ()
  Resolving.report (.dangling ("delete " ++ target.render) d.identity.render) none
  return excluded

/-- Adds to the excluded definitions those that edits of `id` take out of its inheritance. -/
def excludeAll (l : Library) (id : DefId) (d : Definition) (edits : List Edit)
    (excluded : List DefId) : Resolving (List DefId) := do
  let targets := edits.filterMap Edit.deletedAncestor?
  if targets.isEmpty then return excluded
  let ancestors ← l.ancestors id
  targets.foldlM (l.exclude d ancestors) excluded

/-- The content of `id` after edits; `flat` gives its content less the excluded definitions. -/
def editFlat (l : Library) (flat : List DefId → Resolving Content) (id : DefId)
    (edits : List Edit) (excluded : List DefId) : Resolving Content := do
  if edits.isEmpty then flat excluded
  else
    let d ← l.find id
    let base ← flat (← l.excludeAll id d edits excluded)
    let (body, warnings) := Edit.applyAll l.firstIndex d.identity.render edits base
    Resolving.reportAll warnings
    return body

/-- Lays the content of one parent over what was gathered. -/
def inherit (l : Library) (d : Definition) (excluded : List DefId)
    (flat : DefId → List DefId → Resolving Content) (gathered : Content) (e : Inheritance) :
    Resolving Content := do
  let parent ← l.parentOf d e
  checkEdits d e.edits
  if excluded.contains parent then return gathered
  let inherited ← l.editFlat (flat parent) parent e.edits excluded
  overlayFor d gathered inherited

/-- The content of `d`; `flat` gives that of its parents. -/
def gather (l : Library) (d : Definition) (excluded : List DefId)
    (flat : DefId → List DefId → Resolving Content) : Resolving Content := do
  let gathered ← d.edges.foldlM (l.inherit d excluded flat) (.empty d.kind)
  overlayFor d gathered d.ownContent

/-- What is remembered of a definition. Nothing is remembered of content that leaves out excluded
definitions. -/
def remembered (excluded : List DefId) (id : DefId) :
    Resolving (Option (Except Problem Content)) :=
  if excluded.isEmpty then Resolving.remembered id else pure none

/-- The content of `id` less the excluded definitions, on the way down from those on the path. -/
def descend (l : Library) (path : List DefId) (id : DefId) (excluded : List DefId) :
    Resolving Content := do
  match ← remembered excluded id with
  | some known => known
  | none =>
    if h : id ∈ path then Resolving.refuse (← l.cycle path id)
    else
      match hd : l.definitions.get? id with
      | none => throw (.fault .outsideTable)
      | some d =>
        have := Arena.unvisited_cons_lt hd h
        let body ← l.gather d excluded fun parent ex => l.descend (id :: path) parent ex
        if excluded.isEmpty then Resolving.remember id (.ok body)
        return body
termination_by l.definitions.unvisited path
decreasing_by assumption

/-- The content of a definition. Also a failure is remembered, for the definition asked for. -/
def content (l : Library) (id : DefId) : Resolving Content := do
  match ← Resolving.remembered id with
  | some known => known
  | none =>
    match ← Resolving.attempt (l.descend [] id []) with
    | .ok body => return body
    | .error e =>
      Resolving.remember id (.error e)
      Resolving.refuse e

/-- The content of a definition as if the excluded ones were not there. -/
def contentWithout (l : Library) (id : DefId) (excluded : List DefId) : Resolving Content :=
  if excluded.isEmpty then l.content id else l.descend [] id excluded

/-- The content of a definition after edits. -/
def contentEdited (l : Library) (id : DefId) (edits : List Edit) : Resolving Content := do
  checkEdits (← l.find id) edits
  l.editFlat (l.descend [] id) id edits []

end Stencil.Library
