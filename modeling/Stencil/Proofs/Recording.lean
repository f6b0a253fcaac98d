import Stencil.Proofs.Import
import Stencil.Proofs.Reachable
import Stencil.Proofs.Warnings

/-! # Every refusal is recorded once

Registration does not report anything itself, and what is asked reports warnings before it is refused.
So the error with which a call ends is the only one that is recorded for it, and the last of what is
recorded. What was recorded before stays.
-/
namespace Stencil

namespace Compiling

variable {α β : Type} {c c' : Compilation} {x : Compiling α} {f : α → Compiling β}

/-! ## Registration -/

/-- The step leaves the session as it is, and every failure of it counts as an error. -/
structure Registers (x : Compiling α) (c : Compilation) : Prop where
  session : (x.after c).session = c.session
  severe : FailsWith Failure.Severe (x.outcome c)

namespace Registers

theorem pure (a : α) : Registers (pure a) c := ⟨rfl, .ok a⟩

theorem throw {e : Failure} (h : e.Severe) : Registers (throw e : Compiling α) c := ⟨rfl, .error h⟩

theorem refuse {e : Problem} (h : e.severity = .error) : Registers (refuse e : Compiling α) c :=
  throw h

theorem bind (hx : Registers x c) (hf : ∀ a, Registers (f a) (x.after c)) :
    Registers (x >>= f) c := by
  cases h : x.outcome c with
  | error e =>
    constructor
    · rw [after, run_bind, h]
      exact hx.session
    · rw [outcome, run_bind, h]
      exact .error (hx.severe e h)
  | ok a =>
    constructor
    · rw [after, run_bind, h]
      exact (hf a).session.trans hx.session
    · rw [outcome, run_bind, h]
      exact (hf a).severe

theorem lift {r : Except Failure α} (hr : FailsWith Failure.Severe r) :
    Registers (liftM r : Compiling α) c := by
  cases r with
  | error e => exact throw (hr e rfl)
  | ok a => exact pure a

theorem lift_bind {r : Except Failure α} (hr : FailsWith Failure.Severe r)
    (hf : ∀ a, Registers (f a) c) : Registers ((liftM r : Compiling α) >>= f) c := by
  cases r with
  | error e => exact throw (hr e rfl)
  | ok a => exact hf a

theorem liftFault_bind {r : Except Fault α} (hf : ∀ a, Registers (f a) c) :
    Registers ((liftM r : Compiling α) >>= f) c := by
  cases r with
  | error e => exact throw trivial
  | ok a => exact hf a

theorem get_bind {g : Compilation → Compiling β} (h : Registers (g c) c) :
    Registers ((get : Compiling Compilation) >>= g) c := ⟨h.session, h.severe⟩

theorem set (h : c'.session = c.session) : Registers (set c' : Compiling PUnit) c := ⟨h, .ok _⟩

theorem forM {g : α → Compiling Unit} (hg : ∀ a c, Registers (g a) c) (as : List α)
    (c : Compilation) : Registers (as.forM g) c := by
  induction as generalizing c with
  | nil => exact pure ()
  | cons a as ih => exact bind (hg a c) fun _ => ih _

end Registers

theorem parseName_registers (token : String) (c : Compilation) : Registers (parseName token) c := by
  unfold parseName
  split
  · exact .pure _
  · exact .refuse rfl

theorem parseDotted_registers (shown : String) (path : List Char) (c : Compilation) :
    Registers (parseDotted shown path) c := by
  unfold parseDotted
  split
  · exact .pure _
  · exact .refuse rfl

theorem openFile_registers (stem : String) (c : Compilation) : Registers (openFile stem) c := by
  apply Registers.get_bind
  change Registers (if _ then _ else _) c
  split
  · exact .pure _
  · exact .liftFault_bind fun _ => .set rfl

theorem closeFile_registers (c : Compilation) : Registers closeFile c := by
  apply Registers.get_bind
  split
  · exact .pure _
  · refine .bind (.set rfl) fun _ => ?_
    split
    · exact .pure _
    · exact .throw trivial

theorem openNamespacePath_registers (path : List String) (c : Compilation) :
    Registers (openNamespacePath path) c := by
  apply Registers.get_bind
  refine .liftFault_bind fun parent => .liftFault_bind fun opened => ?_
  cases path with
  | nil => exact ⟨rfl, .ok _⟩
  | cons first rest =>
    refine .liftFault_bind fun head => ?_
    cases head with
    | none => exact ⟨rfl, .ok _⟩
    | some ns => exact ⟨rfl, .ok _⟩

theorem closeNamespace_registers (c : Compilation) : Registers closeNamespace c := by
  apply Registers.get_bind
  refine .liftFault_bind fun scope => ?_
  change Registers (if _ then _ else _) c
  split
  · exact .liftFault_bind fun _ => .set rfl
  · exact .throw trivial

theorem openScope_registers (kind : BlockKind) (c : Compilation) : Registers (openScope kind) c := by
  apply Registers.get_bind
  exact .liftFault_bind fun _ => .bind (.set rfl) fun _ => .pure _

theorem closeScope_registers (c : Compilation) : Registers closeScope c := by
  apply Registers.get_bind
  exact .liftFault_bind fun _ => .bind (.set rfl) fun _ => .pure _

theorem addDefinition_registers (ns : NamespaceId) (identity : Identity) (id : DefId)
    (c : Compilation) : Registers (addDefinition ns identity id) c := by
  apply Registers.get_bind
  refine .lift_bind (.lift_bind (fun _ => trivial) fun n _ => ?_) fun _ => .set rfl
  split
  · exact .error rfl
  · exact .ok _

theorem addAlias_registers (ns : NamespaceId) (name : String) (target : Meaning)
    (c : Compilation) : Registers (addAlias ns name target) c := by
  apply Registers.get_bind
  refine .lift_bind (.lift_bind (fun _ => trivial) fun n _ => ?_) fun _ => .set rfl
  split
  · exact .error rfl
  · exact .ok _

theorem bind_registers (name : String) (meaning : Meaning) (c : Compilation) :
    Registers (bind name meaning) c := by
  apply Registers.get_bind
  refine .lift_bind (.lift_bind (fun _ => trivial) fun scope _ => ?_) fun _ => .set rfl
  split
  · exact .error rfl
  · exact .ok _

theorem addRule_registers (denial : Denial) (reach : Reach) (span : Option Span)
    (c : Compilation) : Registers (addRule denial reach span) c := by
  have hsite : Registers (ruleSite reach) c := by
    cases reach with
    | scope => exact .get_bind (.pure _)
    | global => exact .get_bind (.liftFault_bind fun _ => .pure _)
  exact .bind hsite fun _ => ⟨rfl, .ok _⟩

theorem checkAliasName_registers (name : String) (c : Compilation) :
    Registers (checkAliasName name) c := by
  unfold checkAliasName
  split
  · exact .pure ()
  · exact .refuse rfl

/-! ## Recording -/

/-- What the step is refused for counts as an error, and before that only warnings are reported. -/
def Refuses (x : Compiling α) (c : Compilation) : Prop :=
  ∀ e, x.outcome c = .error (.refused e) →
    e.severity = .error ∧ c.diagnostics.Warned (x.after c).diagnostics

/-- Where the step gives something, only warnings are reported. -/
def Warns (x : Compiling α) (c : Compilation) : Prop :=
  ∀ a, x.outcome c = .ok a → c.diagnostics.Warned (x.after c).diagnostics

/-- Where the step is refused, warnings are reported and at last what it was refused for, which is the
only error among them. -/
def Records (x : Compiling α) (c : Compilation) : Prop :=
  ∀ e, x.outcome c = .error (.refused e) → ∃ warnings span,
    (x.after c).diagnostics = c.diagnostics ++ warnings ++ [.ofError e span] ∧
    (∀ w ∈ warnings, w.isWarning = true) ∧ (Diagnostic.ofError e span).isError = true

theorem Records.get_bind {g : Compilation → Compiling β} (h : Records (g c) c) :
    Records ((get : Compiling Compilation) >>= g) c := h

theorem Warns.get_bind {g : Compilation → Compiling β} (h : Warns (g c) c) :
    Warns ((get : Compiling Compilation) >>= g) c := h

theorem after_recording_of_refused (span : Option Span) {e : Problem}
    (h : x.outcome c = .error (.refused e)) :
    ((recording span x).after c).diagnostics = (x.after c).diagnostics.report e span := by
  rw [after, recording, run_tryCatch, h]
  rfl

theorem after_recording_of_ok (span : Option Span) {a : α} (h : x.outcome c = .ok a) :
    (recording span x).after c = x.after c := by
  rw [after, recording, run_tryCatch, h]

theorem Refuses.recording (h : Refuses x c) (span : Option Span) : Records (recording span x) c := by
  intro e he
  rw [outcome_recording] at he
  obtain ⟨hsevere, warnings, hafter, hwarnings⟩ := h e he
  refine ⟨warnings, span, ?_, hwarnings, ?_⟩
  · rw [after_recording_of_refused span he, hafter]
    rfl
  · simp [Diagnostic.isError, Diagnostic.ofError, hsevere]

theorem Warns.recording (h : Warns x c) (span : Option Span) : Warns (recording span x) c := by
  intro a ha
  rw [outcome_recording] at ha
  rw [after_recording_of_ok span ha]
  exact h a ha

theorem Registers.refuses (h : Registers x c) : Refuses x c := by
  intro e he
  refine ⟨h.severe _ he, ?_⟩
  rw [Compilation.diagnostics, Compilation.diagnostics, h.session]
  exact .refl _

theorem Registers.warns (h : Registers x c) : Warns x c := by
  intro a _
  rw [Compilation.diagnostics, Compilation.diagnostics, h.session]
  exact .refl _

namespace Registers

theorem bind_refuses (hx : Registers x c) (hf : ∀ a, Refuses (f a) (x.after c)) :
    Refuses (x >>= f) c := by
  intro e he
  rw [outcome, run_bind] at he
  rw [after, run_bind]
  cases h : x.outcome c with
  | error e' =>
    rw [h] at he
    cases he
    exact hx.refuses e h
  | ok a =>
    rw [h] at he
    obtain ⟨hsevere, hwarned⟩ := hf a e he
    rw [Compilation.diagnostics, hx.session] at hwarned
    exact ⟨hsevere, hwarned⟩

theorem bind_warns (hx : Registers x c) (hf : ∀ a, Warns (f a) (x.after c)) :
    Warns (x >>= f) c := by
  intro b hb
  rw [outcome, run_bind] at hb
  rw [after, run_bind]
  cases h : x.outcome c with
  | error e =>
    rw [h] at hb
    cases hb
  | ok a =>
    rw [h] at hb
    have hwarned := hf a b hb
    rw [Compilation.diagnostics, hx.session] at hwarned
    exact hwarned

/-- A second recorded step begins where the first was not refused. -/
theorem bind_records {span : Option Span} (hx : Registers x c)
    (hf : ∀ a, Records (f a) (x.after c)) : Records (recording span x >>= f) c := by
  intro e he
  rw [outcome, run_bind, outcome_recording] at he
  rw [after, run_bind, outcome_recording]
  cases h : x.outcome c with
  | error e' =>
    rw [h] at he
    cases he
    exact hx.refuses.recording span e ((outcome_recording span x c).trans h)
  | ok a =>
    rw [h, after_recording_of_ok span h] at he
    have hrecords := hf a e he
    rw [Compilation.diagnostics, Compilation.diagnostics, hx.session] at hrecords
    rw [after_recording_of_ok span h]
    exact hrecords

end Registers

/-- Diagnostics are only added. -/
def Appends (x : Compiling α) (c : Compilation) : Prop := c.diagnostics <+: (x.after c).diagnostics

theorem Appends.recording (h : Appends x c) (span : Option Span) : Appends (recording span x) c := by
  rcases hx : x.outcome c with (e | f) | a
  · rw [Appends, after_recording_of_refused span hx]
    exact h.trans (List.prefix_append _ _)
  · rw [Appends, after, Compiling.recording, run_tryCatch, hx]
    exact h
  · rw [Appends, after_recording_of_ok span hx]
    exact h

namespace Appends

theorem of_session (h : (x.after c).session = c.session) : Appends x c := by
  rw [Appends, Compilation.diagnostics, Compilation.diagnostics, h]

theorem bind (hx : Appends x c) (hf : ∀ a, Appends (f a) (x.after c)) : Appends (x >>= f) c := by
  rw [Appends, after, run_bind]
  cases x.outcome c with
  | error e => exact hx
  | ok a => exact hx.trans (hf a)

theorem report (e : Problem) (span : Option Span) : Appends (report e span) c :=
  List.prefix_append _ _

theorem forM {g : α → Compiling Unit} (hg : ∀ a c, Appends (g a) c) (as : List α)
    (c : Compilation) : Appends (as.forM g) c := by
  induction as generalizing c with
  | nil => exact of_session rfl
  | cons a as ih => exact bind (hg a c) fun _ => ih _

theorem foldlM {g : β → α → Compiling β} (hg : ∀ b a c, Appends (g b a) c) (as : List α) (b : β)
    (c : Compilation) : Appends (as.foldlM g b) c := by
  induction as generalizing b c with
  | nil => exact of_session rfl
  | cons a as ih =>
    rw [List.foldlM_cons]
    exact bind (hg b a c) fun b => ih b _

end Appends

theorem Registers.appends (h : Registers x c) : Appends x c := .of_session h.session

/-- The step is a registration of which the refusal is recorded. -/
def RegistersOrRecords (y : Compiling α) (c : Compilation) : Prop :=
  ∃ span x, y = recording span x ∧ Registers x c

namespace RegistersOrRecords

theorem recorded {p : Prop} (h : RegistersOrRecords x c) : Records x c ∧ (p → Warns x c) := by
  obtain ⟨span, y, rfl, hy⟩ := h
  exact ⟨hy.refuses.recording span, fun _ => hy.warns.recording span⟩

theorem appends (h : RegistersOrRecords x c) : Appends x c := by
  obtain ⟨span, y, rfl, hy⟩ := h
  exact hy.appends.recording span

end RegistersOrRecords

theorem openNamespace_records (path : String) (c : Compilation) :
    RegistersOrRecords (openNamespace path) c := by
  refine ⟨none, _, rfl, ?_⟩
  refine .bind (parseDotted_registers path _ c) fun segments => ?_
  exact openNamespacePath_registers segments _

theorem addGroup_records (identity : Identity) (body : Content) (edges : List Inheritance)
    (noValue : NameSet) (span : Option Span) (c : Compilation) :
    RegistersOrRecords (addGroup identity body edges noValue span) c := by
  refine ⟨span, _, rfl, ?_⟩
  change Registers (if _ then _ else _) c
  split
  · exact .refuse rfl
  · refine .get_bind (.liftFault_bind fun home => ?_)
    refine .bind ⟨rfl, .ok _⟩ fun id => ?_
    refine .bind (addDefinition_registers home identity id _) fun _ => ?_
    exact .bind (bind_registers _ _ _) fun _ => .pure id

theorem addClause_records (clause : String) (reach : Reach) (span : Option Span)
    (c : Compilation) : RegistersOrRecords (addClause clause reach span) c := by
  refine ⟨span, _, rfl, ?_⟩
  split
  · exact .forM (fun denial c => addRule_registers denial reach span c) _ c
  · exact .refuse rfl

theorem nameDefinition_records (name target : String) (span : Option Span) (c : Compilation) :
    RegistersOrRecords (nameDefinition name target span) c := by
  have htarget (home : NamespaceId) :
      FailsWith Failure.Severe (c.library.resolveText home target .any) := by
    unfold Library.resolveText
    split
    · exact c.library.resolve_severe _ _ _
    · exact .error rfl
  refine ⟨span, _, rfl, .get_bind (.liftFault_bind fun home => ?_)⟩
  refine .bind (checkAliasName_registers name c) fun _ => .lift_bind (htarget home) fun id => ?_
  exact .bind (addAlias_registers home name _ _) fun _ => .pure id

theorem nameNamespace_records (name path : String) (span : Option Span) (c : Compilation) :
    RegistersOrRecords (nameNamespace name path span) c := by
  refine ⟨span, _, rfl, .get_bind (.liftFault_bind fun home => ?_)⟩
  refine .bind (checkAliasName_registers name c) fun _ => ?_
  refine .bind (parseDotted_registers path _ _) fun segments => .liftFault_bind fun found => ?_
  cases found with
  | none => exact .refuse rfl
  | some target => exact .bind (addAlias_registers home name _ _) fun _ => .pure target

/-! ## Requests -/

theorem definitionFor_records (token : String) (expected : Category) (site : UseSite)
    (c : Compilation) : RegistersOrRecords (definitionFor token expected site) c := by
  refine ⟨none, _, rfl, .bind (parseName_registers token c) fun n => .get_bind ?_⟩
  exact .lift (Environment.resolveUse_severe n expected)

theorem checkTag_records (tag : String) (site : UseSite) (c : Compilation) :
    RegistersOrRecords (checkTag tag site) c :=
  ⟨none, _, rfl, .get_bind (.lift (Environment.checkUse_severe (.element tag)))⟩

theorem refuses_resolving {x : Environment → Resolving α} (h : ∀ env, (x env).Refuses)
    (hc : c.session.Severe) : Refuses (resolving x) c :=
  fun e he => h c.environment c.session e hc he

theorem warns_resolving {x : Environment → Resolving α} (h : ∀ env, (x env).Warns)
    (hc : c.session.Severe) : Warns (resolving x) c :=
  fun _ _ => (h c.environment c.diagnostics c.session ⟨.refl _, hc⟩).2.diagnostics

theorem contentOf_records (hc : c.session.Severe) (id : DefId) : Records (contentOf id) c := by
  apply Records.get_bind
  split
  · exact Refuses.recording (Registers.refuses (.refuse rfl)) none
  · refine (refuses_resolving (fun env => ?_) hc).recording _
    exact .of_warns (Library.content_warns id)

theorem contentOf_warns (hc : c.session.Severe) (id : DefId) : Warns (contentOf id) c := by
  apply Warns.get_bind
  split
  · exact Warns.recording (Registers.warns (.refuse rfl)) none
  · exact (warns_resolving (fun env => Library.content_warns id) hc).recording _

theorem variableValue_records (hc : c.session.Severe) (group key : String)
    (override : Option String) (site : UseSite) :
    Records (variableValue group key override site) c := by
  refine Refuses.recording ((parseName_registers group c).bind_refuses fun n => ?_) none
  refine refuses_resolving (fun env => ?_) ((parseName_registers group c).session ▸ hc)
  exact .of_warns (Environment.variableValue_warns n key override)

theorem variableValue_warns (hc : c.session.Severe) (group key : String)
    (override : Option String) (site : UseSite) :
    Warns (variableValue group key override site) c := by
  refine Warns.recording ((parseName_registers group c).bind_warns fun n => ?_) none
  refine warns_resolving (fun env => ?_) ((parseName_registers group c).session ▸ hc)
  exact Environment.variableValue_warns n key override

theorem instanceOfName_records (hc : c.session.Severe) (n : Name) (edits : List Edit)
    (expected : Category) (site : UseSite) (span : Option Span) :
    Records (instanceOfName n edits expected site span) c :=
  (refuses_resolving (fun _ => Environment.instanceOf_refuses n edits expected) hc).recording span

theorem instanceFor_records (hc : c.session.Severe) (token : String) (expected : Category)
    (site : UseSite) : Records (instanceFor token expected site) c := by
  refine (parseName_registers token c).bind_records fun n => ?_
  exact instanceOfName_records ((parseName_registers token c).session ▸ hc) n [] expected site none

end Compiling

/-! ## What was recorded stays -/

namespace Compilation

variable {c c' : Compilation}

theorem kept_reported (ds : Diagnostics) : Compiling.Kept fun _ => Session.Reported ds :=
  fun l => l.respects_reported ds

theorem Extends.severe (h : c.Extends c') (hc : c.session.Severe) : c'.session.Severe := by
  intro id e he
  rcases h.cache with hcache | hcache
  · rw [hcache] at he
    exact hc id e he
  · rw [hcache] at he
    cases he

/-- Whatever is done, errors that are remembered count as errors. -/
theorem Reachable.severe (hc : c.Reachable) : c.session.Severe := by
  induction hc with
  | initial config =>
    intro id e he
    cases he
  | @step c op _ ih =>
    rcases op.after_extends c with ⟨r, rfl⟩ | hop
    · obtain ⟨s, hs, hreported⟩ := r.after_resolves (kept_reported []) c
      rw [Operation.after, hs]
      exact (hreported ⟨List.nil_prefix, ih⟩).severe
    · exact hop.severe ih
  | @mount c other path _ _ ih _ => exact (Compiling.mount_extending other path c).severe ih

end Compilation

namespace Compiling

theorem importDefinition_appends (other : Compilation) (target : NamespaceId) (moved : Moved)
    (old : DefId) (c : Compilation) : Appends (importDefinition other target moved old) c := by
  refine .bind (.of_session rfl) fun d => .bind (.of_session rfl) fun id => ?_
  refine .bind (.of_session rfl) fun current => .bind (.of_session rfl) fun inserted => ?_
  cases inserted with
  | ok namespaces => exact .bind (.of_session rfl) fun _ => .of_session rfl
  | error e =>
    refine .bind (.of_session rfl) fun current => .bind (.of_session rfl) fun kept => ?_
    exact .bind (.report e d.span) fun _ => .of_session rfl

theorem importAlias_appends (moved : Moved) (mapping : List NamespaceId) (target : NamespaceId)
    (entry : String × Meaning) (c : Compilation) :
    Appends (importAlias moved mapping target entry) c := by
  refine .bind (.of_session rfl) fun meaning => ?_
  cases meaning with
  | none => exact .of_session rfl
  | some meaning =>
    refine .bind (.of_session rfl) fun current => .bind (.of_session rfl) fun added => ?_
    cases added with
    | ok namespaces => exact .of_session rfl
    | error e => exact .report e none

theorem importRule_appends (mapping : List NamespaceId) (r : Rule) (c : Compilation) :
    Appends (importRule mapping r) c := by
  unfold importRule
  split
  · exact .of_session rfl
  · split <;> exact .of_session rfl

theorem openPlaces_registers (other : Compilation) (path : List String) (c : Compilation) :
    Registers (openPlaces other path) c := by
  refine .get_bind (.liftFault_bind fun top => .liftFault_bind fun copied => ?_)
  exact .bind (.set rfl) fun _ => .pure _

theorem importInto_appends (other : Compilation) (mapping : List NamespaceId) (c : Compilation) :
    Appends (importInto other mapping) c := by
  unfold importInto
  apply Appends.bind
  · refine .foldlM (fun moved e c => ?_) _ _ c
    exact importDefinition_appends other e.1 moved e.2 c
  · intro moved
    apply Appends.bind
    · refine .forM (fun e c => ?_) _ _
      exact importAlias_appends moved mapping e.1 e.2 c
    · intro _
      apply Appends.bind
      · exact .forM (importRule_appends mapping) _ _
      · exact fun _ => List.prefix_append _ _

theorem mount_appends (other : Compilation) (path : List String) (c : Compilation) :
    Appends (mount other path) c := by
  rw [mount_eq]
  apply Appends.bind
  · exact (openPlaces_registers other path c).appends
  · exact fun mapping => importInto_appends other mapping _

end Compiling

namespace Operation

open Compiling

variable {c : Compilation}

theorem after_appends (hc : c.session.Severe) {op : Operation} (hop : op ≠ .drainDiagnostics) :
    c.diagnostics <+: (op.after c).diagnostics := by
  cases op with
  | openFile stem => exact (openFile_registers stem c).appends
  | closeFile => exact (closeFile_registers c).appends
  | openNamespacePath path => exact (openNamespacePath_registers path c).appends
  | openNamespace path => exact (openNamespace_records path c).appends
  | closeNamespace => exact (closeNamespace_registers c).appends
  | openScope kind => exact (openScope_registers kind c).appends
  | closeScope => exact (closeScope_registers c).appends
  | addGroup identity body edges noValue span =>
    exact (addGroup_records identity body edges noValue span c).appends
  | addRule denial reach span => exact (addRule_registers denial reach span c).appends
  | addClause clause reach span => exact (addClause_records clause reach span c).appends
  | nameDefinition name target span => exact (nameDefinition_records name target span c).appends
  | nameNamespace name path span => exact (nameNamespace_records name path span c).appends
  | setConfig config => exact List.prefix_rfl
  | drainDiagnostics => exact absurd rfl hop
  | request r =>
    obtain ⟨s, hs, hreported⟩ := r.after_resolves (Compilation.kept_reported c.diagnostics) c
    rw [Operation.after, hs]
    exact (hreported ⟨List.prefix_rfl, hc⟩).le

end Operation

/-! ## The calls that can be refused -/

/-- A call that can be refused, by what it gives otherwise. -/
inductive Call : Type → Type
  | openNamespace (path : String) : Call NamespaceId
  | addTemplate (identity : Identity) (body : Content) (edges : List Inheritance) : Call DefId
  | addCustom (identity : Identity) (body : Content) (edges : List Inheritance)
    (noValue : NameSet) : Call DefId
  | addGroup (identity : Identity) (body : Content) (edges : List Inheritance)
    (noValue : NameSet) (span : Option Span) : Call DefId
  | addClause (clause : String) (reach : Reach) (span : Option Span) : Call Unit
  | nameDefinition (name target : String) (span : Option Span) : Call DefId
  | nameNamespace (name path : String) (span : Option Span) : Call NamespaceId
  | definitionFor (token : String) (expected : Category) (site : UseSite) : Call DefId
  | instanceFor (token : String) (expected : Category) (site : UseSite) : Call Instance
  | instanceOfUsage (u : Usage) (expected : Category) (site : UseSite) : Call Instance
  | instanceOfName (n : Name) (edits : List Edit) (expected : Category) (site : UseSite)
    (span : Option Span) : Call Instance
  | contentOf (id : DefId) : Call Content
  | checkTag (tag : String) (site : UseSite) : Call Unit
  | variableValue (group key : String) (override : Option String) (site : UseSite) : Call String

namespace Call

open Compiling

variable {α : Type} {c : Compilation}

/-- The step that the call is for. -/
def step : Call α → Compiling α
  | openNamespace path => Compiling.openNamespace path
  | addTemplate identity body edges => Compiling.addTemplate identity body edges
  | addCustom identity body edges noValue => Compiling.addCustom identity body edges noValue
  | addGroup identity body edges noValue span =>
    Compiling.addGroup identity body edges noValue span
  | addClause clause reach span => Compiling.addClause clause reach span
  | nameDefinition name target span => Compiling.nameDefinition name target span
  | nameNamespace name path span => Compiling.nameNamespace name path span
  | definitionFor token expected site => Compiling.definitionFor token expected site
  | instanceFor token expected site => Compiling.instanceFor token expected site
  | instanceOfUsage u expected site => Compiling.instanceOfUsage u expected site
  | instanceOfName n edits expected site span =>
    Compiling.instanceOfName n edits expected site span
  | contentOf id => Compiling.contentOf id
  | checkTag tag site => Compiling.checkTag tag site
  | variableValue group key override site => Compiling.variableValue group key override site

/-- Whether uses are expanded by the call, so that it can report errors and still give something. -/
def expands : Call α → Bool
  | instanceFor .. | instanceOfUsage .. | instanceOfName .. => true
  | _ => false

theorem recorded (hc : c.session.Severe) (call : Call α) :
    Records call.step c ∧ (call.expands = false → Warns call.step c) := by
  cases call with
  | openNamespace path => exact (openNamespace_records path c).recorded
  | addTemplate identity body edges => exact (addGroup_records _ body edges _ _ c).recorded
  | addCustom identity body edges noValue => exact (addGroup_records _ body edges _ _ c).recorded
  | addGroup identity body edges noValue span =>
    exact (addGroup_records identity body edges noValue span c).recorded
  | addClause clause reach span => exact (addClause_records clause reach span c).recorded
  | nameDefinition name target span => exact (nameDefinition_records name target span c).recorded
  | nameNamespace name path span => exact (nameNamespace_records name path span c).recorded
  | definitionFor token expected site =>
    exact (definitionFor_records token expected site c).recorded
  | instanceFor token expected site => exact ⟨instanceFor_records hc token expected site, nofun⟩
  | instanceOfUsage u expected site =>
    exact ⟨instanceOfName_records hc u.name u.edits expected site u.span, nofun⟩
  | instanceOfName n edits expected site span =>
    exact ⟨instanceOfName_records hc n edits expected site span, nofun⟩
  | contentOf id => exact ⟨contentOf_records hc id, fun _ => contentOf_warns hc id⟩
  | checkTag tag site => exact (checkTag_records tag site c).recorded
  | variableValue group key override site =>
    exact ⟨variableValue_records hc group key override site,
      fun _ => variableValue_warns hc group key override site⟩

end Call

/-- Of every call that is refused, warnings are recorded and at last the error that was given back. A
call that gives something records warnings only, unless it expands uses. Nothing but handing the
diagnostics out takes any of them away. -/
theorem Compilation.Reachable.refusal_recorded {c : Compilation} (hc : c.Reachable) :
    (∀ (α : Type) (call : Call α),
      Compiling.Records call.step c ∧ (call.expands = false → Compiling.Warns call.step c)) ∧
    (∀ op, op ≠ Operation.drainDiagnostics → c.diagnostics <+: (op.after c).diagnostics) ∧
    ∀ other path, c.diagnostics <+: ((Compiling.mount other path).after c).diagnostics :=
  ⟨fun _ call => call.recorded hc.severe, fun _ hop => Operation.after_appends hc.severe hop,
    fun other path => Compiling.mount_appends other path c⟩

/-- A house that takes something out of its wall which is not there, and has no roof. -/
def attic : Compilation :=
  Operation.afterAll
    [.addGroup ⟨.custom, .style, "Wall"⟩ (.empty .style) [] .empty none,
      .addGroup ⟨.custom, .style, "House"⟩ (.empty .style)
        [⟨.ofKind .style "Wall", .explicit, [.deleteInheritance (.ofKind .style "Paint")], none⟩,
          ⟨.ofKind .style "Roof", .explicit, [], none⟩] .empty none]
    (.initial .initial)

/-- The wall is worked out with a warning before the roof is missed. -/
theorem refusal_recorded_attic :
    attic.Reachable ∧
    (Compiling.contentOf ⟨1⟩).outcome attic = .error (.refused (.unresolved "@Style Roof")) ∧
    ∃ w span, ((Compiling.contentOf ⟨1⟩).after attic).diagnostics =
        attic.diagnostics ++ [w] ++ [.ofError (.unresolved "@Style Roof") span] ∧
      w.isWarning = true := by
  have hattic : attic.Reachable := (Compilation.Reachable.initial .initial).afterAll _
  have hsize : ((Compiling.contentOf ⟨1⟩).outcome attic).map Content.size =
      .error (.refused (.unresolved "@Style Roof")) := by
    decide +kernel
  have hrefused : (Compiling.contentOf ⟨1⟩).outcome attic =
      .error (.refused (.unresolved "@Style Roof")) := by
    cases h : (Compiling.contentOf ⟨1⟩).outcome attic with
    | error e =>
      rw [h] at hsize
      exact congrArg Except.error (Except.error.inj hsize)
    | ok b =>
      rw [h] at hsize
      cases hsize
  have htwo : ((Compiling.contentOf ⟨1⟩).after attic).diagnostics.length =
      attic.diagnostics.length + 2 := by
    decide +kernel
  obtain ⟨warnings, span, hafter, hwarnings, -⟩ :=
    (hattic.refusal_recorded.1 _ (.contentOf ⟨1⟩)).1 _ hrefused
  have hlength : warnings.length = 1 := by
    -- Both diagnostics are accounted for, so that there is one warning.
    change ((Compiling.contentOf ⟨1⟩).after attic).diagnostics = _ at hafter
    rw [hafter] at htwo
    simp only [List.length_append, List.length_singleton] at htwo
    omega
  obtain ⟨w, rfl⟩ := List.length_eq_one_iff.1 hlength
  exact ⟨hattic, hrefused, w, span, hafter, hwarnings w List.mem_cons_self⟩

end Stencil
