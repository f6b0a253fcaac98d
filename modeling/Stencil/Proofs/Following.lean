import Stencil.Proofs.Composition

/-! # A run that follows a quiet one

One resolution leads and another follows. Where the first gives a result and reports nothing, the
second gives the same result. Diagnostics are never taken back, so a resolution that has reported
nothing has not done so in any of its parts either, and every use in the content it expands was
replaced.
-/
namespace Stencil

namespace Resolving

variable {α β : Type} {R : Session → Session → Prop}

/-- The resolution gives `a` and reports nothing. -/
def Quietly (x : Resolving α) (s : Session) (a : α) : Prop :=
  x.outcome s = .ok a ∧ (x.after s).diagnostics = s.diagnostics

theorem exists_quietly {x : Resolving α} {s : Session} {g : α → β} {v : β}
    (hv : (x.outcome s).map g = .ok v) (hdiag : (x.after s).diagnostics = s.diagnostics) :
    ∃ a, Quietly x s a ∧ g a = v := by
  obtain ⟨a, hx, ha⟩ := Except.map_eq_ok.1 hv
  exact ⟨a, ⟨hx, hdiag⟩, ha⟩

/-- No diagnostic is taken back. -/
def Grows (x : Resolving α) : Prop := ∀ ds : Diagnostics, Keeps (fun s => ds <+: s.diagnostics) x

theorem Grows.le {x : Resolving α} (h : Grows x) (s : Session) :
    s.diagnostics <+: (x.after s).diagnostics :=
  (h s.diagnostics s List.prefix_rfl).2

theorem reporting_grows (ds : Diagnostics) (s : Session) (e : Problem) (span : Option Span)
    (h : ds <+: s.diagnostics) : ds <+: (s.reporting e span).diagnostics :=
  h.trans (List.prefix_append _ _)

theorem Quietly.of_bind {x : Resolving α} {f : α → Resolving β} {s : Session} {b : β}
    (h : Quietly (x >>= f) s b) (hx : Grows x) (hf : ∀ a, Grows (f a)) :
    ∃ a, Quietly x s a ∧ Quietly (f a) (x.after s) b ∧
      (x >>= f).after s = (f a).after (x.after s) := by
  obtain ⟨hout, hdiag⟩ := h
  have hrun := run_bind x f s
  cases hxs : x.outcome s with
  | error e =>
    rw [hxs] at hrun
    rw [outcome, hrun] at hout
    cases hout
  | ok a =>
    rw [hxs] at hrun
    have hafter : (x >>= f).after s = (f a).after (x.after s) := congrArg Prod.snd hrun
    rw [hafter] at hdiag
    have hfirst := hx.le s
    have hsecond := (hf a).le (x.after s)
    rw [hdiag] at hsecond
    have hquiet : (x.after s).diagnostics = s.diagnostics :=
      hsecond.eq_of_length (Nat.le_antisymm hsecond.length_le hfirst.length_le)
    refine ⟨a, ⟨hxs, hquiet⟩, ⟨?_, hdiag.trans hquiet.symm⟩, hafter⟩
    rw [← hout]
    exact (congrArg Prod.fst hrun).symm

/-- `x` takes no diagnostic back, and where it gives something quietly `y` gives the same and leaves
a related session. -/
structure Leads (R : Session → Session → Prop) (x y : Resolving α) : Prop where
  grows : Grows x
  follows : ∀ s t a, R s t → Quietly x s a → y.outcome t = .ok a ∧ R (x.after s) (y.after t)

namespace Leads

variable {x y : Resolving α} {f g : α → Resolving β}

theorem pure (a : α) : Leads R (pure a) (pure a) where
  grows _ := .pure trivial
  follows _ _ _ hR h := ⟨h.1, hR⟩

/-- Nothing has to follow a failure. -/
theorem throw (e : Failure) (y : Resolving α) : Leads R (throw e) y where
  grows _ := .throw e
  follows _ _ _ _ h := nomatch h.1

theorem lift {r r' : Except Failure α} (h : ∀ a, r = .ok a → r' = .ok a) :
    Leads R (liftM r : Resolving α) (liftM r') := by
  cases r with
  | error e => exact throw e _
  | ok a =>
    rw [h a rfl]
    exact pure a

/-- What follows the first part need only follow the results that the first part can give. -/
theorem bind_given (hx : Leads R x y) (hgrows : ∀ a, Grows (f a))
    (hf : ∀ s t a, R s t → x.outcome s = .ok a → Leads R (f a) (g a)) :
    Leads R (x >>= f) (y >>= g) where
  grows ds := (hx.grows ds).bind fun a _ => hgrows a ds
  follows s t b hR h := by
    obtain ⟨a, hxa, hfa, hafter⟩ := h.of_bind hx.grows hgrows
    have hfollows := (hf s t a hR hxa.1).follows
    obtain ⟨hy, hR⟩ := hx.follows s t a hR hxa
    obtain ⟨hg, hR⟩ := hfollows _ _ b hR hfa
    have hrun := run_bind y g t
    rw [hy] at hrun
    have houtcome : (y >>= g).outcome t = (g a).outcome (y.after t) := congrArg Prod.fst hrun
    have hgafter : (y >>= g).after t = (g a).after (y.after t) := congrArg Prod.snd hrun
    rw [hafter, houtcome, hgafter]
    exact ⟨hg, hR⟩

theorem bind (hx : Leads R x y) (hf : ∀ a, Leads R (f a) (g a)) :
    Leads R (x >>= f) (y >>= g) :=
  bind_given hx (fun a => (hf a).grows) fun _ _ a _ _ => hf a

theorem foldlM {f g : β → α → Resolving β} {as : List α}
    (hf : ∀ b, ∀ a ∈ as, Leads R (f b a) (g b a)) (b : β) :
    Leads R (as.foldlM f b) (as.foldlM g b) := by
  induction as generalizing b with
  | nil => exact pure b
  | cons a as ih =>
    rw [List.foldlM_cons, List.foldlM_cons]
    apply bind (hf b a List.mem_cons_self)
    exact fun b => ih (fun b a ha => hf b a (List.mem_cons_of_mem _ ha)) b

theorem mapM {as : List α} (hf : ∀ a ∈ as, Leads R (f a) (g a)) :
    Leads R (as.mapM f) (as.mapM g) := by
  induction as with
  | nil => exact pure []
  | cons a as ih =>
    rw [List.mapM_cons, List.mapM_cons]
    apply bind (hf a List.mem_cons_self)
    intro b
    apply bind (ih fun a ha => hf a (List.mem_cons_of_mem _ ha))
    exact fun bs => pure _

theorem reportAll {es es' : List Problem} (h : es = [] → es' = []) :
    Leads R (reportAll es) (reportAll es') := by
  cases es with
  | nil =>
    rw [h rfl]
    exact pure ()
  | cons e es =>
    have hreport : Grows (report e none) := fun ds => Keeps.report (reporting_grows ds)
    have hrest : Grows (Resolving.reportAll es) := fun ds => Keeps.reportAll (reporting_grows ds)
    refine ⟨fun ds => Keeps.reportAll (reporting_grows ds), fun s t u _ hq => ?_⟩
    obtain ⟨_, ⟨_, hdiag⟩, -⟩ := Quietly.of_bind hq hreport fun _ => hrest
    have hmore : (s.diagnostics ++ [Diagnostic.ofError e none]).length = s.diagnostics.length :=
      congrArg List.length hdiag
    rw [List.length_append, List.length_singleton] at hmore
    omega

/-- A failure that is reported is not quiet, so what follows need not fail in the same way. -/
theorem orReport (h : Leads R x y) (span : Option Span)
    {k : Except Problem α → Resolving (Option α)} (hok : ∀ a, k (.ok a) = Pure.pure (some a))
    (herror : ∀ e, k (.error e) = do report e span; return none) :
    Leads R (attempt x >>= k) (attempt y >>= k) where
  grows ds := by
    apply (h.grows ds).attempt.bind
    intro r _
    cases r with
    | ok a =>
      rw [hok]
      exact .pure trivial
    | error e =>
      rw [herror]
      exact (Keeps.report fun s e span => reporting_grows ds s e span).bind
        fun _ _ => .pure trivial
  follows s t o hR hq := by
    obtain ⟨hout, hdiag⟩ := hq
    rcases hx : x.outcome s with (e | f) | a
    · -- The report makes the diagnostics longer than they were.
      rw [after, run_attempt_bind_of_refused hx, herror] at hdiag
      have hlen := (h.grows.le s).length_le
      have hmore : ((x.after s).diagnostics ++ [Diagnostic.ofError e span]).length =
          s.diagnostics.length := congrArg List.length hdiag
      rw [List.length_append, List.length_singleton] at hmore
      omega
    · rw [outcome, run_bind, outcome, run_attempt, hx] at hout
      cases hout
    · have hrun := run_attempt_bind_of_ok (k := k) hx
      rw [hok] at hrun
      rw [outcome, hrun] at hout
      rw [after, hrun] at hdiag
      obtain ⟨hy, hR⟩ := h.follows s t a hR ⟨hx, hdiag⟩
      have hrun' := run_attempt_bind_of_ok (k := k) hy
      rw [hok] at hrun'
      rw [outcome, after, after, hrun, hrun']
      exact ⟨hout, hR⟩

end Leads
end Resolving

/-! ## What content mentions -/

/-- The uses in a line of a style block, with the kind of group each asks for. -/
def StyleLine.usages : StyleLine → List (Kind × Usage)
  | .property _ _ => []
  | .usage u => [(.style, u)]

/-- The values in a line of a style block. -/
def StyleLine.values : StyleLine → List String
  | .property _ value => [value]
  | .usage _ => []

mutual

/-- The uses in a node and below it. -/
def Node.usages : Node → List (Kind × Usage)
  | .text _ => []
  | .usage u => [(.element, u)]
  | .element ⟨_, _, style, children⟩ => style.flatMap StyleLine.usages ++ Node.usagesIn children

def Node.usagesIn : List Node → List (Kind × Usage)
  | [] => []
  | n :: ns => n.usages ++ Node.usagesIn ns

end

mutual

/-- The values of the properties in a node and below it. -/
def Node.values : Node → List String
  | .text _ => []
  | .usage _ => []
  | .element ⟨_, _, style, children⟩ => style.flatMap StyleLine.values ++ Node.valuesIn children

def Node.valuesIn : List Node → List String
  | [] => []
  | n :: ns => n.values ++ Node.valuesIn ns

end

def Content.usages : Content → List (Kind × Usage)
  | .element nodes => Node.usagesIn nodes
  | _ => []

def Content.values : Content → List String
  | .element nodes => Node.valuesIn nodes
  | .style s => s.properties.entries.filterMap fun e => e.2.text?
  | .var _ => []

namespace Expansion

open Resolving

variable {x y : Expansion} {R : Session → Session → Prop}

theorem inlineLine_leads {line : StyleLine}
    (hcontent : ∀ p ∈ line.usages, Leads R (x.content p.1 p.2) (y.content p.1 p.2))
    (hvalue : ∀ v ∈ line.values, Leads R (x.value v) (y.value v)) (done : List StyleLine) :
    Leads R (x.inlineLine done line) (y.inlineLine done line) := by
  cases line with
  | property name value =>
    apply (hvalue value (by simp [StyleLine.values])).bind
    exact fun filled => .pure _
  | usage u =>
    apply (hcontent (.style, u) (by simp [StyleLine.usages])).bind
    intro r
    split <;> exact .pure _

theorem inlineLines_leads {lines : List StyleLine}
    (hcontent : ∀ p ∈ lines.flatMap StyleLine.usages, Leads R (x.content p.1 p.2) (y.content p.1 p.2))
    (hvalue : ∀ v ∈ lines.flatMap StyleLine.values, Leads R (x.value v) (y.value v)) :
    Leads R (x.inlineLines lines) (y.inlineLines lines) := by
  apply Leads.foldlM
  intro done line hline
  apply inlineLine_leads
  · exact fun p hp => hcontent p (List.mem_flatMap.2 ⟨line, hline, hp⟩)
  · exact fun v hv => hvalue v (List.mem_flatMap.2 ⟨line, hline, hv⟩)

mutual

theorem inlineNode_leads : ∀ n : Node,
    (∀ p ∈ n.usages, Leads R (x.content p.1 p.2) (y.content p.1 p.2)) →
    (∀ v ∈ n.values, Leads R (x.value v) (y.value v)) →
    Leads R (x.inlineNode n) (y.inlineNode n)
  | .text t, _, _ => by
    rw [inlineNode, inlineNode]
    exact .pure _
  | .usage u, hcontent, _ => by
    rw [inlineNode, inlineNode]
    apply (hcontent (.element, u) (by simp [Node.usages])).bind
    intro r
    split <;> exact .pure _
  | .element ⟨tag, attributes, style, children⟩, hcontent, hvalue => by
    rw [Node.usages] at hcontent
    rw [Node.values] at hvalue
    rw [inlineNode, inlineNode]
    apply (inlineLines_leads (fun p hp => hcontent p (List.mem_append_left _ hp))
      fun v hv => hvalue v (List.mem_append_left _ hv)).bind
    intro style'
    apply (inlineNodes_leads children (fun p hp => hcontent p (List.mem_append_right _ hp))
      fun v hv => hvalue v (List.mem_append_right _ hv)).bind
    exact fun children' => .pure _

theorem inlineNodes_leads : ∀ ns : List Node,
    (∀ p ∈ Node.usagesIn ns, Leads R (x.content p.1 p.2) (y.content p.1 p.2)) →
    (∀ v ∈ Node.valuesIn ns, Leads R (x.value v) (y.value v)) →
    Leads R (x.inlineNodes ns) (y.inlineNodes ns)
  | [], _, _ => by
    rw [inlineNodes, inlineNodes]
    exact .pure _
  | n :: ns, hcontent, hvalue => by
    rw [Node.usagesIn] at hcontent
    rw [Node.valuesIn] at hvalue
    rw [inlineNodes, inlineNodes]
    apply (inlineNode_leads n (fun p hp => hcontent p (List.mem_append_left _ hp))
      fun v hv => hvalue v (List.mem_append_left _ hv)).bind
    intro front
    apply (inlineNodes_leads ns (fun p hp => hcontent p (List.mem_append_right _ hp))
      fun v hv => hvalue v (List.mem_append_right _ hv)).bind
    exact fun back => .pure _

end

/-- Expansions that agree on all that content mentions make the same of it. -/
theorem inlineContent_leads {b : Content}
    (hcontent : ∀ p ∈ b.usages, Leads R (x.content p.1 p.2) (y.content p.1 p.2))
    (hvalue : ∀ v ∈ b.values, Leads R (x.value v) (y.value v)) :
    Leads R (x.inlineContent b) (y.inlineContent b) := by
  cases b with
  | element nodes =>
    apply (inlineNodes_leads nodes hcontent hvalue).bind
    exact fun nodes' => .pure _
  | style s =>
    apply Leads.bind
    · apply Leads.foldlM
      rintro filled ⟨name, value⟩ hmem
      cases value with
      | placeholder => exact .pure _
      | concrete text =>
        apply (hvalue text (List.mem_filterMap.2 ⟨_, hmem, rfl⟩)).bind
        exact fun v => .pure _
    · exact fun filled => .pure _
  | var v => exact .pure _

end Expansion
end Stencil
