import Stencil.Text.White
import Stencil.Text.Name

/-! # References to variables inside a value

A reference is written as in `1px solid Theme(primary)`; `Theme(primary = red)` gives the variable
a value for this one use. A text is cut into references and the plain text between them, and
nothing is lost by that.
-/
namespace Stencil

variable [Text.Alphabet]

structure Reference where
  group : String
  key : String
  override : Option String
  deriving DecidableEq

namespace Reference

/-- What may stand behind the name of a group. -/
structure Argument where
  key : List Char
  override : Option (List Char)
  /-- The text between the parentheses. -/
  inner : List Char
  rest : List Char

/-- Cuts the text between the parentheses at its first equals sign. -/
def splitInner (inner : List Char) : List Char × Option (List Char) :=
  match Text.cutAt '=' inner with
  | some (key, value) => (Text.trim key, some (Text.trim value))
  | none => (Text.trim inner, none)

/-- Reads a key, and the value it is given, in parentheses. -/
def readArgument : List Char → Option Argument
  | '(' :: cs =>
    match Text.cutAt ')' cs with
    | none => none
    | some (inner, rest) =>
      let (key, override) := splitInner inner
      if Text.isName key then some ⟨key, override, inner, rest⟩ else none
  | _ => none

theorem eq_of_readArgument {cs : List Char} {a : Argument} (h : readArgument cs = some a) :
    cs = '(' :: a.inner ++ ')' :: a.rest := by
  unfold readArgument at h
  split at h
  · split at h
    · simp at h
    · rename_i inner rest hcut
      obtain ⟨_, rfl⟩ := by simpa using h
      rw [List.cons_append, Text.eq_of_cutAt hcut]
  · simp at h

theorem length_rest_lt {cs : List Char} {a : Argument} (h : readArgument cs = some a) :
    a.rest.length < cs.length := by
  rw [eq_of_readArgument h, List.length_append, List.length_cons, List.length_cons]
  omega

end Reference

/-- A piece of a value. -/
inductive ValuePiece where
  | plain (text : List Char)
  | reference (r : Reference) (source : List Char)

namespace ValuePiece

def source : ValuePiece → List Char
  | plain text => text
  | reference _ source => source

/-- Cuts a text into pieces. A group name has to begin where no name is under way; `inWord` tells
whether one is. -/
def scan (inWord : Bool) : List Char → List ValuePiece
  | [] => []
  | c :: cs =>
    if h : inWord || !Text.beginsName c then plain [c] :: scan (Text.continuesName c) cs
    else
      let group := Text.leadingName (c :: cs)
      have hrest : (Text.afterName (c :: cs)).length < (c :: cs).length :=
        Text.length_afterName_lt (by simp_all [Text.leadingName])
      match ha : Reference.readArgument (Text.afterName (c :: cs)) with
      | none => plain group :: scan true (Text.afterName (c :: cs))
      | some a =>
        have := Nat.lt_trans (Reference.length_rest_lt ha) hrest
        reference ⟨String.ofList group, String.ofList a.key, a.override.map String.ofList⟩
          (group ++ '(' :: a.inner ++ [')']) :: scan false a.rest
termination_by cs => cs.length
decreasing_by
  · exact Nat.lt_succ_self _
  · exact hrest
  · assumption

/-- The pieces of a text make up the text. -/
theorem flatMap_source_scan (inWord : Bool) (cs : List Char) :
    (scan inWord cs).flatMap source = cs := by
  fun_induction scan inWord cs with
  | case1 => rfl
  | case2 inWord c cs h ih => simp [source, ih]
  | case3 inWord c cs h group hrest ha ih =>
    rw [List.flatMap_cons, ih]
    exact Text.leadingName_append_afterName (c :: cs)
  | case4 inWord c cs h group hrest a ha hlt ih =>
    have hcut := Text.leadingName_append_afterName (c :: cs)
    rw [Reference.eq_of_readArgument ha] at hcut
    simpa [source, ih] using hcut

end ValuePiece

namespace Reference

/-- The references among the pieces, with the byte offsets at which each begins and ends. -/
def located (start : Nat) : List ValuePiece → List (Reference × Nat × Nat)
  | [] => []
  | p :: ps =>
    let stop := start + Text.byteLength p.source
    match p with
    | .plain _ => located stop ps
    | .reference r _ => (r, start, stop) :: located stop ps

/-- The references in a text, with the byte offsets at which each begins and ends. -/
def findAll (text : String) : List (Reference × Nat × Nat) :=
  located 0 (ValuePiece.scan false text.toList)

/-- What a piece becomes when references that have a value are replaced by it. -/
def replaceIn {m : Type → Type} [Monad m] (value : Reference → m (Option String)) :
    ValuePiece → m (List Char)
  | .plain text => pure text
  | .reference r source => do
    match ← value r with
    | some v => return v.toList
    | none => return source

/-- Replaces, from left to right, each reference that has a value. -/
def replaceAll {m : Type → Type} [Monad m] (value : Reference → m (Option String))
    (text : String) : m String := do
  let pieces ← (ValuePiece.scan false text.toList).mapM (replaceIn value)
  return String.ofList pieces.flatten

end Reference
end Stencil
