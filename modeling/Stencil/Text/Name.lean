import Stencil.Text.IdentifierContinue

/-! # Names: identifiers that may also hold hyphens

A name is read off the front of a text, and positions in a text are counted in bytes of its UTF-8
form. Which characters make up identifiers is a parameter; where nothing else is said, those of
Unicode do.
-/
namespace Stencil.Text

/-- The characters that may begin an identifier, and those that may go on with one. -/
class Alphabet where
  begins : Char → Bool
  continues : Char → Bool

instance unicode : Alphabet := ⟨isIdentifierStart, isIdentifierContinue⟩

/-- Number of bytes of the UTF-8 form. -/
def byteLength : List Char → Nat
  | [] => 0
  | c :: cs => c.utf8Size + byteLength cs

/-- The rest of a text from a byte offset, if a character begins there or the text ends there. -/
def dropBytes : Nat → List Char → Option (List Char)
  | 0, cs => some cs
  | _ + 1, [] => none
  | n + 1, c :: cs => if c.utf8Size ≤ n + 1 then dropBytes (n + 1 - c.utf8Size) cs else none

/-- The characters of a text, each with the byte offset at which it begins. -/
def charOffsets : Nat → List Char → List (Nat × Char)
  | _, [] => []
  | n, c :: cs => (n, c) :: charOffsets (n + c.utf8Size) cs

section

variable [Alphabet]

def beginsName (c : Char) : Bool := c == '_' || Alphabet.begins c

def continuesName (c : Char) : Bool := c == '-' || Alphabet.continues c

def isName : List Char → Bool
  | [] => false
  | c :: cs => beginsName c && cs.all continuesName

/-- The longest name at the front of a text, empty if none begins there. -/
def leadingName : List Char → List Char
  | [] => []
  | c :: cs => if beginsName c then c :: cs.takeWhile continuesName else []

/-- What follows the name at the front. -/
def afterName : List Char → List Char
  | [] => []
  | c :: cs => if beginsName c then cs.dropWhile continuesName else c :: cs

@[simp] theorem leadingName_append_afterName (cs : List Char) :
    leadingName cs ++ afterName cs = cs := by
  cases cs with
  | nil => rfl
  | cons c cs => by_cases h : beginsName c <;> simp [leadingName, afterName, h]

theorem length_afterName_lt {cs : List Char} (h : leadingName cs ≠ []) :
    (afterName cs).length < cs.length := by
  have hl := congrArg List.length (leadingName_append_afterName cs)
  have hp := List.length_pos_iff.2 h
  rw [List.length_append] at hl
  omega

/-- The byte offset at which the name that begins at `start` ends: that of the first character
that does not go on with it, or else the end of the text. It is `start` itself if no name begins
there. There is no answer for an offset past the end or inside a character. -/
def nameEnd (text : List Char) (start : Nat) : Option Nat :=
  (dropBytes start text).map fun rest =>
    match charOffsets 0 rest with
    | [] => start
    | (_, c) :: later =>
      if beginsName c then
        match later.find? fun x => !continuesName x.2 with
        | some (offset, _) => start + offset
        | none => byteLength text
      else start

end
end Stencil.Text
