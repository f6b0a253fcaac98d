import Stencil.Text.Range

/-! # White space, and how texts are cut

A text is trimmed at both ends, split into words at white space, or cut at a separator.
-/
namespace Stencil.Text

/-- The Unicode property White_Space. -/
def whiteRanges : List (Nat × Nat) :=
  [(0x9, 0xD), (0x20, 0x20), (0x85, 0x85), (0xA0, 0xA0), (0x1680, 0x1680), (0x2000, 0x200A),
   (0x2028, 0x2029), (0x202F, 0x202F), (0x205F, 0x205F), (0x3000, 0x3000)]

def isWhite (c : Char) : Bool := inRanges whiteRanges c.toNat

/-- Drops from the end the longest run of characters that satisfy `p`. -/
def dropEndWhile (p : Char → Bool) (cs : List Char) : List Char :=
  (cs.reverse.dropWhile p).reverse

def trimStart (cs : List Char) : List Char := cs.dropWhile isWhite

def trimEnd (cs : List Char) : List Char := dropEndWhile isWhite cs

def trim (cs : List Char) : List Char := trimEnd (trimStart cs)

/-- Puts a character in front of the first word. -/
def joinWord (c : Char) : List (List Char) → List (List Char)
  | [] => [[c]]
  | w :: ws => (c :: w) :: ws

/-- The maximal runs of characters that are not white space, in order. -/
def words : List Char → List (List Char)
  | [] => []
  | c :: cs =>
    if isWhite c then words cs
    else if cs.head?.all isWhite then [c] :: words cs
    else joinWord c (words cs)

/-- The pieces between the occurrences of `sep`, empty ones included; never the empty list. -/
def splitAt (sep : Char) : List Char → List (List Char)
  | [] => [[]]
  | c :: cs => if c = sep then [] :: splitAt sep cs else joinWord c (splitAt sep cs)

/-- Cuts at the first `sep`, if there is one. -/
def cutAt (sep : Char) : List Char → Option (List Char × List Char)
  | [] => none
  | c :: cs =>
    if c = sep then some ([], cs)
    else (cutAt sep cs).map fun (before, after) => (c :: before, after)

theorem splitAt_ne_nil (sep : Char) (cs : List Char) : splitAt sep cs ≠ [] := by
  cases cs with
  | nil => simp [splitAt]
  | cons c cs =>
    rw [splitAt]
    split
    · simp
    · cases splitAt sep cs <;> simp [joinWord]

theorem eq_of_cutAt {sep : Char} {cs before after : List Char}
    (h : cutAt sep cs = some (before, after)) : cs = before ++ sep :: after := by
  induction cs generalizing before with
  | nil => simp [cutAt] at h
  | cons c cs ih =>
    rw [cutAt] at h
    split at h
    · simp_all
    · obtain ⟨⟨b, a⟩, hb, hab⟩ := Option.map_eq_some_iff.1 h
      obtain ⟨rfl, rfl⟩ := Prod.mk.inj hab
      rw [ih hb, List.cons_append]

end Stencil.Text
