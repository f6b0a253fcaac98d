/-! # JSON texts

A text is cut into tokens, and the tokens are read with a stack of the arrays and objects that are
open, so there is no limit to how deep they nest. A string may hold escapes of surrogates that do
not pair up. Such a string is read, but it has no text.
-/
namespace Stencil

inductive Json where
  | null
  | bool (b : Bool)
  /-- As it is written. -/
  | number (literal : List Char)
  | string (text : Option String)
  | array (items : List Json)
  | object (fields : List (Option String × Json))

namespace Json

inductive Token where
  | openArray
  | closeArray
  | openObject
  | closeObject
  | comma
  | colon
  | scalar (value : Json)
  | string (text : Option String)

def isBlank (c : Char) : Bool := [' ', '\n', '\t', '\r'].contains c

def isDigit (c : Char) : Bool := decide ('0' ≤ c) && decide (c ≤ '9')

/-- The characters of which numbers are made. -/
def isNumberChar (c : Char) : Bool := isDigit c || ['+', '-', '.', 'e', 'E'].contains c

def isLetter (c : Char) : Bool := decide ('a' ≤ c) && decide (c ≤ 'z')

def isDigits (cs : List Char) : Bool := !cs.isEmpty && cs.all isDigit

/-- Nothing, or the mark of an exponent and its digits. -/
def isExponent : List Char → Bool
  | [] => true
  | e :: cs =>
    (e == 'e' || e == 'E') &&
      isDigits (if cs.head? = some '+' || cs.head? = some '-' then cs.tail else cs)

/-- What may follow the digits in front of the point. -/
def isFraction : List Char → Bool
  | '.' :: cs => !(cs.takeWhile isDigit).isEmpty && isExponent (cs.dropWhile isDigit)
  | cs => isExponent cs

/-- Digits without a zero in front, after a minus sign or none, and what may follow them. -/
def isNumber (cs : List Char) : Bool :=
  let unsigned := if cs.head? = some '-' then cs.tail else cs
  let digits := unsigned.takeWhile isDigit
  !digits.isEmpty && (digits.length == 1 || digits.head? != some '0') &&
    isFraction (unsigned.dropWhile isDigit)

/-- The value of a number that is written as digits alone. -/
def natural? (literal : List Char) : Option Nat :=
  if isDigits literal then
    some (literal.foldl (fun n c => 10 * n + (c.toNat - '0'.toNat)) 0)
  else none

/-- A piece of a string: a character, or half of an escaped pair. -/
inductive Piece where
  | char (c : Char)
  | surrogate (n : Nat)

def hexValue (c : Char) : Option Nat :=
  if '0' ≤ c ∧ c ≤ '9' then some (c.toNat - '0'.toNat)
  else if 'a' ≤ c ∧ c ≤ 'f' then some (c.toNat - 'a'.toNat + 10)
  else if 'A' ≤ c ∧ c ≤ 'F' then some (c.toNat - 'A'.toNat + 10)
  else none

def hexUnit (a b c d : Char) : Option Piece := do
  let n := 4096 * (← hexValue a) + 256 * (← hexValue b) + 16 * (← hexValue c) + (← hexValue d)
  return if 0xD800 ≤ n ∧ n < 0xE000 then .surrogate n else .char (Char.ofNat n)

def escaped (c : Char) : Option Char :=
  [('"', '"'), ('\\', '\\'), ('/', '/'), ('b', '\x08'), ('f', '\x0c'), ('n', '\n'), ('r', '\r'),
    ('t', '\t')].lookup c

/-- Puts a piece in front of what was read. -/
def addPiece (u : Piece) (r : List Piece × List Char) : List Piece × List Char := (u :: r.1, r.2)

/-- Reads a string behind its opening quote; the second part is what follows the closing one. -/
def readString : List Char → Option (List Piece × List Char)
  | [] => none
  | '"' :: cs => some ([], cs)
  | '\\' :: 'u' :: a :: b :: c :: d :: cs =>
    (hexUnit a b c d).bind fun u => (readString cs).map (addPiece u)
  | '\\' :: e :: cs => (escaped e).bind fun c => (readString cs).map (addPiece (.char c))
  | c :: cs =>
    if c = '\\' ∨ c.toNat < 0x20 then none else (readString cs).map (addPiece (.char c))

/-- The characters of a string, if its surrogates pair up. -/
def charsOf : List Piece → Option (List Char)
  | [] => some []
  | .char c :: us => (charsOf us).map (c :: ·)
  | .surrogate hi :: .surrogate lo :: us =>
    if hi < 0xDC00 ∧ 0xDC00 ≤ lo then
      (charsOf us).map (Char.ofNat (0x10000 + 1024 * (hi - 0xD800) + (lo - 0xDC00)) :: ·)
    else none
  | .surrogate _ :: _ => none

theorem length_readString_lt {cs : List Char} {r : List Piece × List Char}
    (h : readString cs = some r) : r.2.length < cs.length := by
  fun_induction readString cs generalizing r with
  | case1 => simp at h
  | case2 cs =>
    simp at h
    simp [← h]
  | case3 a b c d cs ih =>
    obtain ⟨u, _, h⟩ := Option.bind_eq_some_iff.1 h
    obtain ⟨r', hr, rfl⟩ := Option.map_eq_some_iff.1 h
    have := ih hr
    simp [addPiece]
    omega
  | case4 e cs _ ih =>
    obtain ⟨u, _, h⟩ := Option.bind_eq_some_iff.1 h
    obtain ⟨r', hr, rfl⟩ := Option.map_eq_some_iff.1 h
    have := ih hr
    simp [addPiece]
    omega
  | case5 => simp at h
  | case6 c cs _ _ _ _ ih =>
    obtain ⟨r', hr, rfl⟩ := Option.map_eq_some_iff.1 h
    have := ih hr
    simp [addPiece]
    omega

def punctuation (c : Char) : Option Token :=
  match c with
  | '[' => some .openArray
  | ']' => some .closeArray
  | '\x7b' => some .openObject
  | '\x7d' => some .closeObject
  | ',' => some .comma
  | ':' => some .colon
  | _ => none

def keyword (cs : List Char) : Option Token :=
  if cs = "null".toList then some (.scalar .null)
  else if cs = "true".toList then some (.scalar (.bool true))
  else if cs = "false".toList then some (.scalar (.bool false))
  else none

theorem length_dropWhile_lt (p : Char → Bool) (c : Char) (cs : List Char) :
    (cs.dropWhile p).length < (c :: cs).length :=
  Nat.lt_succ_of_le (List.dropWhile_sublist p).length_le

/-- Cuts a text into tokens. Words and numbers reach as far as their characters do. -/
def tokens : List Char → Option (List Token)
  | [] => some []
  | c :: cs =>
    if isBlank c then tokens cs
    else if c = '"' then
      match h : readString cs with
      | none => none
      | some (us, rest) =>
        have : rest.length < (c :: cs).length := Nat.lt_succ_of_lt (length_readString_lt h)
        (tokens rest).map (.string ((charsOf us).map String.ofList) :: ·)
    else if isNumberChar c then
      have := length_dropWhile_lt isNumberChar c cs
      let literal := c :: cs.takeWhile isNumberChar
      if isNumber literal then
        (tokens (cs.dropWhile isNumberChar)).map (.scalar (.number literal) :: ·)
      else none
    else if isLetter c then
      have := length_dropWhile_lt isLetter c cs
      match keyword (c :: cs.takeWhile isLetter) with
      | none => none
      | some t => (tokens (cs.dropWhile isLetter)).map (t :: ·)
    else
      match punctuation c with
      | none => none
      | some t => (tokens cs).map (t :: ·)
termination_by cs => cs.length
decreasing_by
  · exact Nat.lt_succ_self _
  · assumption
  · assumption
  · assumption
  · exact Nat.lt_succ_self _

/-- An array or object that is open, the last part read first. -/
inductive Frame where
  | array (items : List Json)
  | object (fields : List (Option String × Json)) (key : Option String)

/-- What may come next. -/
inductive Expected where
  /-- A value; the end of an array that has none may come as well. -/
  | value (orClose : Bool)
  /-- A key; the end of an object that has none may come as well. -/
  | key (fields : List (Option String × Json)) (orClose : Bool)
  | colon (fields : List (Option String × Json)) (key : Option String)
  | afterItem (items : List Json)
  | afterField (fields : List (Option String × Json))
  /-- Nothing; the value is complete. -/
  | nothing (value : Json)

/-- What comes behind a complete value. -/
def after (value : Json) : List Frame → Expected × List Frame
  | [] => (.nothing value, [])
  | .array items :: stack => (.afterItem (value :: items), stack)
  | .object fields key :: stack => (.afterField ((key, value) :: fields), stack)

def step : Token → Expected → List Frame → Option (Expected × List Frame)
  | .scalar v, .value _, stack => some (after v stack)
  | .string s, .value _, stack => some (after (.string s) stack)
  | .openArray, .value _, stack => some (.value true, .array [] :: stack)
  | .openObject, .value _, stack => some (.key [] true, stack)
  | .closeArray, .value true, .array items :: stack => some (after (.array items.reverse) stack)
  | .string s, .key fields _, stack => some (.colon fields s, stack)
  | .closeObject, .key fields true, stack => some (after (.object fields.reverse) stack)
  | .colon, .colon fields key, stack => some (.value false, .object fields key :: stack)
  | .comma, .afterItem items, stack => some (.value false, .array items :: stack)
  | .closeArray, .afterItem items, stack => some (after (.array items.reverse) stack)
  | .comma, .afterField fields, stack => some (.key fields false, stack)
  | .closeObject, .afterField fields, stack => some (after (.object fields.reverse) stack)
  | _, _, _ => none

def run : List Token → Expected → List Frame → Option Json
  | [], .nothing v, _ => some v
  | [], _, _ => none
  | t :: ts, expected, stack =>
    match step t expected stack with
    | none => none
    | some (expected, stack) => run ts expected stack

/-- Reads a text that is one value. -/
def parse (text : String) : Option Json := do
  run (← tokens text.toList) (.value false) []

end Json
end Stencil
