import Stencil.Group.Name
import Stencil.Rule.Basic

/-! # Clauses that declare rules

A clause reads `except span, my-*, [Custom] @Element Box, @Html;`. The word in front and the
semicolon behind may be missing.
-/
namespace Stencil.Denial

/-- The text behind the word `except`, if it begins with that word. -/
def afterKeyword (text : List Char) : List Char :=
  let keyword := "except".toList
  if keyword.isPrefixOf text && (text.drop keyword.length).head?.all Text.isWhite then
    text.drop keyword.length
  else text

variable [Text.Alphabet]

/-- Reads the name in a clause. A star behind a bare name stands for any continuation. -/
def parseName (category : Category) (word : List Char) : Except Misspelling Denial :=
  let invalid := .error (.invalid (String.ofList word))
  if category = .any then
    if word.getLast? = some '*' then
      if Text.isName word.dropLast then .ok (startingWith (String.ofList word.dropLast))
      else invalid
    else if Text.isName word then .ok (name (String.ofList word))
    else invalid
  else if Text.isName word then .ok (definition category (String.ofList word))
  else invalid

/-- Reads what follows the origin and the kind. -/
def readRest (category : Category) : List (List Char) → Except Misspelling Denial
  | [] => if category = .any then .error .empty else .ok (definitions category)
  | [word] => parseName category word
  | _ :: extra :: _ => .error (.unexpected (String.ofList extra))

/-- Reads the words of one item. -/
def readPhrase (ws : List (List Char)) : Except Misspelling Denial := do
  let (origin, ws) ← Name.takeOrigin ws
  if origin.isNone && ws.head? == some "@Html".toList then
    match ws.tail with
    | [] => .ok html
    | extra :: _ => .error (.unexpected (String.ofList extra))
  else
    let (kind, ws) ← Name.takeKind ws
    readRest ⟨origin, kind⟩ ws

/-- Reads one item of a clause. -/
def readItem (item : List Char) : Except Misspelling Denial := readPhrase (Text.words item)

/-- Reads a clause. -/
def readClause (clause : String) : Except Misspelling (List Denial) :=
  let text := Text.trim (afterKeyword (Text.trim clause.toList))
  (Text.splitAt ',' (Text.dropEndWhile (· == ';') text)).mapM readItem

end Stencil.Denial
