import Stencil.Text.White
import Stencil.Text.Name
import Stencil.Group.Identity

/-! # Names as they are written at a use

A name has an optional origin, an optional kind, and an optional namespace path. The path is
written in front of the name (`space.room.Box`) or behind it (`Box from space.room`).
-/
namespace Stencil

/-- Why a text is no name. -/
inductive Misspelling where
  | empty
  | unknownOrigin (word : String)
  | unknownKind (word : String)
  | invalid (text : String)
  | twoPaths
  | unexpected (text : String)
  deriving DecidableEq

def Misspelling.message : Misspelling → String
  | empty => "empty name"
  | unknownOrigin word => "unknown bracket prefix '" ++ word ++ "'"
  | unknownKind word => "unknown type modifier '" ++ word ++ "'"
  | invalid text => "invalid identifier '" ++ text ++ "'"
  | twoPaths => "namespace given twice (dotted path and `from`)"
  | unexpected text => "unexpected '" ++ text ++ "'"

structure Name where
  origin : Option Origin
  kind : Option Kind
  /-- Outermost namespace first; empty for a bare name. -/
  path : List String
  name : String
  deriving DecidableEq

namespace Name

def ofKind (kind : Kind) (name : String) : Name := ⟨none, some kind, [], name⟩

def hasPath (n : Name) : Bool := !n.path.isEmpty

def category (n : Name) : Category := ⟨n.origin, n.kind⟩

def render (n : Name) : String :=
  " ".intercalate (n.category.keywords ++ [".".intercalate (n.path ++ [n.name])])

variable [Text.Alphabet]

/-- Reads one segment of a dotted path. -/
def parseSegment (segment : List Char) : Except Misspelling String :=
  if Text.isName segment then .ok (String.ofList segment)
  else .error (.invalid (String.ofList segment))

/-- Reads names with dots between them. -/
def parseDotted (text : List Char) : Except Misspelling (List String) :=
  if text.isEmpty then .error .empty else (Text.splitAt '.' text).mapM parseSegment

/-- Takes the word of an origin off the front, if the first word opens a bracket. -/
def takeOrigin : List (List Char) → Except Misspelling (Option Origin × List (List Char))
  | [] => .ok (none, [])
  | w :: ws =>
    if w.head? = some '[' then
      match Origin.ofKeyword? (String.ofList w) with
      | some o => .ok (some o, ws)
      | none => .error (.unknownOrigin (String.ofList w))
    else .ok (none, w :: ws)

/-- Takes the word of a kind off the front, if the first word begins with an at sign. -/
def takeKind : List (List Char) → Except Misspelling (Option Kind × List (List Char))
  | [] => .ok (none, [])
  | w :: ws =>
    if w.head? = some '@' then
      match Kind.ofKeyword? (String.ofList w) with
      | some k => .ok (some k, ws)
      | none => .error (.unknownKind (String.ofList w))
    else .ok (none, w :: ws)

/-- Reads the namespace path that may follow the name; `path` is what stood in front of it. -/
def parseFrom (path : List String) : List (List Char) → Except Misspelling (List String)
  | [] => .ok path
  | w :: ws =>
    if String.ofList w = "from" then
      if path.isEmpty then
        match ws with
        | [] => .error .empty
        | [dotted] => parseDotted dotted
        | dotted :: extra :: _ => do
          let _ ← parseDotted dotted
          .error (.unexpected (String.ofList extra))
      else .error .twoPaths
    else .error (.unexpected (String.ofList w))

/-- Reads a name token. -/
def parse (token : String) : Except Misspelling Name := do
  let (origin, ws) ← takeOrigin (Text.words token.toList)
  let (kind, ws) ← takeKind ws
  match ws with
  | [] => .error .empty
  | dotted :: ws =>
    let segments ← parseDotted dotted
    match segments.getLast? with
    | none => .error .empty
    | some name =>
      let path ← parseFrom segments.dropLast ws
      .ok ⟨origin, kind, path, name⟩

end Name
end Stencil
