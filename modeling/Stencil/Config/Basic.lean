import Stencil.Config.Strategy
import Stencil.Text.White
import Stencil.Text.Decimal

/-! # Settings of a compilation, and the lines of a configuration block -/
namespace Stencil

structure Config where
  strategy : Strategy
  /-- No namespace is opened for the file. -/
  noFileNamespace : Bool
  /-- The number that the first of a list has in the source text. -/
  firstIndex : Nat
  debug : Bool
  deriving DecidableEq

structure SettingError where
  key : String
  value : String
  expected : String
  deriving DecidableEq

def SettingError.message (e : SettingError) : String :=
  "invalid value '" ++ e.value ++ "' for " ++ e.key ++ ": expected " ++ e.expected

namespace Config

def initial : Config := ⟨.preferCurrent, false, 0, false⟩

/-- Takes away white space, then double quotes, then single quotes. -/
def unquote (raw : String) : String :=
  let strip (quote : Char) (cs : List Char) :=
    Text.dropEndWhile (· == quote) (cs.dropWhile (· == quote))
  String.ofList (strip (Char.ofNat 39) (strip '"' (Text.trim raw.toList)))

def readBool? (value : String) : Option Bool :=
  let lower := String.ofList (value.toList.map Char.toLower)
  if ["true", "1", "yes"].contains lower then some true
  else if ["false", "0", "no"].contains lower then some false
  else none

/-- The value read, or what was expected of it. -/
def expect {α : Type} (key value expected : String) : Option α → Except SettingError α
  | some a => .ok a
  | none => .error ⟨key, value, expected⟩

/-- Applies one line; keys that mean nothing are passed over. -/
def set (c : Config) (key raw : String) : Except SettingError Config := do
  let key := String.ofList (Text.trim key.toList)
  let value := unquote raw
  if key = "INDEX_INITIAL_COUNT" then
    let n ← expect key value "a non-negative integer" (Text.readNat64 value.toList)
    return { c with firstIndex := n }
  else if key = "DISABLE_DEFAULT_NAMESPACE" then
    let b ← expect key value "true or false" (readBool? value)
    return { c with noFileNamespace := b }
  else if key = "DEBUG_MODE" then
    let b ← expect key value "true or false" (readBool? value)
    return { c with debug := b }
  else if key = "CONFLICT_STRATEGY" then
    let s ← expect key value "PREFER_CURRENT_NAMESPACE, PREFER_EXPLICIT or ERROR"
      (Strategy.parse? value)
    return { c with strategy := s }
  else return c

/-- Reads the lines of a configuration block. A later line overrides an earlier one. -/
def ofLines (pairs : List (String × String)) : Except SettingError Config :=
  pairs.foldlM (fun c (key, raw) => c.set key raw) initial

end Config
end Stencil
