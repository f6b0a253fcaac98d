import Stencil.Config.Basic
import Stencil.Json

/-! # Settings as JSON

They are an object with the settings by name, or an array with the first few of them in order.
What is missing has its initial value.
-/
namespace Stencil

def Strategy.ofName? (name : String) : Option Strategy :=
  [("PreferCurrentNamespace", preferCurrent), ("PreferExplicitlyQualified", preferExplicit),
    ("Error", error)].lookup name

/-- A strategy by its name, which may also be the only key of an object with nothing in it. -/
def Strategy.ofJson? : Json → Option Strategy
  | .string (some name) => ofName? name
  | .object [(some name, .null)] => ofName? name
  | _ => none

namespace Config

def bool? : Json → Option Bool
  | .bool b => some b
  | _ => none

def count? : Json → Option Nat
  | .number literal => (Json.natural? literal).filter fun n => decide (n < Text.limit64)
  | _ => none

/-- The names of the settings, in order. -/
def fieldNames : List String :=
  ["conflict_strategy", "disable_default_namespace", "index_initial_count", "debug_mode"]

/-- The value given for a setting, or its initial value. -/
def fieldOr {α : Type} (read : Json → Option α) (initial : α) : Option Json → Option α
  | none => some initial
  | some v => read v

/-- Reads the settings from what is given for each. -/
def ofFields (given : String → Option Json) : Option Config := do
  let strategy ← fieldOr Strategy.ofJson? initial.strategy (given "conflict_strategy")
  let disable ← fieldOr bool? initial.noFileNamespace (given "disable_default_namespace")
  let base ← fieldOr count? initial.firstIndex (given "index_initial_count")
  let debug ← fieldOr bool? initial.debug (given "debug_mode")
  return ⟨strategy, disable, base, debug⟩

/-- Whether every key is a text and no setting is given twice. -/
def fieldsAreClear (fields : List (Option String × Json)) : Bool :=
  fields.all (fun f => f.1.isSome) &&
    fieldNames.all fun name => decide ((fields.filter fun f => f.1 == some name).length ≤ 1)

def ofJson? : Json → Option Config
  | .object fields =>
    if fieldsAreClear fields then ofFields fun name => fields.lookup (some name) else none
  | .array items =>
    if items.length ≤ fieldNames.length then
      ofFields fun name => (fieldNames.zip items).lookup name
    else none
  | _ => none

/-- Reads settings from a JSON text. -/
def parseJson? (text : String) : Option Config := (Json.parse text).bind ofJson?

end Config
end Stencil
