import MapStyle.Color.Css
import MapStyle.Json

-- Static types of expressions, and the two ways of comparing them.
--
-- `meet?` is the type of what both of two types allow, for branches that have to
-- agree. `accepts` is the looser check of a type against an expectation: a string
-- passes for one of a list of names and an array of unknown length for a fixed one,
-- since the value itself is checked later.

namespace MapStyle

inductive Ty where
  | null
  | number
  | string
  | boolean
  | color
  | object
  | array (item : Ty) (length : Option Nat)
  | enum (names : List String)
  | unknown
deriving DecidableEq, Inhabited

namespace Ty

def insertName (name : String) : List String → List String
  | [] => [name]
  | n :: rest =>
      if name < n then name :: n :: rest
      else if name = n then n :: rest
      else n :: insertName name rest

def oneOf (names : List String) : Ty :=
  .enum (names.foldr insertName [])

def named : List (String × Ty) := [
  ("null", .null),
  ("number", .number),
  ("string", .string),
  ("boolean", .boolean),
  ("color", .color),
  ("object", .object),
  ("value", .unknown)]

def ofName? (name : String) : Option Ty :=
  named.lookup name

def text : Ty → String
  | .null => "null"
  | .number => "number"
  | .string => "string"
  | .boolean => "boolean"
  | .color => "color"
  | .object => "object"
  | .unknown => "value"
  | .array item (some n) => "array<" ++ item.text ++ ", " ++ toString n ++ ">"
  | .array item none => "array<" ++ item.text ++ ">"
  | .enum names => "enum<" ++ " | ".intercalate (names.map fun n => "\"" ++ n ++ "\"") ++ ">"

-- The length that agrees with both; a length that is not fixed agrees with any.
def meetLength? : Option Nat → Option Nat → Option (Option Nat)
  | none, m => some m
  | n, none => some n
  | some n, some m => if n = m then some (some n) else none

def meet? : Ty → Ty → Option Ty
  | .unknown, b => some b
  | a, .unknown => some a
  | .array item length, .array item' length' => do
      let i ← meet? item item'
      let n ← meetLength? length length'
      some (.array i n)
  | a, b => if a = b then some a else none

def meetAll? (types : List Ty) : Option Ty :=
  types.foldlM meet? .unknown

def accepts : Ty → Ty → Bool
  | .enum _, .string => true
  | .array item length, .array item' length' =>
      accepts item item' && (length.isNone || length == length' || length'.isNone)
  | expected, actual => (meet? expected actual).isSome

def blends : Ty → Bool
  | .number | .color => true
  | .array .number (some _) => true
  | _ => false

end Ty

end MapStyle

namespace MapStyle.Ty

mutual
-- The type of a JSON value. An array is of its own length, and of the type its items
-- have in common, if they have one.
def ofJson : Json → Ty
  | .null => .null
  | .bool _ => .boolean
  | .num _ => .number
  | .str _ => .string
  | .obj _ => .object
  | .arr items => .array ((meetAll? (ofItems items)).getD .unknown) (some items.length)

def ofItems : List Json → List Ty
  | [] => []
  | j :: js => ofJson j :: ofItems js
end

def admits : Ty → Json → Bool
  | .unknown, _ => true
  | .null, .null => true
  | .number, .num _ => true
  | .string, .str _ => true
  | .boolean, .bool _ => true
  | .object, .obj _ => true
  | .color, .str s => (Color.ofCss? s).isSome
  | .enum names, .str s => names.contains s
  | .array item length, .arr items =>
      length.all (· == items.length) && items.all fun j => admits item j
  | _, _ => false

end MapStyle.Ty
