import MapStyle.Json
import MapStyle.Ty.Data

-- Reading records with optional fields from data. A record is written as an object,
-- where members that are no fields do not matter, or as an array of its fields in
-- order, where the last ones may be left out. A field that is null counts as left out.

namespace MapStyle

structure Record where
  field? : String → Option Json

namespace Record

def present? : Option Json → Option Json
  | some .null => none
  | other => other

def ofJson? (fields : List String) : Json → Option Record
  | .obj members => some ⟨fun name => present? (members.lookup name)⟩
  | .arr items =>
      if items.length ≤ fields.length then
        some ⟨fun name => present? ((fields.zip items).lookup name)⟩
      else
        none
  | _ => none

def optional? {α : Type} (r : Record) (name : String) (read : Json → Option α) :
    Option (Option α) :=
  match r.field? name with
  | none => some none
  | some j => (read j).map some

def required? {α : Type} (r : Record) (name : String) (read : Json → Option α) : Option α :=
  (r.field? name).bind read

end Record

structure Schema where
  typeName : String
  itemName : Option String
  length : Option Nat
  values : Option Json
  function : Option String
  default : Option Json

namespace Schema

def ofTypeName (typeName : String) : Schema where
  typeName := typeName
  itemName := none
  length := none
  values := none
  function := none
  default := none

def withDefault (schema : Schema) (default : Json) : Schema :=
  { schema with default := some default }

def interpolated (schema : Schema) : Schema :=
  { schema with function := some "interpolated" }

def ofJson? (data : Json) : Option Schema := do
  let r ← Record.ofJson? ["type", "value", "length", "values", "function", "default"] data
  let typeName ← r.required? "type" Json.string?
  let itemName ← r.optional? "value" Json.string?
  let length ← r.optional? "length" Json.nat?
  let values ← r.optional? "values" some
  let function ← r.optional? "function" Json.string?
  let default ← r.optional? "default" some
  some ⟨typeName, itemName, length, values, function, default⟩

def isInterpolated (schema : Schema) : Bool :=
  schema.function == some "interpolated"

def enumNames (schema : Schema) : List String :=
  match schema.values with
  | some (.arr items) => items.filterMap Json.string?
  | some (.obj members) => members.map Prod.fst
  | _ => []

def valueType (schema : Schema) : Ty :=
  if schema.typeName = "enum" then
    Ty.oneOf schema.enumNames
  else if schema.typeName = "array" then
    .array ((schema.itemName.bind Ty.ofName?).getD .unknown) schema.length
  else
    (Ty.ofName? schema.typeName).getD .unknown

end Schema

-- Legacy functions: a list of stops that pair an input with an output. Inputs are the
-- zoom, a property of the feature, or objects that hold a zoom and a property value.

structure StopFunction where
  property : Option String
  kind : Option String
  base : Option Float
  colorSpace : Option String
  default : Option Json
  stops : Option (List (Json × Json))

namespace StopFunction

def stop? : Json → Option (Json × Json)
  | .arr [input, output] => some (input, output)
  | _ => none

def stops? : Json → Option (List (Json × Json))
  | .arr items => items.mapM stop?
  | _ => none

def ofJson? (data : Json) : Option StopFunction := do
  let r ← Record.ofJson? ["property", "type", "base", "colorSpace", "default", "stops"] data
  let property ← r.optional? "property" Json.string?
  let kind ← r.optional? "type" Json.string?
  let base ← r.optional? "base" Json.float?
  let colorSpace ← r.optional? "colorSpace" Json.string?
  let default ← r.optional? "default" some
  let stops ← r.optional? "stops" stops?
  some ⟨property, kind, base, colorSpace, default, stops⟩

end StopFunction

end MapStyle
