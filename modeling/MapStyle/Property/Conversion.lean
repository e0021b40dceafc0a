import MapStyle.Property.Schema

-- Legacy functions as expressions. The result is a coalesce of the converted function
-- and the default, so a function without a value at some input falls back on the
-- default.

namespace MapStyle

inductive ConversionError where
  | unsupportedColorSpace (name : String)
  | unknownZoomFunction (kind : String)
  | unknownPropertyFunction (kind : String)
  | unsupportedStopInput (typeName : String)
  | tooManyBooleanStops (found : Nat)
  | notAFunction
  | noProperty
  | noStops
deriving DecidableEq

namespace ConversionError

def message : ConversionError → String
  | .unsupportedColorSpace name => "Unimplemented color space \"" ++ name ++ "\"."
  | .unknownZoomFunction kind => "Unknown zoom function type \"" ++ kind ++ "\"."
  | .unknownPropertyFunction kind => "Unknown property function type \"" ++ kind ++ "\"."
  | .unsupportedStopInput typeName => "Unsupported stop input type \"" ++ typeName ++ "\"."
  | .tooManyBooleanStops found =>
      "Boolean categorical functions take one or two stops, found " ++ toString found ++ "."
  | .notAFunction => "Invalid function definition: not a function"
  | .noProperty => "Invalid function definition: a function without stops needs a property"
  | .noStops => "Invalid function definition: stops must not be empty"

end ConversionError

inductive FunctionKind where
  | categorical
  | interval
  | exponential
deriving DecidableEq

namespace Conversion

def kindOf (f : StopFunction) (schema : Schema) : Except String FunctionKind :=
  match f.kind with
  | some "categorical" => .ok .categorical
  | some "interval" => .ok .interval
  | some "exponential" => .ok .exponential
  | some other => .error other
  | none =>
      if schema.function.isSome && !schema.isInterpolated then .ok .interval else .ok .exponential

-- A constant in the form in which it reads as the type of the schema: colors are
-- parsed, arrays are wrapped.
def constant (schema : Schema) (data : Json) : Json :=
  match schema.typeName, data with
  | "color", .str s => .arr [.str "parse-color", .str s]
  | "array", .arr items => .arr [.str "literal", .arr items]
  | _, _ => data

def asArray (schema : Schema) (data : Json) : Json :=
  match schema.itemName, schema.length with
  | some item, some n => .arr [.str "array", .str item, .ofNat n, data]
  | none, some n => .arr [.str "array", .str "value", .ofNat n, data]
  | some item, none => .arr [.str "array", .str item, data]
  | none, none => .arr [.str "array", data]

def asEnum (names : List String) (data : Json) : Json :=
  let value : Json := .arr [.str "var", .str "property_value"]
  let allowed : Json := .arr [.str "var", .str "enum_values"]
  .arr [
    .str "let",
    .str "property_value", .arr [.str "string", data],
    .str "enum_values",
    .arr [.str "literal", Json.object (names.map fun name => (name, .bool true))],
    .arr [
      .str "case",
      .arr [.str "has", value, allowed],
      value,
      .arr [
        .str "error",
        .str ("Expected value to be one of " ++ ", ".intercalate names ++ ".")]]]

def asserted (schema : Schema) (data : Json) : Json :=
  match schema.typeName with
  | "color" => .arr [.str "parse-color", .arr [.str "string", data]]
  | "array" => asArray schema data
  | "enum" => asEnum schema.enumNames data
  | other => .arr [.str other, data]

def property (name : String) : Json :=
  .arr [.str "get", .str name]

def flatStops (stops : List (Json × Json)) : List Json :=
  stops.flatMap fun (input, output) => [input, output]

def easing (f : StopFunction) : Json :=
  .arr [.str "exponential", .ofFloat (f.base.getD 1)]

def inputType? : Json → Except ConversionError String
  | .str _ => .ok "string"
  | .num _ => .ok "number"
  | .bool _ => .ok "boolean"
  | .null => .error (.unsupportedStopInput "null")
  | .arr _ => .error (.unsupportedStopInput "array")
  | .obj _ => .error (.unsupportedStopInput "object")

def booleanChoice (default : Json) (input first output : Json) (rest : List (Json × Json)) :
    Except ConversionError Json :=
  if 1 < rest.length then
    .error (.tooManyBooleanStops (rest.length + 1))
  else
    let condition := if first == .bool false then .arr [.str "!", input] else input
    let otherwise := (rest.head?.map Prod.snd).getD default
    .ok (.arr [.str "case", condition, output, otherwise])

def ofProperty (f : StopFunction) (schema : Schema) (default : Json) (stops : List (Json × Json)) :
    Except ConversionError Json :=
  match kindOf f schema with
  | .error kind => .error (.unknownPropertyFunction kind)
  | .ok kind =>
      match stops with
      | [] => .error .noStops
      | (first, output) :: rest =>
          match inputType? first with
          | .error e => .error e
          | .ok type =>
              let input : Json := .arr [.str type, property (f.property.getD "")]
              if type = "boolean" ∧ (kind = .categorical ∨ f.kind.isNone) then
                booleanChoice default input first output rest
              else
                match kind with
                | .categorical =>
                    .ok (.arr (.str "match" :: input :: flatStops stops ++ [default]))
                | .interval =>
                    .ok (.arr (.str "curve" :: .arr [.str "step"] :: input :: flatStops stops))
                | .exponential =>
                    .ok (.arr (.str "curve" :: easing f :: input :: flatStops stops))

def ofZoom (f : StopFunction) (schema : Schema) (stops : List (Json × Json)) :
    Except ConversionError Json :=
  match kindOf f schema with
  | .error kind => .error (.unknownZoomFunction kind)
  | .ok .categorical => .error (.unknownZoomFunction "categorical")
  | .ok .interval =>
      .ok (.arr (.str "curve" :: .arr [.str "step"] :: .arr [.str "zoom"] :: flatStops stops))
  | .ok .exponential =>
      .ok (.arr (.str "curve" :: easing f :: .arr [.str "zoom"] :: flatStops stops))

structure ZoomGroup where
  zoom : Json
  stops : List (Json × Json)

def addStop (zoom : Json) (stop : Json × Json) : List ZoomGroup → List ZoomGroup
  | [] => [⟨zoom, [stop]⟩]
  | g :: rest =>
      if g.zoom == zoom then ⟨g.zoom, g.stops ++ [stop]⟩ :: rest else g :: addStop zoom stop rest

def part (name : String) (input : Json) : Json :=
  (input.member? name).getD .null

def groups (stops : List (Json × Json)) : List ZoomGroup :=
  stops.foldl
    (fun gs (input, output) => addStop (part "zoom" input) (part "value" input, output) gs) []

def ofGroups (f : StopFunction) (schema : Schema) (default : Json) :
    List ZoomGroup → Except ConversionError (List (Json × Json))
  | [] => .ok []
  | g :: rest => do
      let output ← ofProperty f schema default g.stops
      let others ← ofGroups f schema default rest
      .ok ((g.zoom, output) :: others)

def ofZoomAndProperty (f : StopFunction) (schema : Schema) (default : Json)
    (stops : List (Json × Json)) : Except ConversionError Json :=
  let interpolation : Json := .arr [.str (if schema.isInterpolated then "linear" else "step")]
  match ofGroups f schema default (groups stops) with
  | .ok pairs => .ok (.arr (.str "curve" :: interpolation :: .arr [.str "zoom"] :: flatStops pairs))
  | .error e => .error e

-- The default of the function or else of the schema; without any, an expression that
-- fails.
def defaultOf (f : StopFunction) (schema : Schema) : Json :=
  match f.default.or schema.default with
  | some data => constant schema data
  | none => .arr [.str "error", .str "No default property value available."]

def body (f : StopFunction) (schema : Schema) : Except ConversionError Json :=
  match f.stops, f.property with
  | none, some name => .ok (asserted schema (property name))
  | none, none => .error .noProperty
  | some [], _ => .error .noStops
  | some ((first, output) :: rest), name =>
      let stops := ((first, output) :: rest).map fun (i, o) => (i, constant schema o)
      let space := f.colorSpace.getD "rgb"
      if space ≠ "rgb" then
        .error (.unsupportedColorSpace space)
      else if first.isObject then
        ofZoomAndProperty f schema (defaultOf f schema) stops
      else if name.isSome then
        ofProperty f schema (defaultOf f schema) stops
      else
        ofZoom f schema stops

def ofFunction (f : StopFunction) (schema : Schema) : Except ConversionError Json :=
  match body f schema with
  | .ok converted => .ok (.arr [.str "coalesce", converted, defaultOf f schema])
  | .error e => .error e

def convert (data : Json) (schema : Schema) : Except ConversionError Json :=
  match StopFunction.ofJson? data with
  | some f => ofFunction f schema
  | none => .error .notAFunction

end Conversion

end MapStyle
