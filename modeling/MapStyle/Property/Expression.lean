import MapStyle.Evaluation.Compiled
import MapStyle.Expr.Written
import MapStyle.Property.Conversion
import MapStyle.Reading.Expression

namespace MapStyle

inductive PropertyError where
  | conversion (e : ConversionError)
  | parse (errors : List ParseError)

def PropertyError.message : PropertyError → String
  | .conversion e => e.message
  | .parse errors => ParseError.report errors

structure PropertyExpression where
  compiled : Compiled

namespace PropertyExpression

def dataOf (raw : Json) (schema : Schema) : Except ConversionError Json :=
  if raw.isObject then Conversion.convert raw schema else .ok raw

def create (raw : Json) (schema : Schema) (key : Option String) :
    Except PropertyError PropertyExpression :=
  match dataOf raw schema with
  | .error e => .error (.conversion e)
  | .ok data =>
      match Expr.parse data ⟨some schema.valueType, key⟩ with
      | .error errors => .error (.parse errors)
      | .ok e => .ok ⟨e.compile⟩

def evaluate (p : PropertyExpression) (zoom : Option Float) (feature : Option Feature) :
    Except EvalError Value × List String :=
  p.compiled.evaluate zoom feature

def written (p : PropertyExpression) : Json :=
  p.compiled.expr.written

end PropertyExpression

end MapStyle
