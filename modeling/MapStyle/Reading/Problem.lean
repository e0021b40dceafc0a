import MapStyle.Decimal.Numeral
import MapStyle.Expr.Node
import MapStyle.Reading.Operator
import MapStyle.Ty.Data

namespace MapStyle

inductive Problem where
  | bareObject
  | emptyArray
  | tagNotString (found : Ty)
  | unknownOperator (tag : String)
  | operandCount (fault : ArityFault)
  | operandsMissing
  | typeMismatch (expected found : Ty)
  | evenOperands
  | evenLetOperands (found : Nat)
  | oddOperands
  | nameNotString (found : Ty)
  | nameCharacters
  | variableNotString
  | unknownVariable (name : String)
  | errorMessageNotString
  | itemType
  | arrayLength
  | noLabels
  | labelKind (found : Ty)
  | repeatedLabel
  | unknownInterpolation
  | interpolationBase (base : Float)
  | stopNotNumber
  | stopsNotAscending
  | notInterpolatable (type : Ty)
  -- What an embedding program has to report itself.
  | other (message : String)

namespace Problem

def message : Problem → String
  | .bareObject => "Bare objects invalid. Use [\"literal\", \x7b...\x7d] instead."
  | .emptyArray =>
      "Expected an array with at least one element. If you wanted a literal array, use " ++
        "[\"literal\", []]."
  | .tagNotString found =>
      "Expression name must be a string, but found " ++ found.text ++
        " instead. If you wanted a literal array, use [\"literal\", [...]]."
  | .unknownOperator tag =>
      "Unknown expression \"" ++ tag ++
        "\". If you wanted a literal array, use [\"literal\", [...]]."
  | .operandCount fault => fault.message
  | .operandsMissing => "Expected more arguments."
  | .typeMismatch expected found =>
      "Expected " ++ expected.text ++ " but found " ++ found.text ++ " instead."
  | .evenOperands => "Expected an odd number of arguments."
  | .evenLetOperands found =>
      "Expected an odd number of arguments, but found " ++ toString found ++ " instead."
  | .oddOperands => "Expected an even number of arguments."
  | .nameNotString found => "Expected string, but found " ++ found.text ++ " instead."
  | .nameCharacters => "Variable names must contain only alphanumeric characters or '_'."
  | .variableNotString => "Variable name must be a string literal."
  | .unknownVariable name =>
      "Unknown variable \"" ++ name ++ "\". Make sure \"" ++ name ++
        "\" has been bound in an enclosing \"let\" expression before using it."
  | .errorMessageNotString => "Error message must be a string literal."
  | .itemType =>
      "The item type argument of \"array\" must be one of string, number, boolean"
  | .arrayLength => "The length argument to \"array\" must be a positive integer literal"
  | .noLabels => "Expected at least one branch label."
  | .labelKind found =>
      "Branch labels must be strings, numbers or booleans, but found " ++ found.text ++ " instead."
  | .repeatedLabel => "Branch labels must be unique."
  | .unknownInterpolation =>
      "Unknown interpolation type. Use [\"step\"], [\"linear\"] or [\"exponential\", base]."
  | .interpolationBase base =>
      "Exponential interpolation requires a positive base, but found " ++ Decimal.text base ++ "."
  | .stopNotNumber =>
      "Input/output pairs for \"curve\" expressions must be defined using literal numeric values " ++
        "(not computed expressions) for the input values."
  | .stopsNotAscending =>
      "Input/output pairs for \"curve\" expressions must be arranged with input values in " ++
        "strictly ascending order."
  | .notInterpolatable type => "Type " ++ type.text ++ " is not interpolatable."
  | .other message => message

end Problem

structure ParseError where
  path : Path
  problem : Problem

namespace ParseError

def text (e : ParseError) : String :=
  e.path.text ++ ": " ++ e.problem.message

def report (errors : List ParseError) : String :=
  "\n".intercalate (errors.map text)

end ParseError

end MapStyle
