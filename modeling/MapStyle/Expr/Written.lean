import MapStyle.Expr.Basic

-- The written form of an expression: JSON arrays of an operator's tag and its
-- operands. Paths and types are not written; a reader finds them again.

namespace MapStyle

-- A constant. Arrays and objects need a wrapper, since bare ones would be read as
-- expressions.
def Value.written (v : Value) : Json :=
  match v with
  | .arr _ => .arr [.str "literal", v.toJson]
  | .obj _ => .arr [.str "literal", v.toJson]
  | .color c => .arr [.str "parse-color", .str c.css]
  | _ => v.toJson

def Arm.writtenLabels (a : Arm Json) : Json :=
  match a.labels with
  | [single] => single.toJson
  | several => .arr (several.map Value.toJson)

def Node.written : Node Json → Json
  | .literal v => v.written
  | .zoom => .arr [.str "zoom"]
  | .get name => .arr [.str "get", name]
  | .has key => .arr [.str "has", key]
  | .hasIn key object => .arr [.str "has", key, object]
  | .var name => .arr [.str "var", .str name]
  | .letIn bindings body =>
      .arr (.str "let" :: (bindings.flatMap fun b => [.str b.name, b.value]) ++ [body])
  | .coalesce args => .arr (.str "coalesce" :: args)
  | .throw message => .arr [.str "error", .str message]
  | .assert type args => .arr (.str type.text :: args)
  | .assertArray .unknown none input => .arr [.str "array", input]
  | .assertArray item none input => .arr [.str "array", .str item.text, input]
  | .assertArray item (some n) input =>
      .arr [.str "array", .str item.text, .ofNat n, input]
  | .parseColor input => .arr [.str "parse-color", input]
  | .not input => .arr [.str "!", input]
  | .case branches otherwise =>
      .arr (.str "case" :: (branches.flatMap fun b => [b.condition, b.output]) ++ [otherwise])
  | .select input arms otherwise =>
      .arr (.str "match" :: input ::
        (arms.flatMap fun a => [a.writtenLabels, a.output]) ++ [otherwise])
  | .curve interpolation input stops =>
      .arr (.str "curve" :: interpolation.toJson :: input ::
        stops.flatMap fun s => [.ofFloat s.input, s.output])

def Expr.written : Expr → Json :=
  Expr.fold fun _ node => node.written

theorem Expr.written_eq (e : Expr) : e.written = (e.node.map Expr.written).written :=
  Expr.fold_eq _ e

end MapStyle
