import MapStyle.Evaluation.Session
import MapStyle.Value.Basic
import MapStyle.Color.Css
import MapStyle.Expr.Basic

namespace MapStyle.Value

mutual
def blend (t : Float) : Value → Value → Except EvalError Value
  | .num x, .num y => .ok (.num (between x y t))
  | .color x, .color y => .ok (.color (x.mix y t))
  | .arr as, .arr bs =>
      if as.length = bs.length then
        match blendItems t as bs with
        | .ok items => .ok (.arr items)
        | .error e => .error e
      else
        .error (.typeMismatch (typeOf (.arr as)) (typeOf (.arr bs)))
  | a, b => .error (.typeMismatch a.typeOf b.typeOf)

def blendItems (t : Float) : List Value → List Value → Except EvalError (List Value)
  | a :: as, b :: bs =>
      match blend t a b with
      | .ok x =>
          match blendItems t as bs with
          | .ok xs => .ok (x :: xs)
          | .error e => .error e
      | .error e => .error e
  | _, _ => .ok []
end

end MapStyle.Value

-- What each node evaluates to, given the evaluations of its sub-expressions. Which of
-- them are run, and in which order, is part of the meaning, since they ask the feature
-- and may fail.

namespace MapStyle

namespace Eval

def text (v : Value) : Eval String :=
  match v with
  | .str s => pure s
  | other => fail (.typeMismatch .string other.typeOf)

def truth (v : Value) : Eval Bool :=
  match v with
  | .bool b => pure b
  | other => fail (.typeMismatch .boolean other.typeOf)

def number (v : Value) : Eval Float :=
  match v with
  | .num x => pure x
  | other => fail (.typeMismatch .number other.typeOf)

def get (name : Value) : Eval Value := do
  let name ← text name
  match ← property name with
  | some j => pure (Value.ofJson j)
  | none => fail (.missingProperty name)

def has (key : Value) : Eval Value := do
  let key ← text key
  let found ← property key
  pure (.bool found.isSome)

def member (key : String) (object : Value) : Eval Value :=
  match object with
  | .obj members => pure (.bool (members.lookup key).isSome)
  | other => fail (.typeMismatch .object other.typeOf)

def bindAll : List (Binding (Eval Value)) → Eval Unit
  | [] => pure ()
  | b :: rest => do
      let v ← b.value
      push b.name v
      bindAll rest

def firstValue (last : Option EvalError) : List (Eval Value) → Eval Value
  | [] =>
      match last with
      | some e => fail e
      | none => pure .null
  | a :: rest => fun s =>
      match a s with
      | (.ok v, s') => if v.isNull then firstValue last rest s' else (.ok v, s')
      | (.error e, s') => firstValue (some e) rest s'

-- The first value of a type; `found` is the type of the value before.
def firstOfType (type found : Ty) : List (Eval Value) → Eval Value
  | [] => fail (.typeMismatch type found)
  | a :: rest => do
      let v ← a
      if v.typeOf = type then pure v else firstOfType type v.typeOf rest

def isArrayOf (item : Ty) (length : Option Nat) : Value → Bool
  | .arr items =>
      length.all (· == items.length) && (item == .unknown || items.all fun v => v.typeOf == item)
  | _ => false

def arrayOf (item : Ty) (length : Option Nat) (v : Value) : Eval Value :=
  if isArrayOf item length v then pure v
  else fail (.typeMismatch (.array item length) v.typeOf)

def color (v : Value) : Eval Value :=
  match v with
  | .str s =>
      match Color.ofCss? s with
      | some c => pure (.color c)
      | none => fail (.invalidColor s)
  | .color c => pure (.color c)
  | other => fail (.typeMismatch .string other.typeOf)

def firstTrue (otherwise : Eval Value) : List (Branch (Eval Value)) → Eval Value
  | [] => otherwise
  | b :: rest => do
      if ← truth (← b.condition) then b.output else firstTrue otherwise rest

def labelled (v : Value) (otherwise : Eval Value) (arms : List (Arm (Eval Value))) : Eval Value :=
  match arms.find? fun a => a.labels.contains v with
  | some arm => arm.output
  | none => otherwise

def past (interpolation : Interpolation) (x : Float) (lower : Stop (Eval Value)) :
    List (Stop (Eval Value)) → Eval Value
  | [] => lower.output
  | upper :: rest =>
      if upper.input ≤ x then past interpolation x upper rest
      else if interpolation.isStep then lower.output
      else do
        let a ← lower.output
        let b ← upper.output
        ofExcept (Value.blend (interpolation.factor x lower.input upper.input) a b)

-- The output of a curve with these stops. Up to the first stop and from the last one
-- on it is that stop's output.
def along (interpolation : Interpolation) (stops : List (Stop (Eval Value))) (x : Float) :
    Eval Value :=
  if x.isNaN then fail .nanCurveInput
  else
    match stops with
    | [] => fail .noStops
    | first :: rest => if x ≤ first.input then first.output else past interpolation x first rest

end Eval

def Node.run : Node (Eval Value) → Eval Value
  | .literal v => pure v
  | .zoom => do
      let z ← Eval.zoom
      pure (.num z)
  | .get name => do Eval.get (← name)
  | .has key => do Eval.has (← key)
  | .hasIn key object => do
      let key ← Eval.text (← key)
      Eval.member key (← object)
  | .var name => Eval.lookup name
  | .letIn bindings body => Eval.inScope do
      Eval.bindAll bindings
      body
  | .coalesce args => Eval.firstValue none args
  | .throw message => Eval.fail (.thrown message)
  | .assert type args => Eval.firstOfType type .unknown args
  | .assertArray item length input => do Eval.arrayOf item length (← input)
  | .parseColor input => do Eval.color (← input)
  | .not input => do
      let b ← Eval.truth (← input)
      pure (.bool !b)
  | .case branches otherwise => Eval.firstTrue otherwise branches
  | .select input arms otherwise => do Eval.labelled (← input) otherwise arms
  | .curve interpolation input stops => do
      Eval.along interpolation stops (← Eval.number (← input))

def Expr.eval : Expr → Eval Value :=
  Expr.fold fun _ node => node.run

theorem Expr.eval_eq (e : Expr) : e.eval = (e.node.map Expr.eval).run :=
  Expr.fold_eq _ e

end MapStyle
