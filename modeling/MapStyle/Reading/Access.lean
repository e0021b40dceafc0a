import MapStyle.Reading.Context
import MapStyle.Ty.Data

namespace MapStyle.Reading

-- The type of constant data where a type is expected. An array is of the expected
-- array type if it is one of its values, so `[1, 2]` needs no assertion to be an array
-- of two numbers.
def constantType (expected : Option Ty) (data : Json) : Ty :=
  match expected with
  | some (.array item length) =>
      if (Ty.array item length).admits data then .array item length else Ty.ofJson data
  | _ => Ty.ofJson data

def constant (ctx : Context) (data : Json) : Expr :=
  ctx.expr (constantType ctx.expected data) (.literal (Value.ofJson data))

def get (ctx : Context) (name : Operand) : Attempt Expr := do
  let name ← name.readAt ctx 1 (some .string)
  pure (ctx.expr .unknown (.get name))

def has (ctx : Context) (key : Operand) : Attempt Expr := do
  let key ← key.readAt ctx 1 (some .string)
  pure (ctx.expr .boolean (.has key))

def hasIn (ctx : Context) (key object : Operand) : Attempt Expr := do
  let (key, object) ← (key.readAt ctx 1 (some .string)).both (object.readAt ctx 2 (some .object))
  pure (ctx.expr .boolean (.hasIn key object))

def isNameChar (c : Char) : Bool :=
  c.isAlphanum || c == '_'

def isName (name : String) : Bool :=
  name.toList != [] && name.toList.all isNameChar

def bindingName (ctx : Context) (position : Nat) (data : Json) : Attempt String :=
  match data with
  | .str name => if isName name then pure name else ctx.failAt position .nameCharacters
  | other => ctx.failAt position (.nameNotString (Ty.ofJson other))

def unreadable (ctx : Context) (position : Nat) : Expr :=
  (ctx.deriveUnconstrained (.index position)).expr .unknown (.literal .null)

-- The context after a binding. Each name is known to the values after it and to the
-- body, even if its own value could not be read.
def bindName (ctx : Context) (position : Nat) (name : Attempt String) (value : Attempt Expr) :
    Context :=
  match name.value? with
  | none => ctx
  | some n => ctx.bind n (value.value?.getD (unreadable ctx (position + 1)))

def bindingsThen (ctx : Context) (position : Nat) (body : Operand) :
    List (Operand × Operand) → Attempt (List (Binding Expr) × Expr)
  | [] => do
      let body ← body.readAt ctx position none
      pure ([], body)
  | (name, value) :: rest =>
      let name := bindingName ctx position name.raw
      let value := value.readFreeAt ctx (position + 1)
      let inner := bindingsThen (bindName ctx position name value) (position + 2) body rest
      ((name.both value).both inner).andThen fun ((n, v), (bindings, body)) =>
        pure (⟨n, v⟩ :: bindings, body)

def letIn (ctx : Context) (operands : List Operand) : Attempt Expr :=
  match pairsAndLast? operands with
  | none => ctx.fail (.evenLetOperands operands.length)
  | some (pairs, body) => do
      let (bindings, body) ← bindingsThen ctx 1 body pairs
      pure (ctx.expr body.type (.letIn bindings body))

def var (ctx : Context) (data : Json) : Attempt Expr :=
  match data with
  | .str name =>
      match ctx.lookup? name with
      | some bound => pure (ctx.expr bound.type (.var name))
      | none => ctx.failAt 1 (.unknownVariable name)
  | _ => ctx.failAt 1 .variableNotString

def assert (type : Ty) (ctx : Context) (operands : List Operand) : Attempt Expr := do
  let args ← Attempt.all ((operands.zipIdx 1).map fun (o, i) => o.readFreeAt ctx i)
  pure (ctx.expr type (.assert type args))

def itemType? (data : Json) : Option Ty :=
  match data.string?.bind Ty.ofName? with
  | some .string => some .string
  | some .number => some .number
  | some .boolean => some .boolean
  | some .unknown => some .unknown
  | _ => none

def itemType (ctx : Context) (data : Json) : Attempt Ty :=
  match itemType? data with
  | some type => pure type
  | none => ctx.failAt 1 .itemType

def arrayLength (ctx : Context) (data : Json) : Attempt Nat :=
  match data.nat? with
  | some (n + 1) => pure (n + 1)
  | _ => ctx.failAt 2 .arrayLength

def arrayOf (ctx : Context) (item : Ty) (length : Option Nat) (position : Nat) (input : Operand) :
    Attempt Expr := do
  let input ← input.readFreeAt ctx position
  pure (ctx.expr (.array item length) (.assertArray item length input))

def array (ctx : Context) : List Operand → Attempt Expr
  | [input] => arrayOf ctx .unknown none 1 input
  | [item, input] => do
      let item ← itemType ctx item.raw
      arrayOf ctx item none 2 input
  | [item, length, input] => do
      let item ← itemType ctx item.raw
      let length ← arrayLength ctx length.raw
      arrayOf ctx item (some length) 3 input
  | _ => ctx.fail .operandsMissing

def parseColor (ctx : Context) (input : Operand) : Attempt Expr := do
  let input ← input.readAt ctx 1 (some .string)
  pure (ctx.expr .color (.parseColor input))

def not (ctx : Context) (input : Operand) : Attempt Expr := do
  let input ← input.readAt ctx 1 (some .boolean)
  pure (ctx.expr .boolean (.not input))

-- A node that only fails takes whatever type is expected of it.
def error (ctx : Context) (data : Json) : Attempt Expr :=
  match data with
  | .str message => pure (ctx.expr (ctx.expected.getD .unknown) (.throw message))
  | _ => ctx.failAt 1 .errorMessageNotString

end MapStyle.Reading
