import MapStyle.Reading.Access
import MapStyle.Reading.Choice

-- Reading expression data: the operator that an array names reads its operands, and
-- the type of the result is checked against what is expected at its place.

namespace MapStyle

namespace Reading

def withOne (ctx : Context) (operands : List Operand) (read : Operand → Attempt Expr) :
    Attempt Expr :=
  match operands with
  | [o] => read o
  | _ => ctx.fail .operandsMissing

def operator (op : Operator) (ctx : Context) (operands : List Operand) : Attempt Expr :=
  match op with
  | .literal => withOne ctx operands fun o => pure (constant ctx o.raw)
  | .zoom => pure (ctx.expr .number .zoom)
  | .get => withOne ctx operands (get ctx)
  | .has =>
      match operands with
      | [key] => has ctx key
      | [key, object] => hasIn ctx key object
      | _ => ctx.fail .operandsMissing
  | .var => withOne ctx operands fun o => var ctx o.raw
  | .letIn => letIn ctx operands
  | .coalesce => coalesce ctx operands
  | .error => withOne ctx operands fun o => error ctx o.raw
  | .string => assert .string ctx operands
  | .number => assert .number ctx operands
  | .boolean => assert .boolean ctx operands
  | .object => assert .object ctx operands
  | .array => array ctx operands
  | .parseColor => withOne ctx operands (parseColor ctx)
  | .not => withOne ctx operands (not ctx)
  | .case => case ctx operands
  | .select => select ctx operands
  | .curve => curve ctx operands

def application (ctx : Context) (head : Json) (operands : List Operand) : Attempt Expr :=
  match head with
  | .str tag =>
      match Operator.ofTag? tag with
      | none => ctx.failAt 0 (.unknownOperator tag)
      | some op =>
          match op.arity.fault? (operands.length + 1) with
          | some fault => ctx.fail (.operandCount fault)
          | none => operator op ctx operands
  | other => ctx.failAt 0 (.tagNotString (Ty.ofJson other))

end Reading

open Reading in
mutual
def Expr.read : Json → Context → Attempt Expr
  | .arr [], ctx => ctx.fail .emptyArray
  | .arr (head :: args), ctx => (application ctx head (Expr.operands args)).andThen ctx.check
  | .obj _, ctx => ctx.fail .bareObject
  | .null, ctx => ctx.check (constant ctx .null)
  | .bool b, ctx => ctx.check (constant ctx (.bool b))
  | .num n, ctx => ctx.check (constant ctx (.num n))
  | .str s, ctx => ctx.check (constant ctx (.str s))

def Expr.operands : List Json → List Operand
  | [] => []
  | j :: js => ⟨j, fun ctx => Expr.read j ctx⟩ :: Expr.operands js
end

theorem Expr.operands_eq_map (js : List Json) :
    Expr.operands js = js.map fun j => ⟨j, Expr.read j⟩ := by
  induction js with
  | nil => rfl
  | cons j js ih => simp [Expr.operands,ih]

@[simp] theorem Expr.length_operands (js : List Json) : (Expr.operands js).length = js.length := by
  rw [Expr.operands_eq_map,List.length_map]

theorem Expr.operands_each {P : Operand → Prop} {js : List Json}
    (each : ∀ j ∈ js, P ⟨j, Expr.read j⟩) : ∀ o ∈ Expr.operands js, P o := by
  rw [Expr.operands_eq_map]
  exact List.forall_mem_map.mpr each

theorem Expr.operands_getElem? {js : List Json} {i : Nat} {o : Operand} :
    (Expr.operands js)[i]? = some o ↔ ∃ j, js[i]? = some j ∧ ⟨j, Expr.read j⟩ = o := by
  rw [Expr.operands_eq_map,List.getElem?_map,Option.map_eq_some_iff]

structure ParseOptions where
  expected : Option Ty
  key : Option String

def Expr.parse (data : Json) (options : ParseOptions) : Except (List ParseError) Expr :=
  let attempt := Expr.read data (Context.root options.expected options.key)
  match attempt.value?, attempt.errors with
  | some e, [] => .ok e
  | _, errors => .error errors

end MapStyle
