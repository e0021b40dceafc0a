import MapStyle.Reading.Context
import MapStyle.Ty.Data

-- Outputs of a node that yields one out of several. They have to agree in type. What
-- the ones read so far have in common is expected of the next, once it is more than
-- nothing.

namespace MapStyle.Reading

abbrev Common := Option Ty

def Common.expectation (common : Common) : Option Ty :=
  common.filter fun type => type != .unknown

def Common.add (common : Common) (type : Ty) : Except (Ty × Ty) Ty :=
  match common with
  | none => .ok type
  | some known =>
      match known.meet? type with
      | some both => .ok both
      | none => .error (known, type)

def output (ctx : Context) (common : Common) (position : Nat) (operand : Operand) :
    Common × Attempt Expr :=
  let attempt := operand.readAt ctx position common.expectation
  match attempt.value? with
  | none => (common, attempt)
  | some e =>
      match common.add e.type with
      | .ok both => (some both, attempt)
      | .error (known, found) =>
          (common, attempt.andThen fun _ => ctx.failAt position (.typeMismatch known found))

structure LabelState where
  type? : Option Ty
  seen : List Value

def labelType? : Json → Option Ty
  | .str _ => some .string
  | .num _ => some .number
  | .bool _ => some .boolean
  | _ => none

def labels (ctx : Context) (position : Nat) :
    LabelState → List Json → LabelState × Attempt (List Value)
  | state, [] => (state, pure [])
  | state, label :: rest =>
      match labelType? label with
      | none => (state, ctx.failAt position (.labelKind (Ty.ofJson label)))
      | some type =>
          let shared := state.type?.getD type
          if shared = type then
            let value := Value.ofJson label
            if state.seen.contains value then
              (⟨some type, state.seen⟩, ctx.failAt position .repeatedLabel)
            else
              let (final, others) := labels ctx position ⟨some type, value :: state.seen⟩ rest
              (final, others.andThen fun values => pure (value :: values))
          else
            (state, ctx.failAt position (.typeMismatch shared type))

def armLabels (ctx : Context) (position : Nat) (state : LabelState) (data : Json) :
    LabelState × Attempt (List Value) :=
  match data with
  | .arr [] => (state, ctx.failAt position .noLabels)
  | .arr several => labels ctx position state several
  | single => labels ctx position state [single]

-- Reads the arguments of a coalesce. A failed one is passed over, but one that cannot
-- be reconciled with those before it ends the reading.
def alternatives (ctx : Context) : Common → Nat → List Operand → Common × Attempt (List Expr)
  | common, _, [] => (common, pure [])
  | common, position, operand :: rest =>
      let attempt := operand.readAt ctx position common.expectation
      match attempt.value? with
      | none =>
          let (final, others) := alternatives ctx common (position + 1) rest
          (final, attempt.cons others)
      | some e =>
          match common.add e.type with
          | .ok both =>
              let (final, others) := alternatives ctx (some both) (position + 1) rest
              (final, attempt.cons others)
          | .error (known, found) =>
              (common, attempt.andThen fun _ => ctx.failAt position (.typeMismatch known found))

def coalesce (ctx : Context) (operands : List Operand) : Attempt Expr :=
  let (common, args) := alternatives ctx none 1 operands
  args.andThen fun args => pure (ctx.expr (common.getD .unknown) (.coalesce args))

def branches (ctx : Context) :
    Common → Nat → List (Operand × Operand) → Common × Attempt (List (Branch Expr))
  | common, _, [] => (common, pure [])
  | common, position, (condition, result) :: rest =>
      let condition := condition.readAt ctx position (some .boolean)
      let (common, result) := output ctx common (position + 1) result
      let (common, others) := branches ctx common (position + 2) rest
      let branch := (condition.both result).andThen fun (c, r) => pure ⟨c, r⟩
      (common, branch.cons others)

def case (ctx : Context) (operands : List Operand) : Attempt Expr :=
  match pairsAndLast? operands with
  | none => ctx.fail .evenOperands
  | some (pairs, last) =>
      let (common, branches) := branches ctx none 1 pairs
      let (common, otherwise) := output ctx common operands.length last
      (branches.both otherwise).andThen fun (branches, otherwise) =>
        pure (ctx.expr (common.getD .unknown) (.case branches otherwise))

def arms (ctx : Context) : LabelState → Common → Nat → List (Operand × Operand) →
    LabelState × Common × Attempt (List (Arm Expr))
  | state, common, _, [] => (state, common, pure [])
  | state, common, position, (label, result) :: rest =>
      let (state, values) := armLabels ctx position state label.raw
      let (common, result) := output ctx common (position + 1) result
      let (state, common, others) := arms ctx state common (position + 2) rest
      let arm := (values.both result).andThen fun (l, r) => pure ⟨l, r⟩
      (state, common, arm.cons others)

-- Reads a match. The input comes last, since the labels tell its type.
def select (ctx : Context) : List Operand → Attempt Expr
  | [] => ctx.fail .operandsMissing
  | input :: operands =>
      match pairsAndLast? operands with
      | none => ctx.fail .oddOperands
      | some (pairs, last) =>
          let (state, common, arms) := arms ctx ⟨none, []⟩ none 2 pairs
          let (common, otherwise) := output ctx common (operands.length + 1) last
          let input :=
            match state.type? with
            | some type => input.readAt ctx 1 (some type)
            | none => input.readFreeAt ctx 1
          ((arms.both otherwise).both input).andThen fun ((arms, otherwise), input) =>
            pure (ctx.expr (common.getD .unknown) (.select input arms otherwise))

def interpolation (ctx : Context) (data : Json) : Attempt Interpolation :=
  match Interpolation.ofJson? data with
  | none => ctx.failAt 1 .unknownInterpolation
  | some (.exponential base) =>
      if base.isFinite && 0 < base then pure (.exponential base)
      else ctx.failAt 1 (.interpolationBase base)
  | some other => pure other

-- Reads stops; the first number stands at `position`. A number that is none or does
-- not lie above the last one whose output was read ends the reading.
def stops (ctx : Context) : Common → Option Float → Nat → List (Operand × Operand) →
    Common × Attempt (List (Stop Expr))
  | common, _, _, [] => (common, pure [])
  | common, last, position, (number, result) :: rest =>
      match number.raw.float? with
      | none => (common, ctx.failAt position .stopNotNumber)
      | some x =>
          if last.any fun y => x ≤ y then
            (common, ctx.failAt position .stopsNotAscending)
          else
            let (common, result) := output ctx common (position + 1) result
            let last := if result.value?.isSome then some x else last
            let (common, others) := stops ctx common last (position + 2) rest
            (common, (result.andThen fun e => pure ⟨x, e⟩).cons others)

def curveOf (ctx : Context) (interpolation : Interpolation) (input : Operand)
    (pairs : List (Operand × Operand)) : Attempt Expr :=
  let input := input.readAt ctx 2 (some .number)
  let (common, stops) := stops ctx none none 3 pairs
  (input.both stops).andThen fun (input, stops) =>
    let type := common.getD .unknown
    if interpolation.isStep || type.blends then
      pure (ctx.expr type (.curve interpolation input stops))
    else
      ctx.fail (.notInterpolatable type)

def curve (ctx : Context) : List Operand → Attempt Expr
  | kind :: input :: operands =>
      match pairs? operands with
      | none => ctx.fail .oddOperands
      | some pairs => do
          let kind ← interpolation ctx kind.raw
          curveOf ctx kind input pairs
  | _ => ctx.fail .operandsMissing

end MapStyle.Reading
