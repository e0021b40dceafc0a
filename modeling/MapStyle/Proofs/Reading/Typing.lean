import MapStyle.Proofs.Reading.Operators
import MapStyle.Proofs.Scope.Basic

namespace MapStyle

namespace Reading

def Common.join (common : Common) : List Ty → Option Common
  | [] => some common
  | type :: rest =>
      match common.add type with
      | .ok both => Common.join (some both) rest
      | .error _ => none

theorem Common.join_cons {common : Common} {type both : Ty} (added : common.add type = .ok both)
    (rest : List Ty) : common.join (type :: rest) = Common.join (some both) rest := by
  rw [join,added]

theorem Common.join_head {common middle : Common} {type : Ty}
    (first : common.join [type] = some middle) (rest : List Ty) :
    common.join (type :: rest) = middle.join rest := by
  cases added : common.add type with
  | error types =>
      simp only [join,added] at first
      cases first
  | ok both =>
      simp only [join,added] at first ⊢
      cases first
      rfl

theorem Common.join_known (known : Ty) (types : List Ty) :
    Common.join (some known) types = (types.foldlM Ty.meet? known).map some := by
  induction types generalizing known with
  | nil => rfl
  | cons type rest ih =>
      rw [List.foldlM_cons,join,add]
      cases known.meet? type with
      | none => rfl
      | some both => exact ih both

theorem Common.join_all {types : List Ty} (nonempty : types ≠ []) :
    Common.join none types = (Ty.meetAll? types).map some := by
  cases types with
  | nil => exact absurd rfl nonempty
  | cons type rest => exact join_known type rest

theorem Common.join_some {type : Ty} {types : List Ty} {final : Common}
    (joins : Common.join (some type) types = some final) : ∃ type', final = some type' := by
  rw [join_known,Option.map_eq_some_iff] at joins
  obtain ⟨type', _, rfl⟩ := joins
  exact ⟨type', rfl⟩

theorem Common.join_append {common middle final : Common} {types types' : List Ty}
    (first : common.join types = some middle) (second : middle.join types' = some final) :
    common.join (types ++ types') = some final := by
  induction types generalizing common with
  | nil =>
      cases first
      exact second
  | cons type rest ih =>
      rw [List.cons_append]
      unfold join at first ⊢
      cases added : common.add type with
      | error types =>
          rw [added] at first
          cases first
      | ok both =>
          rw [added] at first
          exact ih first

open Attempt

variable {ctx : Context} {position : Nat}

theorem output_joins {common final : Common} {o : Operand} {e : Expr}
    (success : output ctx common position o = (final, pure e)) :
    common.join [e.type] = some final := by
  obtain ⟨_, both, added, rfl⟩ := output_eq_pure.mp success
  rw [Common.join_cons added]
  rfl

theorem alternatives_joins {common final : Common} {operands : List Operand} {es : List Expr}
    (success : alternatives ctx common position operands = (final, pure es)) :
    common.join (es.map Expr.type) = some final := by
  induction operands generalizing common position es with
  | nil =>
      obtain ⟨rfl, ended⟩ := Prod.mk.inj success
      obtain rfl := pure_eq_pure.mp ended
      rfl
  | cons o rest ih =>
      obtain ⟨e, both, others, _, added, after, rfl⟩ := alternatives_cons_eq_pure.mp success
      rw [List.map_cons,Common.join_cons added]
      exact ih after

theorem branches_join {common final : Common} {pairs : List (Operand × Operand)}
    {bs : List (Branch Expr)} (success : branches ctx common position pairs = (final, pure bs)) :
    common.join (bs.map fun b => b.output.type) = some final := by
  induction pairs generalizing common position bs with
  | nil =>
      obtain ⟨rfl, ended⟩ := Prod.mk.inj success
      obtain rfl := pure_eq_pure.mp ended
      rfl
  | cons p rest ih =>
      obtain ⟨_, _, _, others, _, inside, after, rfl⟩ := branches_cons_eq_pure.mp success
      rw [List.map_cons,Common.join_head (output_joins inside)]
      exact ih after

theorem arms_join {state final : LabelState} {common final' : Common}
    {pairs : List (Operand × Operand)} {as : List (Arm Expr)}
    (success : arms ctx state common position pairs = (final, final', pure as)) :
    common.join (as.map fun a => a.output.type) = some final' := by
  induction pairs generalizing state common position as with
  | nil =>
      obtain ⟨_, rest⟩ := Prod.mk.inj success
      obtain ⟨rfl, ended⟩ := Prod.mk.inj rest
      obtain rfl := pure_eq_pure.mp ended
      rfl
  | cons p rest ih =>
      obtain ⟨_, _, _, _, others, _, inside, after, rfl⟩ := arms_cons_eq_pure.mp success
      rw [List.map_cons,Common.join_head (output_joins inside)]
      exact ih after

theorem stops_join {common final : Common} {last : Option Float}
    {pairs : List (Operand × Operand)} {ss : List (Stop Expr)}
    (success : stops ctx common last position pairs = (final, pure ss)) :
    common.join (ss.map fun s => s.output.type) = some final := by
  induction pairs generalizing common last position ss with
  | nil =>
      obtain ⟨rfl, ended⟩ := Prod.mk.inj success
      obtain rfl := pure_eq_pure.mp ended
      rfl
  | cons p rest ih =>
      obtain ⟨_, _, _, others, _, _, inside, after, rfl⟩ := stops_cons_eq_pure.mp success
      rw [List.map_cons,Common.join_head (output_joins inside)]
      exact ih after

end Reading

open Reading Attempt

-- The type of a node that yields one of several outputs, of which there is at
-- least one.
def Joined (outputs : List Expr) (type : Ty) : Prop :=
  outputs ≠ [] ∧ Common.join none (outputs.map Expr.type) = some (some type)

-- The outputs of a node, in the order in which they are read. Other nodes have
-- none.
def Node.outputs {α : Type} : Node α → List α
  | .coalesce args => args
  | .case branches otherwise => branches.map Branch.output ++ [otherwise]
  | .select _ arms otherwise => arms.map Arm.output ++ [otherwise]
  | .curve _ _ stops => stops.map Stop.output
  | _ => []

-- How the type of a node depends on its parts and on what its scope binds.
def Node.Typed (scope : Scope) (type : Ty) (node : Node Expr) : Prop :=
  match node with
  | .literal v => ∃ expected data, v = Value.ofJson data ∧ type = constantType expected data
  | .zoom => type = .number
  | .get _ => type = .unknown
  | .has _ | .hasIn _ _ | .not _ => type = .boolean
  | .var name => ∃ bound, scope.lookup name = some bound ∧ type = bound.type
  | .letIn _ body => type = body.type
  | .throw _ => True
  | .assert asserted _ => type = asserted
  | .assertArray item length _ => type = .array item length
  | .parseColor _ => type = .color
  | .coalesce _ | .case _ _ | .select _ _ _ | .curve _ _ _ => Joined node.outputs type

namespace Reading

theorem joined_of_join {outputs : List Expr} {common : Common} (nonempty : outputs ≠ [])
    (joins : Common.join none (outputs.map Expr.type) = some common) :
    Joined outputs (common.getD .unknown) := by
  refine ⟨nonempty, ?_⟩
  cases outputs with
  | nil => exact absurd rfl nonempty
  | cons first rest =>
      have after : Common.join (some first.type) (rest.map Expr.type) = some common := joins
      obtain ⟨type, rfl⟩ := Common.join_some after
      exact joins

variable {ctx : Context} {operands : List Operand} {e : Expr}

theorem coalesce_typed (counted : operands ≠ []) (success : coalesce ctx operands = pure e) :
    e.path = ctx.path ∧ e.node.Typed ctx.scope e.type := by
  obtain ⟨common, args, read, rfl⟩ := coalesce_eq_pure.mp success
  have nonempty : args ≠ [] := by
    intro empty
    rw [empty] at read
    exact counted (List.length_eq_zero_iff.mp (alternatives_length read).symm)
  exact ⟨rfl, joined_of_join nonempty (alternatives_joins read)⟩

theorem case_typed (success : case ctx operands = pure e) :
    e.path = ctx.path ∧ e.node.Typed ctx.scope e.type := by
  obtain ⟨_, _, common, bs, final, o, _, read, inside, rfl⟩ := case_eq_pure.mp success
  have nonempty : bs.map Branch.output ++ [o] ≠ [] := by simp
  have joins : Common.join none ((bs.map Branch.output ++ [o]).map Expr.type) = some final := by
    rw [List.map_append,List.map_map]
    exact Common.join_append (branches_join read) (output_joins inside)
  exact ⟨rfl, joined_of_join nonempty joins⟩

theorem select_typed (success : select ctx operands = pure e) :
    e.path = ctx.path ∧ e.node.Typed ctx.scope e.type := by
  obtain ⟨input, operands, rfl⟩ := select_operands success
  obtain ⟨_, _, state, common, as, final, o, i, _, read, inside, _, rfl⟩ :=
    select_eq_pure.mp success
  have nonempty : as.map Arm.output ++ [o] ≠ [] := by simp
  have joins : Common.join none ((as.map Arm.output ++ [o]).map Expr.type) = some final := by
    rw [List.map_append,List.map_map]
    exact Common.join_append (arms_join read) (output_joins inside)
  exact ⟨rfl, joined_of_join nonempty joins⟩

theorem curve_typed (counted : 2 < operands.length) (success : curve ctx operands = pure e) :
    e.path = ctx.path ∧ e.node.Typed ctx.scope e.type := by
  obtain ⟨kind, input, operands, rfl⟩ := curve_operands success
  obtain ⟨pairs, i, x, common, ss, taken, _, _, inside, _, rfl⟩ := curve_eq_pure.mp success
  have length := stops_length inside
  have nonempty : ss.map Stop.output ≠ [] := by
    intro empty
    rw [List.map_eq_nil_iff.mp empty,List.length_nil] at length
    rw [pairs?_eq_some,List.length_eq_zero_iff.mp length.symm] at taken
    rw [taken] at counted
    simp at counted
  have joins : Common.join none ((ss.map Stop.output).map Expr.type) = some common := by
    rw [List.map_map]
    exact stops_join inside
  exact ⟨rfl, joined_of_join nonempty joins⟩

theorem operator_typed {op : Operator} (counted : op.arity.fault? (operands.length + 1) = none)
    (success : operator op ctx operands = pure e) :
    e.path = ctx.path ∧ e.node.Typed ctx.scope e.type := by
  cases op with
  | literal =>
      obtain ⟨o, _, made⟩ := withOne_eq_pure.mp success
      obtain rfl := pure_eq_pure.mp made
      exact ⟨rfl, ctx.expected, o.raw, rfl, rfl⟩
  | zoom =>
      obtain rfl := pure_eq_pure.mp success
      exact ⟨rfl, rfl⟩
  | get =>
      obtain ⟨o, _, success⟩ := withOne_eq_pure.mp success
      obtain ⟨n, _, rfl⟩ := get_eq_pure.mp success
      exact ⟨rfl, rfl⟩
  | has =>
      rcases operator_has_eq_pure.mp success with ⟨_, _, success⟩ | ⟨_, _, _, success⟩
      · obtain ⟨k, _, rfl⟩ := has_eq_pure.mp success
        exact ⟨rfl, rfl⟩
      · obtain ⟨k, o, _, _, rfl⟩ := hasIn_eq_pure.mp success
        exact ⟨rfl, rfl⟩
  | var =>
      obtain ⟨o, _, success⟩ := withOne_eq_pure.mp success
      obtain ⟨name, bound, _, found, rfl⟩ := var_eq_pure.mp success
      exact ⟨rfl, bound, found, rfl⟩
  | letIn =>
      obtain ⟨_, _, bs, b, _, _, rfl⟩ := letIn_eq_pure.mp success
      exact ⟨rfl, rfl⟩
  | coalesce =>
      refine coalesce_typed ?_ success
      intro empty
      rw [empty] at counted
      cases counted
  | error =>
      obtain ⟨o, _, success⟩ := withOne_eq_pure.mp success
      obtain ⟨message, _, rfl⟩ := error_eq_pure.mp success
      exact ⟨rfl, trivial⟩
  | string | number | boolean | object =>
      obtain ⟨args, _, rfl⟩ := assert_eq_pure.mp success
      exact ⟨rfl, rfl⟩
  | array =>
      obtain ⟨_, _, _, _, i, _, _, rfl⟩ := array_eq_pure.mp success
      exact ⟨rfl, rfl⟩
  | parseColor =>
      obtain ⟨o, _, success⟩ := withOne_eq_pure.mp success
      obtain ⟨i, _, rfl⟩ := parseColor_eq_pure.mp success
      exact ⟨rfl, rfl⟩
  | not =>
      obtain ⟨o, _, success⟩ := withOne_eq_pure.mp success
      obtain ⟨i, _, rfl⟩ := not_eq_pure.mp success
      exact ⟨rfl, rfl⟩
  | case => exact case_typed success
  | select => exact select_typed success
  | curve =>
      have enough : ¬ operands.length < 4 := by
        intro few
        have fault : Operator.curve.arity.fault? (operands.length + 1) =
            some (.tooFew 4 operands.length) := if_pos few
        rw [fault] at counted
        cases counted
      exact curve_typed (by omega) success

end Reading

theorem Expr.readAny_typed {data : Json} {ctx : Context} {e : Expr}
    (read : Expr.readAny data ctx = pure e) :
    e.path = ctx.path ∧ e.node.Typed ctx.scope e.type := by
  rcases Expr.readAny_eq_pure.mp read with ⟨op, args, rfl, counted, applied⟩ | ⟨_, rfl⟩
  · exact operator_typed counted applied
  · exact ⟨rfl, ctx.expected, data, rfl, rfl⟩

theorem Expr.read_typed {data : Json} {ctx : Context} {e : Expr}
    (success : Expr.read data ctx = pure e) :
    e.path = ctx.path ∧ e.node.Typed ctx.scope e.type :=
  Expr.readAny_typed (Expr.read_eq_pure.mp success).1

end MapStyle
