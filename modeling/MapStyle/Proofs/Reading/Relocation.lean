import MapStyle.Proofs.RoundTrip.Readers

-- The place of data makes no difference to how it is read. Further inside, where the same
-- is expected and the same names are bound to values of the same types, it is read as the
-- same tree or fails with the same problems, each of them as much further inside.

namespace MapStyle

def ParseError.moved (base : Path) (err : ParseError) : ParseError :=
  { err with path := base ++ err.path }

def Expr.moved (base : Path) : Expr → Expr :=
  fold fun e node => ⟨base ++ e.path, e.type, node⟩

theorem Expr.moved_eq (base : Path) (e : Expr) :
    e.moved base = ⟨base ++ e.path, e.type, e.node.map (moved base)⟩ :=
  fold_eq _ e

@[simp] theorem Expr.moved_type (base : Path) (e : Expr) : (e.moved base).type = e.type := by
  rw [moved_eq]

def Binding.moved (base : Path) (b : Binding Expr) : Binding Expr :=
  ⟨b.name, b.value.moved base⟩

def Branch.moved (base : Path) (b : Branch Expr) : Branch Expr :=
  ⟨b.condition.moved base, b.output.moved base⟩

def Arm.moved (base : Path) (a : Arm Expr) : Arm Expr :=
  ⟨a.labels, a.output.moved base⟩

def Stop.moved (base : Path) (s : Stop Expr) : Stop Expr :=
  ⟨s.input, s.output.moved base⟩

namespace Attempt

variable {α β γ δ : Type} {base : Path}

def moved (base : Path) (f : α → β) (a : Attempt α) : Attempt β :=
  ⟨a.value?.map f, a.errors.map (ParseError.moved base)⟩

@[simp] theorem moved_value? (a : Attempt α) (f : α → β) : (a.moved base f).value? = a.value?.map f := rfl

@[simp] theorem pure_moved (f : α → β) (x : α) : (pure x : Attempt α).moved base f = pure (f x) := rfl

theorem andThen_moved {a : Attempt α} {next : α → Attempt β} {next' : γ → Attempt δ} {f : α → γ}
    {g : β → δ} (after : ∀ x, next' (f x) = (next x).moved base g) :
    (a.moved base f).andThen next' = (a.andThen next).moved base g := by
  obtain ⟨value?, errors⟩ := a
  cases value? with
  | none => rfl
  | some x => simp [andThen,moved,after]

theorem wrapped_moved {a : Attempt α} {wrap : α → β} {wrap' : γ → δ} {f : α → γ} {g : β → δ}
    (same : ∀ x, wrap' (f x) = g (wrap x)) :
    ((a.moved base f).andThen fun y => pure (wrap' y)) =
      (a.andThen fun x => pure (wrap x)).moved base g := by
  apply andThen_moved
  intro x
  rw [same,pure_moved]

theorem both_moved (a : Attempt α) (b : Attempt β) (f : α → γ) (g : β → δ) :
    (a.moved base f).both (b.moved base g) = (a.both b).moved base (Prod.map f g) := by
  obtain ⟨value?, errors⟩ := a
  obtain ⟨value?', errors'⟩ := b
  cases value? <;> cases value?' <;> simp [both,moved]

theorem cons_moved (a : Attempt α) (rest : Attempt (List α)) (f : α → β) :
    (a.moved base f).cons (rest.moved base (List.map f)) = (a.cons rest).moved base (List.map f) := by
  unfold cons
  rw [both_moved]
  exact wrapped_moved fun _ => rfl

theorem all_moved (as : List (Attempt α)) (f : α → β) :
    all (as.map (moved base f)) = (all as).moved base (List.map f) := by
  induction as with
  | nil => rfl
  | cons a as ih => rw [List.map_cons,all,all,ih,cons_moved]

end Attempt

open Attempt

structure Context.Further (base : Path) (ctx ctx' : Context) : Prop where
  path : ctx'.path = base ++ ctx.path
  like : ctx.Like ctx'

theorem Context.further_refl (ctx : Context) : ctx.Further [] ctx :=
  ⟨rfl, ctx.like_refl⟩

theorem Context.Like.further {ctx ctx' : Context} (like : ctx.Like ctx') :
    Further ctx'.path { ctx with path := [] } ctx' :=
  ⟨(List.append_nil _).symm, like.expected, like.scope⟩

namespace Context.Further

variable {base : Path} {ctx ctx' : Context} (further : ctx.Further base ctx') {α β : Type}
include further

theorem child (step : Step) : ctx'.path.child step = base ++ ctx.path.child step := by
  unfold Path.child
  rw [further.path,List.append_assoc]

theorem derive (step : Step) (expected : Option Ty) :
    (ctx.derive step expected).Further base (ctx'.derive step expected) :=
  ⟨further.child step, further.like.derive step step expected⟩

theorem deriveUnconstrained (step : Step) :
    (ctx.deriveUnconstrained step).Further base (ctx'.deriveUnconstrained step) :=
  ⟨further.child step, further.like.deriveUnconstrained step step⟩

theorem bind (name : String) {e e' : Expr} (same : e'.type = e.type) :
    (ctx.bind name e).Further base (ctx'.bind name e') :=
  ⟨further.path, further.like.bind name same⟩

theorem fail (problem : Problem) (f : α → β) :
    ctx'.fail problem = (ctx.fail problem).moved base f := by
  simp [Context.fail,Attempt.moved,ParseError.moved,further.path]

theorem failAt (position : Nat) (problem : Problem) (f : α → β) :
    ctx'.failAt position problem = (ctx.failAt position problem).moved base f := by
  simp [Context.failAt,Attempt.moved,ParseError.moved,further.child]

theorem expr (type : Ty) (node : Node Expr) :
    ctx'.expr type (node.map (Expr.moved base)) = (ctx.expr type node).moved base := by
  rw [Expr.moved_eq,Context.expr,further.path]
  rfl

theorem check (e : Expr) :
    ctx'.check (e.moved base) = (ctx.check e).moved base (Expr.moved base) := by
  unfold Context.check
  rw [further.like.expected,Expr.moved_type]
  cases ctx.expected with
  | none => rfl
  | some expected =>
      dsimp only
      split
      · rfl
      · exact further.fail _ _

theorem constant (data : Json) :
    Reading.constant ctx' data = (Reading.constant ctx data).moved base := by
  unfold Reading.constant
  rw [further.like.expected]
  exact further.expr _ (.literal _)

theorem lookup? (name : String) :
    (ctx'.lookup? name).map Expr.type = (ctx.lookup? name).map Expr.type := by
  unfold Context.lookup?
  have scope := further.like.scope
  generalize ctx.scope = entries at scope
  generalize ctx'.scope = entries' at scope
  induction scope with
  | nil => rfl
  | @cons b b' rest rest' first _ ih =>
      rw [List.lookup_cons,List.lookup_cons,first.1]
      cases name == b.1 with
      | true => exact congrArg some first.2
      | false => exact ih

end Context.Further

def Operand.Moves (base : Path) (o : Operand) : Prop :=
  ∀ ctx ctx', ctx.Further base ctx' → o.read ctx' = (o.read ctx).moved base (Expr.moved base)

namespace Reading

variable {base : Path} {ctx ctx' : Context} (further : ctx.Further base ctx')
include further

section Lists

theorem readAt_moved {o : Operand} (moves : o.Moves base) (position : Nat) (expected : Option Ty) :
    o.readAt ctx' position expected =
      (o.readAt ctx position expected).moved base (Expr.moved base) :=
  moves _ _ (further.derive _ expected)

theorem readFreeAt_moved {o : Operand} (moves : o.Moves base) (position : Nat) :
    o.readFreeAt ctx' position = (o.readFreeAt ctx position).moved base (Expr.moved base) :=
  moves _ _ (further.deriveUnconstrained _)

theorem output_moved {o : Operand} (moves : o.Moves base) (common : Common) (position : Nat) :
    output ctx' common position o =
      ((output ctx common position o).1,
        (output ctx common position o).2.moved base (Expr.moved base)) := by
  simp only [output]
  rw [readAt_moved further moves,Attempt.moved_value?]
  cases (o.readAt ctx position common.expectation).value? with
  | none => rfl
  | some e =>
      dsimp only [Option.map_some]
      rw [Expr.moved_type]
      cases common.add e.type with
      | ok both => rfl
      | error types =>
          refine congrArg (Prod.mk common) ?_
          exact andThen_moved fun _ => further.failAt position _ _

theorem alternatives_moved {operands : List Operand} (move : ∀ o ∈ operands, o.Moves base)
    (common : Common) (position : Nat) :
    alternatives ctx' common position operands =
      ((alternatives ctx common position operands).1,
        (alternatives ctx common position operands).2.moved base (List.map (Expr.moved base))) := by
  induction operands generalizing common position with
  | nil => rfl
  | cons o rest ih =>
      obtain ⟨moves, others⟩ := List.forall_mem_cons.mp move
      simp only [alternatives]
      rw [readAt_moved further moves,Attempt.moved_value?]
      cases (o.readAt ctx position common.expectation).value? with
      | none =>
          dsimp only [Option.map_none]
          rw [ih others,cons_moved]
      | some e =>
          dsimp only [Option.map_some]
          rw [Expr.moved_type]
          cases common.add e.type with
          | ok both =>
              dsimp only
              rw [ih others,cons_moved]
          | error types =>
              refine congrArg (Prod.mk common) ?_
              exact andThen_moved fun _ => further.failAt position _ _

theorem branches_moved {pairs : List (Operand × Operand)}
    (move : ∀ p ∈ pairs, p.1.Moves base ∧ p.2.Moves base) (common : Common) (position : Nat) :
    branches ctx' common position pairs =
      ((branches ctx common position pairs).1,
        (branches ctx common position pairs).2.moved base (List.map (Branch.moved base))) := by
  induction pairs generalizing common position with
  | nil => rfl
  | cons p rest ih =>
      obtain ⟨⟨condition, result⟩, others⟩ := List.forall_mem_cons.mp move
      simp only [branches]
      rw [readAt_moved further condition,output_moved further result,ih others,both_moved]
      dsimp only
      rw [← cons_moved]
      congr 2
      exact wrapped_moved fun _ => rfl

theorem labels_moved (position : Nat) (state : LabelState) (js : List Json) :
    labels ctx' position state js =
      ((labels ctx position state js).1, (labels ctx position state js).2.moved base id) := by
  induction js generalizing state with
  | nil => rfl
  | cons label rest ih =>
      simp only [labels]
      cases labelType? label with
      | none => exact congrArg (Prod.mk state) (further.failAt position _ id)
      | some type =>
          dsimp only
          split
          · split
            · exact congrArg (Prod.mk _) (further.failAt position _ id)
            · rw [ih]
              refine congrArg (Prod.mk _) ?_
              exact wrapped_moved fun _ => rfl
          · exact congrArg (Prod.mk state) (further.failAt position _ id)

theorem armLabels_moved (position : Nat) (state : LabelState) (data : Json) :
    armLabels ctx' position state data =
      ((armLabels ctx position state data).1,
        (armLabels ctx position state data).2.moved base id) := by
  unfold armLabels
  split
  · exact congrArg (Prod.mk state) (further.failAt position _ id)
  · exact labels_moved further position state _
  · exact labels_moved further position state _

theorem arms_moved {pairs : List (Operand × Operand)}
    (move : ∀ p ∈ pairs, p.1.Moves base ∧ p.2.Moves base) (state : LabelState) (common : Common)
    (position : Nat) :
    arms ctx' state common position pairs =
      ((arms ctx state common position pairs).1, (arms ctx state common position pairs).2.1,
        (arms ctx state common position pairs).2.2.moved base (List.map (Arm.moved base))) := by
  induction pairs generalizing state common position with
  | nil => rfl
  | cons p rest ih =>
      obtain ⟨⟨_, result⟩, others⟩ := List.forall_mem_cons.mp move
      simp only [arms]
      rw [armLabels_moved further,output_moved further result,ih others,both_moved]
      dsimp only
      rw [← cons_moved]
      congr 3
      exact wrapped_moved fun _ => rfl

theorem stops_moved {pairs : List (Operand × Operand)}
    (move : ∀ p ∈ pairs, p.1.Moves base ∧ p.2.Moves base) (common : Common) (last : Option Float)
    (position : Nat) :
    stops ctx' common last position pairs =
      ((stops ctx common last position pairs).1,
        (stops ctx common last position pairs).2.moved base (List.map (Stop.moved base))) := by
  induction pairs generalizing common last position with
  | nil => rfl
  | cons p rest ih =>
      obtain ⟨⟨_, result⟩, others⟩ := List.forall_mem_cons.mp move
      simp only [stops]
      cases p.1.raw.float? with
      | none => exact congrArg (Prod.mk common) (further.failAt position _ _)
      | some x =>
          dsimp only
          split
          · exact congrArg (Prod.mk common) (further.failAt position _ _)
          · rw [output_moved further result,Attempt.moved_value?,Option.isSome_map,ih others]
            dsimp only
            rw [← cons_moved]
            congr 2
            exact wrapped_moved fun _ => rfl

theorem bindingName_moved (position : Nat) (data : Json) :
    bindingName ctx' position data = (bindingName ctx position data).moved base id := by
  unfold bindingName
  split
  · split
    · rfl
    · exact further.failAt position _ id
  · exact further.failAt position _ id

theorem bindName_further (position : Nat) (name : Attempt String) (value : Attempt Expr) :
    (bindName ctx position name value).Further base
      (bindName ctx' position (name.moved base id) (value.moved base (Expr.moved base))) := by
  unfold bindName
  rw [Attempt.moved_value?,Attempt.moved_value?,Option.map_id]
  cases name.value? with
  | none => exact further
  | some n =>
      apply further.bind
      cases value.value? with
      | none => rfl
      | some v => exact v.moved_type base

omit further in
theorem bindingsThen_moved (further : ctx.Further base ctx') {pairs : List (Operand × Operand)}
    {body : Operand} (move : ∀ p ∈ pairs, p.1.Moves base ∧ p.2.Moves base)
    (last : body.Moves base) (position : Nat) :
    bindingsThen ctx' position body pairs = (bindingsThen ctx position body pairs).moved base
      (Prod.map (List.map (Binding.moved base)) (Expr.moved base)) := by
  induction pairs generalizing ctx ctx' position with
  | nil =>
      simp only [bindingsThen,bind_eq]
      rw [readAt_moved further last]
      exact wrapped_moved fun _ => rfl
  | cons p rest ih =>
      obtain ⟨⟨_, value⟩, others⟩ := List.forall_mem_cons.mp move
      simp only [bindingsThen]
      rw [bindingName_moved further,readFreeAt_moved further value,
        ih (bindName_further further _ _ _) others,both_moved,both_moved]
      exact wrapped_moved fun _ => rfl

end Lists

section Operators

variable {operands : List Operand} (move : ∀ o ∈ operands, o.Moves base)

theorem withOne_moved {read read' : Operand → Attempt Expr}
    (each : ∀ o ∈ operands, read' o = (read o).moved base (Expr.moved base)) :
    withOne ctx' operands read' = (withOne ctx operands read).moved base (Expr.moved base) := by
  unfold withOne
  split
  · exact each _ List.mem_cons_self
  · exact further.fail _ _

theorem var_moved (data : Json) : var ctx' data = (var ctx data).moved base (Expr.moved base) := by
  unfold var
  split
  · rename_i name
    have types := further.lookup? name
    cases found : ctx.lookup? name with
    | none =>
        rw [found,Option.map_none,Option.map_eq_none_iff] at types
        rw [types]
        exact further.failAt 1 _ _
    | some bound =>
        rw [found,Option.map_some,Option.map_eq_some_iff] at types
        obtain ⟨bound', found', same⟩ := types
        rw [found']
        dsimp only
        rw [same]
        exact congrArg pure (further.expr bound.type (.var name))
  · exact further.failAt 1 _ _

theorem error_moved (data : Json) :
    Reading.error ctx' data = (Reading.error ctx data).moved base (Expr.moved base) := by
  unfold Reading.error
  split
  · rw [further.like.expected]
    exact congrArg pure (further.expr _ (.throw _))
  · exact further.failAt 1 _ _

include move

theorem oneOperand_moved (expected : Ty) {wrap wrap' : Expr → Expr}
    (same : ∀ e, wrap' (e.moved base) = (wrap e).moved base) :
    (withOne ctx' operands fun o => do
      let e ← o.readAt ctx' 1 (some expected)
      pure (wrap' e)) =
      (withOne ctx operands fun o => do
        let e ← o.readAt ctx 1 (some expected)
        pure (wrap e)).moved base (Expr.moved base) := by
  refine withOne_moved further fun o member => ?_
  rw [readAt_moved further (move o member)]
  exact wrapped_moved same

theorem has_moved :
    operator .has ctx' operands = (operator .has ctx operands).moved base (Expr.moved base) := by
  unfold operator
  dsimp only
  split
  · rename_i key
    unfold has
    rw [readAt_moved further (move key List.mem_cons_self)]
    exact wrapped_moved fun k => further.expr .boolean (.has k)
  · rename_i key object
    have later : object ∈ [key, object] := List.mem_cons_of_mem key List.mem_cons_self
    unfold hasIn
    rw [readAt_moved further (move key List.mem_cons_self),readAt_moved further (move object later),
      both_moved]
    exact wrapped_moved fun p => further.expr .boolean (.hasIn p.1 p.2)
  · exact further.fail _ _

theorem assert_moved (type : Ty) :
    assert type ctx' operands = (assert type ctx operands).moved base (Expr.moved base) := by
  have each : ((operands.zipIdx 1).map fun p => p.1.readFreeAt ctx' p.2) =
      ((operands.zipIdx 1).map fun p => p.1.readFreeAt ctx p.2).map
        (Attempt.moved base (Expr.moved base)) := by
    rw [List.map_map]
    refine List.map_congr_left fun p member => ?_
    exact readFreeAt_moved further (move p.1 (List.fst_mem_of_mem_zipIdx member)) p.2
  unfold assert
  dsimp only
  rw [each,all_moved]
  exact wrapped_moved fun es => further.expr type (.assert type es)

omit move in
theorem arrayOf_moved {input : Operand} (moves : input.Moves base) (item : Ty) (length : Option Nat)
    (position : Nat) :
    arrayOf ctx' item length position input =
      (arrayOf ctx item length position input).moved base (Expr.moved base) := by
  unfold arrayOf
  rw [readFreeAt_moved further moves]
  exact wrapped_moved fun e => further.expr _ (.assertArray item length e)

omit move in
theorem itemType_moved (data : Json) : itemType ctx' data = (itemType ctx data).moved base id := by
  unfold itemType
  split
  · rfl
  · exact further.failAt 1 _ id

omit move in
theorem arrayLength_moved (data : Json) :
    arrayLength ctx' data = (arrayLength ctx data).moved base id := by
  unfold arrayLength
  split
  · rfl
  · exact further.failAt 2 _ id

theorem array_moved :
    array ctx' operands = (array ctx operands).moved base (Expr.moved base) := by
  unfold array
  split
  · exact arrayOf_moved further (move _ (by simp)) .unknown none 1
  · rw [itemType_moved further]
    exact andThen_moved fun item => arrayOf_moved further (move _ (by simp)) item none 2
  · rw [itemType_moved further]
    refine andThen_moved fun item => ?_
    rw [arrayLength_moved further]
    exact andThen_moved fun length => arrayOf_moved further (move _ (by simp)) item (some length) 3
  · exact further.fail _ _

theorem letIn_moved : letIn ctx' operands = (letIn ctx operands).moved base (Expr.moved base) := by
  unfold letIn
  cases taken : pairsAndLast? operands with
  | none => exact further.fail _ _
  | some parts =>
      obtain ⟨each, last⟩ := pairsAndLast?_each taken move
      dsimp only
      rw [bindingsThen_moved further each last]
      refine wrapped_moved fun p => ?_
      show ctx'.expr (p.2.moved base).type _ = _
      rw [Expr.moved_type]
      exact further.expr _ (.letIn p.1 p.2)

theorem coalesce_moved :
    coalesce ctx' operands = (coalesce ctx operands).moved base (Expr.moved base) := by
  unfold coalesce
  rw [alternatives_moved further move]
  exact wrapped_moved fun args => further.expr _ (.coalesce args)

theorem case_moved : case ctx' operands = (case ctx operands).moved base (Expr.moved base) := by
  unfold case
  cases taken : pairsAndLast? operands with
  | none => exact further.fail _ _
  | some parts =>
      obtain ⟨each, last⟩ := pairsAndLast?_each taken move
      dsimp only
      rw [branches_moved further each,output_moved further last,both_moved]
      exact wrapped_moved fun p => further.expr _ (.case p.1 p.2)

omit move in
theorem readInput_moved {input : Operand} (moves : input.Moves base) (type? : Option Ty) :
    readInput ctx' type? input = (readInput ctx type? input).moved base (Expr.moved base) := by
  cases type? with
  | none => exact readFreeAt_moved further moves 1
  | some type => exact readAt_moved further moves 1 _

theorem select_moved :
    select ctx' operands = (select ctx operands).moved base (Expr.moved base) := by
  cases operands with
  | nil => exact further.fail .operandsMissing _
  | cons input operands =>
      obtain ⟨first, others⟩ := List.forall_mem_cons.mp move
      cases taken : pairsAndLast? operands with
      | none =>
          simp only [select,taken]
          exact further.fail _ _
      | some parts =>
          obtain ⟨each, last⟩ := pairsAndLast?_each taken others
          simp only [select,taken]
          rw [arms_moved further each,output_moved further last,both_moved]
          show (Attempt.both _ (readInput ctx' _ input)).andThen _ =
            ((Attempt.both _ (readInput ctx _ input)).andThen _).moved base _
          rw [readInput_moved further first,both_moved]
          exact wrapped_moved fun p => further.expr _ (.select p.2 p.1.1 p.1.2)

omit move in
theorem interpolation_moved (data : Json) :
    interpolation ctx' data = (interpolation ctx data).moved base id := by
  unfold interpolation
  split
  · exact further.failAt 1 _ id
  · split
    · rfl
    · exact further.failAt 1 _ id
  · rfl

theorem curve_moved : curve ctx' operands = (curve ctx operands).moved base (Expr.moved base) := by
  unfold curve
  split
  · rename_i kind input operands
    obtain ⟨_, second, others⟩ := List.forall_mem_cons.mp move |>.imp_right List.forall_mem_cons.mp
    cases taken : pairs? operands with
    | none => exact further.fail _ _
    | some pairs =>
        have each := pairs?_each taken others
        dsimp only
        rw [interpolation_moved further]
        refine andThen_moved fun kind => ?_
        simp only [curveOf]
        rw [readAt_moved further second,stops_moved further each,both_moved]
        refine andThen_moved fun p => ?_
        dsimp only [id]
        split
        · exact congrArg pure (further.expr _ (.curve kind p.1 p.2))
        · exact further.fail _ _
  · exact further.fail _ _

theorem operator_moved (op : Operator) :
    operator op ctx' operands = (operator op ctx operands).moved base (Expr.moved base) := by
  cases op with
  | literal => exact withOne_moved further fun o _ => congrArg pure (further.constant o.raw)
  | zoom => exact congrArg pure (further.expr .number .zoom)
  | get => exact oneOperand_moved further move .string fun e => further.expr .unknown (.get e)
  | has => exact has_moved further move
  | var => exact withOne_moved further fun o _ => var_moved further o.raw
  | letIn => exact letIn_moved further move
  | coalesce => exact coalesce_moved further move
  | error => exact withOne_moved further fun o _ => error_moved further o.raw
  | string => exact assert_moved further move .string
  | number => exact assert_moved further move .number
  | boolean => exact assert_moved further move .boolean
  | object => exact assert_moved further move .object
  | array => exact array_moved further move
  | parseColor =>
      exact oneOperand_moved further move .string fun e => further.expr .color (.parseColor e)
  | not => exact oneOperand_moved further move .boolean fun e => further.expr .boolean (.not e)
  | case => exact case_moved further move
  | select => exact select_moved further move
  | curve => exact curve_moved further move

theorem application_moved (head : Json) :
    application ctx' head operands = (application ctx head operands).moved base (Expr.moved base) := by
  unfold application
  split
  · split
    · exact further.failAt 0 _ _
    · split
      · exact further.fail _ _
      · exact operator_moved further move _
  · exact further.failAt 0 _ _

end Operators

end Reading

open Reading

-- The induction is on the data: its elements are read the same way wherever the whole is.
theorem Expr.read_moved {base : Path} (data : Json) {ctx ctx' : Context}
    (further : ctx.Further base ctx') :
    Expr.read data ctx' = (Expr.read data ctx).moved base (Expr.moved base) := by
  induction data using Json.induction generalizing ctx ctx' with
  | arr items ih =>
      cases items with
      | nil => exact further.fail _ _
      | cons head args =>
          have move : ∀ o ∈ Expr.operands args, o.Moves base :=
            Expr.operands_each fun j belongs _ _ there =>
              ih j (List.mem_cons_of_mem head belongs) there
          simp only [Expr.read]
          rw [application_moved further move]
          exact andThen_moved further.check
  | obj members => exact further.fail .bareObject _
  | _ =>
      simp only [Expr.read]
      rw [further.constant]
      exact further.check _

end MapStyle
