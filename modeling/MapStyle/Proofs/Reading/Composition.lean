import MapStyle.Proofs.Reading.Inside

-- What an operator comes to is put together from attempts at its operands and from
-- problems that it reports itself, at its own place or at one of its elements. A property
-- that the ways of putting attempts together keep holds of what the operator comes to.

namespace MapStyle

namespace Attempt

structure Composes (Q : (α : Type) → Attempt α → Prop) : Prop where
  value : ∀ {α : Type} (x : α), Q α (pure x)
  onward : ∀ {α β : Type} {a : Attempt α} {next : α → Attempt β}, Q α a →
    (∀ x, a.value? = some x → Q β (next x)) → Q β (a.andThen next)
  beside : ∀ {α β : Type} {a : Attempt α} {b : Attempt β}, Q α a → Q β b → Q (α × β) (a.both b)

namespace Composes

variable {Q : (α : Type) → Attempt α → Prop} (composes : Composes Q) {α β : Type}
include composes

theorem bind {a : Attempt α} {next : α → Attempt β} (first : Q α a)
    (after : ∀ x, Q β (next x)) : Q β (a >>= next) :=
  composes.onward first fun x _ => after x

theorem wrapped {a : Attempt α} (first : Q α a) {wrap : α → β} :
    Q β (a.andThen fun x => pure (wrap x)) :=
  composes.onward first fun _ _ => composes.value _

theorem cons {a : Attempt α} {rest : Attempt (List α)} (first : Q α a)
    (others : Q (List α) rest) : Q (List α) (a.cons rest) :=
  composes.wrapped (composes.beside first others)

theorem all {as : List (Attempt α)} (each : ∀ a ∈ as, Q α a) : Q (List α) (Attempt.all as) := by
  induction as with
  | nil => exact composes.value []
  | cons a as ih =>
      exact composes.cons (each a List.mem_cons_self)
        (ih fun b member => each b (List.mem_cons_of_mem a member))

end Composes

end Attempt

open Attempt

structure Operand.Keeps (Q : (α : Type) → Attempt α → Prop) (path : Path) (position : Nat)
    (o : Operand) : Prop where
  fails : ∀ (α : Type) problem, Q α ⟨none, [⟨path.child (.index position), problem⟩]⟩
  reads : ∀ place, place.path = path.child (.index position) → Q Expr (o.read place)

abbrev Operand.Keep (Q : (α : Type) → Attempt α → Prop) (path : Path) :=
  Along fun position (o : Operand) => o.Keeps Q path position

namespace Reading

@[simp] theorem bindName_path {ctx : Context} {position : Nat} {name : Attempt String}
    {value : Attempt Expr} : (bindName ctx position name value).path = ctx.path := by
  unfold bindName
  split
  · rfl
  · rfl

variable {Q : (α : Type) → Attempt α → Prop} (composes : Composes Q) {ctx : Context}
  {position : Nat}
include composes

section Lists

theorem output_composes {o : Operand} (keeps : o.Keeps Q ctx.path position) {common : Common} :
    Q Expr (output ctx common position o).2 := by
  have read : Q Expr (o.readAt ctx position common.expectation) := keeps.reads _ rfl
  unfold output
  dsimp only
  split
  · exact read
  · split
    · exact read
    · exact composes.onward read fun _ _ => keeps.fails _ _

theorem alternatives_composes {operands : List Operand}
    (keep : Operand.Keep Q ctx.path position operands) {common : Common} :
    Q (List Expr) (alternatives ctx common position operands).2 := by
  induction operands generalizing common position with
  | nil => exact composes.value []
  | cons o rest ih =>
      obtain ⟨keeps, others⟩ := Along.cons_iff.mp keep
      have read : Q Expr (o.readAt ctx position common.expectation) := keeps.reads _ rfl
      unfold alternatives
      dsimp only
      split
      · exact composes.cons read (ih others)
      · split
        · exact composes.cons read (ih others)
        · exact composes.onward read fun _ _ => keeps.fails _ _

theorem branches_composes {pairs : List (Operand × Operand)}
    (keep : Operand.Keep Q ctx.path position (pairs.flatMap fun p => [p.1, p.2]))
    {common : Common} : Q (List (Branch Expr)) (branches ctx common position pairs).2 := by
  induction pairs generalizing common position with
  | nil => exact composes.value []
  | cons p rest ih =>
      obtain ⟨condition, keep⟩ := Along.cons_iff.mp keep
      obtain ⟨result, others⟩ := Along.cons_iff.mp keep
      apply composes.cons
      · exact composes.wrapped
          (composes.beside (condition.reads _ rfl) (output_composes composes result))
      · exact ih others

theorem labels_composes (fails : ∀ problem, Q (List Value) (ctx.failAt position problem))
    {state : LabelState} {js : List Json} : Q (List Value) (labels ctx position state js).2 := by
  induction js generalizing state with
  | nil => exact composes.value []
  | cons label rest ih =>
      unfold labels
      split
      · exact fails _
      · dsimp only
        split
        · split
          · exact fails _
          · exact composes.wrapped ih
        · exact fails _

theorem armLabels_composes (fails : ∀ problem, Q (List Value) (ctx.failAt position problem))
    {state : LabelState} {data : Json} :
    Q (List Value) (armLabels ctx position state data).2 := by
  unfold armLabels
  split
  · exact fails _
  · exact labels_composes composes fails
  · exact labels_composes composes fails

theorem arms_composes {pairs : List (Operand × Operand)}
    (keep : Operand.Keep Q ctx.path position (pairs.flatMap fun p => [p.1, p.2]))
    {state : LabelState} {common : Common} :
    Q (List (Arm Expr)) (arms ctx state common position pairs).2.2 := by
  induction pairs generalizing state common position with
  | nil => exact composes.value []
  | cons p rest ih =>
      obtain ⟨label, keep⟩ := Along.cons_iff.mp keep
      obtain ⟨result, others⟩ := Along.cons_iff.mp keep
      apply composes.cons
      · exact composes.wrapped (composes.beside
          (armLabels_composes composes (label.fails _)) (output_composes composes result))
      · exact ih others

theorem stops_composes {pairs : List (Operand × Operand)}
    (keep : Operand.Keep Q ctx.path position (pairs.flatMap fun p => [p.1, p.2]))
    {common : Common} {last : Option Float} :
    Q (List (Stop Expr)) (stops ctx common last position pairs).2 := by
  induction pairs generalizing common last position with
  | nil => exact composes.value []
  | cons p rest ih =>
      obtain ⟨number, keep⟩ := Along.cons_iff.mp keep
      obtain ⟨result, others⟩ := Along.cons_iff.mp keep
      unfold stops
      split
      · exact number.fails _ _
      · split
        · exact number.fails _ _
        · apply composes.cons
          · exact composes.wrapped (output_composes composes result)
          · exact ih others

theorem bindingName_composes (fails : ∀ problem, Q String (ctx.failAt position problem))
    {data : Json} : Q String (bindingName ctx position data) := by
  unfold bindingName
  split
  · split
    · exact composes.value _
    · exact fails _
  · exact fails _

theorem bindingsThen_composes {pairs : List (Operand × Operand)} {body : Operand}
    (keep : Operand.Keep Q ctx.path position ((pairs.flatMap fun p => [p.1, p.2]) ++ [body])) :
    Q (List (Binding Expr) × Expr) (bindingsThen ctx position body pairs) := by
  induction pairs generalizing ctx position with
  | nil =>
      have last := (Along.cons_iff.mp keep).1
      exact composes.wrapped (last.reads _ rfl)
  | cons p rest ih =>
      obtain ⟨name, keep⟩ := Along.cons_iff.mp keep
      obtain ⟨value, others⟩ := Along.cons_iff.mp keep
      refine composes.wrapped (composes.beside (composes.beside ?_ ?_) ?_)
      · exact bindingName_composes composes (name.fails _)
      · exact value.reads _ rfl
      · apply ih
        rw [bindName_path]
        exact others

end Lists

section Operators

variable {operands : List Operand} (own : ∀ problem, Q Expr (ctx.fail problem))
  (keep : Operand.Keep Q ctx.path 1 operands)
include own keep

omit composes in
theorem withOne_composes {read : Operand → Attempt Expr}
    (each : ∀ o, operands = [o] → Q Expr (read o)) : Q Expr (withOne ctx operands read) := by
  unfold withOne
  split
  · exact each _ rfl
  · exact own _

theorem oneOperand_composes {expected : Ty} {wrap : Expr → Expr} :
    Q Expr (withOne ctx operands fun o => do
      let e ← o.readAt ctx 1 (some expected)
      pure (wrap e)) := by
  refine withOne_composes own keep fun o one => ?_
  subst one
  exact composes.wrapped ((Along.cons_iff.mp keep).1.reads _ rfl)

theorem var_composes : Q Expr (operator .var ctx operands) := by
  refine withOne_composes own keep fun o one => ?_
  subst one
  have fails : ∀ problem, Q Expr (ctx.failAt 1 problem) :=
    (Along.cons_iff.mp keep).1.fails Expr
  unfold var
  split
  · split
    · exact composes.value _
    · exact fails _
  · exact fails _

theorem error_composes : Q Expr (operator .error ctx operands) := by
  refine withOne_composes own keep fun o one => ?_
  subst one
  unfold error
  split
  · exact composes.value _
  · exact (Along.cons_iff.mp keep).1.fails _ _

omit own in
theorem assert_composes {type : Ty} : Q Expr (assert type ctx operands) := by
  refine composes.wrapped (composes.all ?_)
  intro a member
  obtain ⟨p, belongs, rfl⟩ := List.mem_map.mp member
  exact (keep p belongs).reads _ rfl

theorem has_composes : Q Expr (operator .has ctx operands) := by
  match operands, keep with
  | [], _ => exact own _
  | [key], keep =>
      have first := (Along.cons_iff.mp keep).1
      exact composes.wrapped (first.reads _ rfl)
  | [key, object], keep =>
      obtain ⟨first, keep⟩ := Along.cons_iff.mp keep
      obtain ⟨second, _⟩ := Along.cons_iff.mp keep
      exact composes.wrapped (composes.beside (first.reads _ rfl) (second.reads _ rfl))
  | _ :: _ :: _ :: _, _ => exact own _

omit own keep in
theorem itemType_composes (fails : ∀ problem, Q Ty (ctx.failAt 1 problem)) {data : Json} :
    Q Ty (itemType ctx data) := by
  unfold itemType
  split
  · exact composes.value _
  · exact fails _

omit own keep in
theorem arrayLength_composes (fails : ∀ problem, Q Nat (ctx.failAt 2 problem)) {data : Json} :
    Q Nat (arrayLength ctx data) := by
  unfold arrayLength
  split
  · exact composes.value _
  · exact fails _

theorem array_composes : Q Expr (array ctx operands) := by
  match operands, keep with
  | [], _ => exact own _
  | [input], keep =>
      have last := (Along.cons_iff.mp keep).1
      exact composes.wrapped (last.reads _ rfl)
  | [item, input], keep =>
      obtain ⟨first, keep⟩ := Along.cons_iff.mp keep
      obtain ⟨last, _⟩ := Along.cons_iff.mp keep
      exact composes.bind (itemType_composes composes (first.fails _)) fun _ =>
        composes.wrapped (last.reads _ rfl)
  | [item, length, input], keep =>
      obtain ⟨first, keep⟩ := Along.cons_iff.mp keep
      obtain ⟨second, keep⟩ := Along.cons_iff.mp keep
      obtain ⟨last, _⟩ := Along.cons_iff.mp keep
      exact composes.bind (itemType_composes composes (first.fails _)) fun _ =>
        composes.bind (arrayLength_composes composes (second.fails _)) fun _ =>
          composes.wrapped (last.reads _ rfl)
  | _ :: _ :: _ :: _ :: _, _ => exact own _

theorem letIn_composes : Q Expr (letIn ctx operands) := by
  unfold letIn
  split
  · exact own _
  · rename_i taken
    rw [pairsAndLast?_eq_some.mp taken] at keep
    exact composes.wrapped (bindingsThen_composes composes keep)

theorem case_composes : Q Expr (case ctx operands) := by
  unfold case
  split
  · exact own _
  · rename_i pairs last taken
    obtain ⟨parts, otherwise⟩ := Along.pairs_and_last taken keep
    rw [Nat.add_comm,← pairsAndLast?_length taken] at otherwise
    exact composes.wrapped (composes.beside (branches_composes composes parts)
      (output_composes composes otherwise))

theorem select_composes : Q Expr (select ctx operands) := by
  unfold select
  split
  · exact own _
  · rename_i input operands
    obtain ⟨first, keep⟩ := Along.cons_iff.mp keep
    split
    · exact own _
    · rename_i pairs last taken
      obtain ⟨parts, otherwise⟩ := Along.pairs_and_last taken keep
      have counted : 1 + 1 + 2 * pairs.length = operands.length + 1 := by
        rw [pairsAndLast?_length taken]
        omega
      rw [counted] at otherwise
      refine composes.wrapped (composes.beside (composes.beside ?_ ?_) ?_)
      · exact arms_composes composes parts
      · exact output_composes composes otherwise
      · split
        · exact first.reads _ rfl
        · exact first.reads _ rfl

omit own keep in
theorem interpolation_composes (fails : ∀ problem, Q Interpolation (ctx.failAt 1 problem))
    {data : Json} : Q Interpolation (interpolation ctx data) := by
  unfold interpolation
  split
  · exact fails _
  · split
    · exact composes.value _
    · exact fails _
  · exact composes.value _

theorem curve_composes : Q Expr (curve ctx operands) := by
  unfold curve
  split
  · rename_i kind input operands
    obtain ⟨first, keep⟩ := Along.cons_iff.mp keep
    obtain ⟨second, keep⟩ := Along.cons_iff.mp keep
    split
    · exact own _
    · rename_i pairs taken
      rw [pairs?_eq_some.mp taken] at keep
      refine composes.bind (interpolation_composes composes (first.fails _)) fun kind => ?_
      unfold curveOf
      refine composes.onward
        (composes.beside (second.reads _ rfl) (stops_composes composes keep)) fun parts _ => ?_
      dsimp only
      split
      · exact composes.value _
      · exact own _
  · exact own _

theorem operator_composes {op : Operator} : Q Expr (operator op ctx operands) := by
  cases op with
  | literal => exact withOne_composes own keep fun _ _ => composes.value _
  | zoom => exact composes.value _
  | get => exact oneOperand_composes composes own keep
  | has => exact has_composes composes own keep
  | var => exact var_composes composes own keep
  | letIn => exact letIn_composes composes own keep
  | coalesce => exact composes.wrapped (alternatives_composes composes keep)
  | error => exact error_composes composes own keep
  | string => exact assert_composes composes keep
  | number => exact assert_composes composes keep
  | boolean => exact assert_composes composes keep
  | object => exact assert_composes composes keep
  | array => exact array_composes composes own keep
  | parseColor => exact oneOperand_composes composes own keep
  | not => exact oneOperand_composes composes own keep
  | case => exact case_composes composes own keep
  | select => exact select_composes composes own keep
  | curve => exact curve_composes composes own keep

theorem application_composes (tag : ∀ problem, Q Expr (ctx.failAt 0 problem)) {head : Json} :
    Q Expr (application ctx head operands) := by
  unfold application
  split
  · split
    · exact tag _
    · split
      · exact own _
      · exact operator_composes composes own keep
  · exact tag _

end Operators

end Reading

open Reading

-- The step of an induction on data: from the elements of an array to the array. Other
-- data has none.
theorem Expr.read_composes {Q : (α : Type) → Attempt α → Prop} (composes : Composes Q)
    {ctx : Context} {data : Json} (own : ∀ problem, Q Expr (ctx.fail problem))
    (elements : ∀ position part, data.item? position = some part →
      Operand.Keeps Q ctx.path position ⟨part, Expr.read part⟩) : Q Expr (Expr.read data ctx) := by
  have checked : ∀ e, Q Expr (ctx.check e) := by
    intro e
    unfold Context.check
    split
    · exact composes.value _
    · split
      · exact composes.value _
      · exact own _
  cases data with
  | arr items =>
      cases items with
      | nil => exact own _
      | cons head args =>
          have keep : Operand.Keep Q ctx.path 1 (Expr.operands args) := by
            refine Along.of_getElem? fun i o place => ?_
            obtain ⟨j, there, rfl⟩ := Expr.operands_getElem?.mp place
            refine elements (1 + i) j ?_
            rw [Nat.add_comm]
            exact there
          refine composes.onward ?_ fun e _ => checked e
          exact application_composes composes own keep ((elements 0 head rfl).fails Expr)
  | obj members => exact own _
  | _ => exact checked _

end MapStyle
