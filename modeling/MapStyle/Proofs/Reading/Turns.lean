import MapStyle.Proofs.Reading.Reports

-- All readers report to one list. Each operand has its turn at it: the place it is
-- read at, and what has been reported by then. Whatever stands in the list at a turn,
-- and whatever the turn adds, stays there to the end.

namespace MapStyle

structure Turn where
  operand : Operand
  place : Context
  reported : List ParseError

def Turn.read (t : Turn) : Attempt Expr :=
  t.operand.read t.place

def Turn.after (t : Turn) : List ParseError :=
  t.reported ++ t.read.errors

theorem Turn.reported_after (t : Turn) : t.reported <+: t.after :=
  List.prefix_append _ _

namespace Reading

def turnAt (ctx : Context) (position : Nat) (expected : Option Ty) (o : Operand)
    (before : List ParseError) : Turn :=
  ⟨o, ctx.derive (.index position) expected, before⟩

def freeTurnAt (ctx : Context) (position : Nat) (o : Operand) (before : List ParseError) : Turn :=
  ⟨o, ctx.deriveUnconstrained (.index position), before⟩

def turnsThen {α : Type} (a : Attempt α) (turns : α → List ParseError → List Turn)
    (before : List ParseError) : List Turn :=
  match a.value? with
  | none => []
  | some x => turns x (before ++ a.errors)

def freeTurns (ctx : Context) : Nat → List Operand → List ParseError → List Turn
  | _, [], _ => []
  | position, o :: rest, before =>
      let turn := freeTurnAt ctx position o before
      turn :: freeTurns ctx (position + 1) rest turn.after

def outputTurn (ctx : Context) (common : Common) (position : Nat) (o : Operand)
    (before : List ParseError) : Turn :=
  turnAt ctx position common.expectation o before

def alternativeTurns (ctx : Context) : Common → Nat → List Operand → List ParseError → List Turn
  | _, _, [], _ => []
  | common, position, o :: rest, before =>
      let turn := outputTurn ctx common position o before
      turn ::
        match turn.read.value? with
        | none => alternativeTurns ctx common (position + 1) rest turn.after
        | some e =>
            match common.add e.type with
            | .ok both => alternativeTurns ctx (some both) (position + 1) rest turn.after
            | .error _ => []

def branchTurns (ctx : Context) :
    Common → Nat → List (Operand × Operand) → List ParseError → List Turn
  | _, _, [], _ => []
  | common, position, (condition, result) :: rest, before =>
      let first := turnAt ctx position (some .boolean) condition before
      let second := outputTurn ctx common (position + 1) result first.after
      let (common, result) := output ctx common (position + 1) result
      first :: second :: branchTurns ctx common (position + 2) rest (first.after ++ result.errors)

def armTurns (ctx : Context) :
    LabelState → Common → Nat → List (Operand × Operand) → List ParseError → List Turn
  | _, _, _, [], _ => []
  | state, common, position, (label, result) :: rest, before =>
      let (state, values) := armLabels ctx position state label.raw
      let turn := outputTurn ctx common (position + 1) result (before ++ values.errors)
      let (common, result) := output ctx common (position + 1) result
      turn :: armTurns ctx state common (position + 2) rest (before ++ values.errors ++ result.errors)

def stopTurns (ctx : Context) :
    Common → Option Float → Nat → List (Operand × Operand) → List ParseError → List Turn
  | _, _, _, [], _ => []
  | common, last, position, (number, result) :: rest, before =>
      match number.raw.float? with
      | none => []
      | some x =>
          if last.any fun y => x ≤ y then []
          else
            let turn := outputTurn ctx common (position + 1) result before
            let (common, result) := output ctx common (position + 1) result
            let last := if result.value?.isSome then some x else last
            turn :: stopTurns ctx common last (position + 2) rest (before ++ result.errors)

def bindingTurns (ctx : Context) (position : Nat) (body : Operand) :
    List (Operand × Operand) → List ParseError → List Turn
  | [], before => [turnAt ctx position none body before]
  | (name, value) :: rest, before =>
      let name := bindingName ctx position name.raw
      let turn := freeTurnAt ctx (position + 1) value (before ++ name.errors)
      turn ::
        bindingTurns (bindName ctx position name turn.read) (position + 2) body rest turn.after

def oneTurn (ctx : Context) (expected : Ty) (operands : List Operand) (before : List ParseError) :
    List Turn :=
  match operands with
  | [o] => [turnAt ctx 1 (some expected) o before]
  | _ => []

def hasTurns (ctx : Context) (operands : List Operand) (before : List ParseError) : List Turn :=
  match operands with
  | [key] => [turnAt ctx 1 (some .string) key before]
  | [key, object] =>
      let turn := turnAt ctx 1 (some .string) key before
      [turn, turnAt ctx 2 (some .object) object turn.after]
  | _ => []

def arrayTurns (ctx : Context) (operands : List Operand) (before : List ParseError) : List Turn :=
  match operands with
  | [input] => [freeTurnAt ctx 1 input before]
  | [item, input] => turnsThen (itemType ctx item.raw) (fun _ b => [freeTurnAt ctx 2 input b]) before
  | [item, length, input] =>
      turnsThen (itemType ctx item.raw)
        (fun _ => turnsThen (arrayLength ctx length.raw) fun _ b => [freeTurnAt ctx 3 input b])
        before
  | _ => []

def letTurns (ctx : Context) (operands : List Operand) (before : List ParseError) : List Turn :=
  match pairsAndLast? operands with
  | none => []
  | some (pairs, body) => bindingTurns ctx 1 body pairs before

def caseTurns (ctx : Context) (operands : List Operand) (before : List ParseError) : List Turn :=
  match pairsAndLast? operands with
  | none => []
  | some (pairs, last) =>
      let (common, read) := branches ctx none 1 pairs
      branchTurns ctx none 1 pairs before ++
        [outputTurn ctx common operands.length last (before ++ read.errors)]

def inputPlace (ctx : Context) (type? : Option Ty) : Context :=
  match type? with
  | some type => ctx.derive (.index 1) (some type)
  | none => ctx.deriveUnconstrained (.index 1)

def selectTurns (ctx : Context) (operands : List Operand) (before : List ParseError) : List Turn :=
  match operands with
  | [] => []
  | input :: operands =>
      match pairsAndLast? operands with
      | none => []
      | some (pairs, last) =>
          let (state, common, read) := arms ctx ⟨none, []⟩ none 2 pairs
          let (_, otherwise) := output ctx common (operands.length + 1) last
          armTurns ctx ⟨none, []⟩ none 2 pairs before ++
            [outputTurn ctx common (operands.length + 1) last (before ++ read.errors),
              ⟨input, inputPlace ctx state.type?, before ++ read.errors ++ otherwise.errors⟩]

def curveTurns (ctx : Context) (operands : List Operand) (before : List ParseError) : List Turn :=
  match operands with
  | kind :: input :: operands =>
      match pairs? operands with
      | none => []
      | some pairs =>
          turnsThen (interpolation ctx kind.raw)
            (fun _ b =>
              let turn := turnAt ctx 2 (some .number) input b
              turn :: stopTurns ctx none none 3 pairs turn.after)
            before
  | _ => []

def operatorTurns (op : Operator) (ctx : Context) (operands : List Operand)
    (before : List ParseError) : List Turn :=
  match op with
  | .literal | .zoom | .var | .error => []
  | .get | .parseColor => oneTurn ctx .string operands before
  | .not => oneTurn ctx .boolean operands before
  | .has => hasTurns ctx operands before
  | .letIn => letTurns ctx operands before
  | .coalesce => alternativeTurns ctx none 1 operands before
  | .string | .number | .boolean | .object => freeTurns ctx 1 operands before
  | .array => arrayTurns ctx operands before
  | .case => caseTurns ctx operands before
  | .select => selectTurns ctx operands before
  | .curve => curveTurns ctx operands before

def applicationTurns (ctx : Context) (head : Json) (operands : List Operand)
    (before : List ParseError) : List Turn :=
  match head with
  | .str tag =>
      match Operator.ofTag? tag with
      | none => []
      | some op =>
          match op.arity.fault? (operands.length + 1) with
          | some _ => []
          | none => operatorTurns op ctx operands before
  | _ => []

end Reading

open Reading

def Expr.turns (data : Json) (ctx : Context) (before : List ParseError) : List Turn :=
  match data with
  | .arr (head :: args) => applicationTurns ctx head (Expr.operands args) before
  | _ => []

-- Reading data in a context, with a list of reports, comes to read a part of it in a
-- context of its own, with what has been reported by then.
inductive Expr.Reads : Json → Context → List ParseError → Json → Context → List ParseError → Prop
  | whole {data : Json} {ctx : Context} {before : List ParseError} :
      Reads data ctx before data ctx before
  | inside {data part : Json} {ctx here : Context} {before reported : List ParseError} {t : Turn}
      (turn : t ∈ Expr.turns data ctx before)
      (reads : Reads t.operand.raw t.place t.reported part here reported) :
      Reads data ctx before part here reported

namespace Attempt

variable {α β : Type}

theorem errors_andThen (a : Attempt α) (next : α → Attempt β) :
    a.errors <+: (a.andThen next).errors := by
  unfold andThen
  split
  · exact List.prefix_append _ _
  · exact List.prefix_rfl

end Attempt

open Attempt

def Kept (P : Operand → Prop) (before after : List ParseError) (turns : List Turn) : Prop :=
  ∀ t ∈ turns, P t.operand ∧ before <+: t.reported ∧ t.after <+: after

namespace Kept

variable {P : Operand → Prop} {before after : List ParseError} {turns turns' : List Turn}

theorem nil : Kept P before after [] :=
  fun _ member => nomatch member

theorem append (kept : Kept P before after turns) (kept' : Kept P before after turns') :
    Kept P before after (turns ++ turns') := by
  intro t member
  rcases List.mem_append.mp member with first | second
  · exact kept t first
  · exact kept' t second

theorem within {before' after' : List ParseError} (kept : Kept P before' after' turns)
    (earlier : before <+: before') (later : after' <+: after) : Kept P before after turns := by
  intro t member
  obtain ⟨holds, starts, ends⟩ := kept t member
  exact ⟨holds, earlier.trans starts, ends.trans later⟩

theorem cons {t : Turn} (holds : P t.operand) (starts : before <+: t.reported)
    (ends : t.after <+: after) (others : Kept P t.after after turns) :
    Kept P before after (t :: turns) := by
  intro t' member
  rcases List.mem_cons.mp member with rfl | belongs
  · exact ⟨holds, starts, ends⟩
  · exact others.within (starts.trans t.reported_after) List.prefix_rfl t' belongs

theorem one {t : Turn} (holds : P t.operand) (starts : before <+: t.reported)
    (ends : t.after <+: after) : Kept P before after [t] :=
  cons holds starts ends nil

end Kept

namespace Reading

section Lists

variable {P : Operand → Prop} {ctx : Context} {before : List ParseError}

theorem output_errors {o : Operand} {common : Common} {position : Nat} :
    (o.readAt ctx position common.expectation).errors <+:
      (output ctx common position o).2.errors := by
  unfold output
  dsimp only
  split
  · exact List.prefix_rfl
  · split
    · exact List.prefix_rfl
    · exact errors_andThen _ _

theorem outputTurn_after {o : Operand} {common : Common} {position : Nat} :
    (outputTurn ctx common position o before).after <+:
      before ++ (output ctx common position o).2.errors :=
  (List.prefix_append_right_inj before).mpr output_errors

theorem outputTurn_kept {o : Operand} (holds : P o) {common : Common} {position : Nat} :
    Kept P before (before ++ (output ctx common position o).2.errors)
      [outputTurn ctx common position o before] :=
  .one holds List.prefix_rfl outputTurn_after

theorem free_kept {operands : List Operand} (each : ∀ o ∈ operands, P o) {position : Nat} :
    Kept P before
      (before ++
        (all ((operands.zipIdx position).map fun p => p.1.readFreeAt ctx p.2)).errors)
      (freeTurns ctx position operands before) := by
  induction operands generalizing position before with
  | nil => exact .nil
  | cons o rest ih =>
      have others := fun o member => each o (List.mem_cons_of_mem _ member)
      rw [List.zipIdx_cons,List.map_cons,all,errors_cons,← List.append_assoc]
      exact .cons (each o List.mem_cons_self) List.prefix_rfl (List.prefix_append _ _) (ih others)

theorem alternatives_kept {operands : List Operand} (each : ∀ o ∈ operands, P o)
    {common : Common} {position : Nat} :
    Kept P before (before ++ (alternatives ctx common position operands).2.errors)
      (alternativeTurns ctx common position operands before) := by
  induction operands generalizing common position before with
  | nil => exact .nil
  | cons o rest ih =>
      have holds := each o List.mem_cons_self
      have others := fun o member => each o (List.mem_cons_of_mem _ member)
      have read : (outputTurn ctx common position o before).read =
        o.readAt ctx position common.expectation := rfl
      simp only [alternatives,alternativeTurns,read]
      cases (o.readAt ctx position common.expectation).value? with
      | none =>
          simp [← List.append_assoc]
          exact .cons holds List.prefix_rfl (List.prefix_append _ _) (ih others)
      | some e =>
          cases added : common.add e.type with
          | ok both =>
              simp [added,← List.append_assoc]
              exact .cons holds List.prefix_rfl (List.prefix_append _ _) (ih others)
          | error types =>
              simp only [added]
              refine .one holds List.prefix_rfl ?_
              exact (List.prefix_append_right_inj before).mpr (errors_andThen _ _)

theorem branches_kept {pairs : List (Operand × Operand)} (each : ∀ p ∈ pairs, P p.1 ∧ P p.2)
    {common : Common} {position : Nat} :
    Kept P before (before ++ (branches ctx common position pairs).2.errors)
      (branchTurns ctx common position pairs before) := by
  induction pairs generalizing common position before with
  | nil => exact .nil
  | cons p rest ih =>
      obtain ⟨condition, result⟩ := each p List.mem_cons_self
      have others := fun p member => each p (List.mem_cons_of_mem _ member)
      simp [branches,branchTurns,← List.append_assoc]
      refine .cons condition List.prefix_rfl ?_ (.cons result List.prefix_rfl ?_ ?_)
      · rw [List.append_assoc]
        exact List.prefix_append _ _
      · exact outputTurn_after.trans (List.prefix_append _ _)
      · exact (ih others).within outputTurn_after List.prefix_rfl

theorem arms_kept {pairs : List (Operand × Operand)} (each : ∀ p ∈ pairs, P p.1 ∧ P p.2)
    {state : LabelState} {common : Common} {position : Nat} :
    Kept P before (before ++ (arms ctx state common position pairs).2.2.errors)
      (armTurns ctx state common position pairs before) := by
  induction pairs generalizing state common position before with
  | nil => exact .nil
  | cons p rest ih =>
      have others := fun p member => each p (List.mem_cons_of_mem _ member)
      simp [arms,armTurns,← List.append_assoc]
      refine .cons (each p List.mem_cons_self).2 (List.prefix_append _ _) ?_ ?_
      · exact outputTurn_after.trans (List.prefix_append _ _)
      · exact (ih others).within outputTurn_after List.prefix_rfl

theorem stops_kept {pairs : List (Operand × Operand)} (each : ∀ p ∈ pairs, P p.1 ∧ P p.2)
    {common : Common} {last : Option Float} {position : Nat} :
    Kept P before (before ++ (stops ctx common last position pairs).2.errors)
      (stopTurns ctx common last position pairs before) := by
  induction pairs generalizing common last position before with
  | nil => exact .nil
  | cons p rest ih =>
      have others := fun p member => each p (List.mem_cons_of_mem _ member)
      simp only [stops,stopTurns]
      cases p.1.raw.float? with
      | none => exact .nil
      | some x =>
          dsimp only
          split
          · exact .nil
          · simp [← List.append_assoc]
            refine .cons (each p List.mem_cons_self).2 List.prefix_rfl ?_ ?_
            · exact outputTurn_after.trans (List.prefix_append _ _)
            · exact (ih others).within outputTurn_after List.prefix_rfl

theorem bindings_kept {pairs : List (Operand × Operand)} {body : Operand}
    (each : ∀ p ∈ pairs, P p.1 ∧ P p.2) (last : P body) {position : Nat} :
    Kept P before (before ++ (bindingsThen ctx position body pairs).errors)
      (bindingTurns ctx position body pairs before) := by
  induction pairs generalizing ctx position before with
  | nil =>
      refine .one last List.prefix_rfl ?_
      exact (List.prefix_append_right_inj before).mpr (errors_andThen _ _)
  | cons p rest ih =>
      have others := fun p member => each p (List.mem_cons_of_mem _ member)
      simp [bindingsThen,bindingTurns,← List.append_assoc]
      refine .cons (each p List.mem_cons_self).2 (List.prefix_append _ _) ?_ (ih others)
      exact List.prefix_append _ _

theorem turnsThen_kept {α β : Type} {a : Attempt α} {next : α → Attempt β}
    {turns : α → List ParseError → List Turn}
    (kept : ∀ x b, Kept P b (b ++ (next x).errors) (turns x b)) :
    Kept P before (before ++ (a >>= next).errors) (turnsThen a turns before) := by
  obtain ⟨value?, errors⟩ := a
  cases value? with
  | none => exact .nil
  | some x =>
      have whole : (⟨some x, errors⟩ >>= next).errors = errors ++ (next x).errors := rfl
      rw [whole,← List.append_assoc]
      exact (kept x _).within (List.prefix_append _ _) List.prefix_rfl

end Lists

section Operators

variable {P : Operand → Prop} {ctx : Context} {before : List ParseError}
  {operands : List Operand}

theorem has_kept (each : ∀ o ∈ operands, P o) :
    Kept P before (before ++ (operator .has ctx operands).errors)
      (hasTurns ctx operands before) := by
  cases operands with
  | nil => exact .nil
  | cons key rest =>
      have first := each key List.mem_cons_self
      cases rest with
      | nil =>
          refine .one first List.prefix_rfl ?_
          exact (List.prefix_append_right_inj before).mpr (errors_andThen _ _)
      | cons object more =>
          have second := each object (by simp)
          cases more with
          | nil =>
              have whole : (operator .has ctx [key, object]).errors =
                  (key.readAt ctx 1 (some .string)).errors ++
                    (object.readAt ctx 2 (some .object)).errors :=
                errors_andThen_pure _ _
              rw [whole,← List.append_assoc]
              exact .cons first List.prefix_rfl (List.prefix_append _ _)
                (.one second List.prefix_rfl List.prefix_rfl)
          | cons _ _ => exact .nil

theorem wrapped_kept {t : Turn} (holds : P t.operand) {wrap : Expr → Expr} :
    Kept P t.reported (t.reported ++ (t.read >>= fun e => pure (wrap e)).errors) [t] :=
  .one holds List.prefix_rfl ((List.prefix_append_right_inj t.reported).mpr (errors_andThen _ _))

theorem one_kept {expected : Ty} (each : ∀ o ∈ operands, P o) {wrap : Expr → Expr} :
    Kept P before
      (before ++ (withOne ctx operands fun o => do
        let e ← o.readAt ctx 1 (some expected)
        pure (wrap e)).errors)
      (oneTurn ctx expected operands before) := by
  match operands, each with
  | [], _ => exact .nil
  | [o], each => exact wrapped_kept (each o List.mem_cons_self)
  | _ :: _ :: _, _ => exact .nil

theorem array_kept (each : ∀ o ∈ operands, P o) :
    Kept P before (before ++ (array ctx operands).errors) (arrayTurns ctx operands before) := by
  match operands, each with
  | [], _ => exact .nil
  | [input], each => exact wrapped_kept (each input (by simp))
  | [item, input], each =>
      have last : P input := each input (by simp)
      unfold array arrayTurns
      refine turnsThen_kept fun item b => ?_
      exact wrapped_kept (t := freeTurnAt ctx 2 input b) last
  | [item, length, input], each =>
      have last : P input := each input (by simp)
      unfold array arrayTurns
      refine turnsThen_kept fun item b => turnsThen_kept fun length b => ?_
      exact wrapped_kept (t := freeTurnAt ctx 3 input b) last
  | _ :: _ :: _ :: _ :: _, _ => exact .nil

theorem letIn_kept (each : ∀ o ∈ operands, P o) :
    Kept P before (before ++ (letIn ctx operands).errors) (letTurns ctx operands before) := by
  unfold letTurns letIn
  cases taken : pairsAndLast? operands with
  | none => exact .nil
  | some parted =>
    obtain ⟨pairs, body⟩ := parted
    obtain ⟨parts, last⟩ := pairsAndLast?_each taken each
    apply (bindings_kept parts last).within List.prefix_rfl
    exact (List.prefix_append_right_inj before).mpr (errors_andThen _ _)

theorem case_kept (each : ∀ o ∈ operands, P o) :
    Kept P before (before ++ (case ctx operands).errors) (caseTurns ctx operands before) := by
  unfold caseTurns case
  cases taken : pairsAndLast? operands with
  | none => exact .nil
  | some parted =>
    obtain ⟨pairs, last⟩ := parted
    obtain ⟨parts, otherwise⟩ := pairsAndLast?_each taken each
    simp [← List.append_assoc]
    apply Kept.append
    · exact (branches_kept parts).within List.prefix_rfl (List.prefix_append _ _)
    · exact (outputTurn_kept otherwise).within (List.prefix_append _ _) List.prefix_rfl

theorem select_kept (each : ∀ o ∈ operands, P o) :
    Kept P before (before ++ (select ctx operands).errors) (selectTurns ctx operands before) := by
  cases operands with
  | nil => exact .nil
  | cons input operands =>
    unfold selectTurns select
    cases taken : pairsAndLast? operands with
    | none =>
      simp only [taken]
      exact .nil
    | some parted =>
      obtain ⟨pairs, last⟩ := parted
      obtain ⟨first, others⟩ := List.forall_mem_cons.mp each
      obtain ⟨parts, otherwise⟩ := pairsAndLast?_each taken others
      simp [taken,← List.append_assoc]
      apply Kept.append
      · apply (arms_kept parts).within List.prefix_rfl
        rw [List.append_assoc]
        exact List.prefix_append _ _
      · refine .cons otherwise (List.prefix_append _ _) ?_ (.one first ?_ ?_)
        · exact outputTurn_after.trans (List.prefix_append _ _)
        · exact outputTurn_after
        · cases (arms ctx ⟨none, []⟩ none 2 pairs).1.type? with
          | none => exact List.prefix_rfl
          | some type => exact List.prefix_rfl

theorem curve_kept (each : ∀ o ∈ operands, P o) :
    Kept P before (before ++ (curve ctx operands).errors) (curveTurns ctx operands before) := by
  match operands, each with
  | [], _ => exact .nil
  | [_], _ => exact .nil
  | kind :: input :: rest, each =>
    unfold curveTurns curve
    cases taken : pairs? rest with
    | none =>
      simp only [taken]
      exact .nil
    | some pairs =>
      simp only [taken]
      obtain ⟨_, each⟩ := List.forall_mem_cons.mp each
      obtain ⟨first, others⟩ := List.forall_mem_cons.mp each
      have parts := pairs?_each taken others
      refine turnsThen_kept fun kind b => ?_
      have whole : (input.readAt ctx 2 (some .number)).errors ++
          (stops ctx none none 3 pairs).2.errors <+: (curveOf ctx kind input pairs).errors :=
        errors_andThen (both _ _) _
      have later := (List.prefix_append_right_inj b).mpr whole
      rw [← List.append_assoc] at later
      apply Kept.cons first List.prefix_rfl ((List.prefix_append _ _).trans later)
      exact (stops_kept parts).within List.prefix_rfl later

theorem operator_kept {op : Operator} (each : ∀ o ∈ operands, P o) :
    Kept P before (before ++ (operator op ctx operands).errors)
      (operatorTurns op ctx operands before) := by
  have asserted : ∀ type, Kept P before (before ++ (assert type ctx operands).errors)
      (freeTurns ctx 1 operands before) := fun type =>
    (free_kept each).within List.prefix_rfl
      ((List.prefix_append_right_inj before).mpr (errors_andThen _ _))
  cases op with
  | literal => exact .nil
  | zoom => exact .nil
  | get => exact one_kept each
  | has => exact has_kept each
  | var => exact .nil
  | letIn => exact letIn_kept each
  | coalesce =>
      exact (alternatives_kept each).within List.prefix_rfl
        ((List.prefix_append_right_inj before).mpr (errors_andThen _ _))
  | error => exact .nil
  | string => exact asserted .string
  | number => exact asserted .number
  | boolean => exact asserted .boolean
  | object => exact asserted .object
  | array => exact array_kept each
  | parseColor => exact one_kept each
  | not => exact one_kept each
  | case => exact case_kept each
  | select => exact select_kept each
  | curve => exact curve_kept each

theorem application_kept {head : Json} (each : ∀ o ∈ operands, P o) :
    Kept P before (before ++ (application ctx head operands).errors)
      (applicationTurns ctx head operands before) := by
  cases head with
  | str tag =>
      unfold applicationTurns application
      cases known : Operator.ofTag? tag with
      | none =>
          simp only [known]
          exact .nil
      | some op =>
          cases counted : op.arity.fault? (operands.length + 1) with
          | some fault =>
              simp only [known,counted]
              exact .nil
          | none =>
              simp only [known,counted]
              exact operator_kept each
  | _ => exact .nil

end Operators

end Reading

namespace Expr

variable {data part : Json} {ctx here : Context} {before reported : List ParseError}

theorem turns_kept : Kept (fun o => o.read = Expr.read o.raw) before
    (before ++ (Expr.read data ctx).errors) (Expr.turns data ctx before) := by
  unfold turns
  split
  · rename_i head args
    have each : ∀ o ∈ Expr.operands args, o.read = Expr.read o.raw :=
      Expr.operands_each fun _ _ => rfl
    apply (application_kept each).within List.prefix_rfl
    exact (List.prefix_append_right_inj before).mpr (errors_andThen _ _)
  · exact .nil

theorem Reads.kept (reads : Reads data ctx before part here reported) :
    before <+: reported ∧
      reported ++ (Expr.read part here).errors <+: before ++ (Expr.read data ctx).errors := by
  induction reads with
  | whole => exact ⟨List.prefix_rfl, List.prefix_rfl⟩
  | inside turn _ ih =>
      obtain ⟨plain, starts, ends⟩ := turns_kept _ turn
      unfold Turn.after Turn.read at ends
      rw [plain] at ends
      exact ⟨starts.trans ih.1, ih.2.trans ends⟩

theorem Reads.read {e : Expr} (reads : Reads data ctx before part here reported)
    (success : Expr.read data ctx = pure e) : ∃ e', Expr.read part here = pure e' := by
  obtain ⟨starts, ends⟩ := reads.kept
  have clean : (Expr.read data ctx).errors = [] := by rw [success]; rfl
  rw [clean,List.append_nil] at ends
  have silent : (Expr.read part here).errors = [] := by
    have same := (ends.trans starts).length_le
    rw [List.length_append] at same
    exact List.eq_nil_of_length_eq_zero (by omega)
  cases found : (Expr.read part here).value? with
  | none => exact absurd silent ((Expr.read_honest part here).mp found)
  | some e' => exact ⟨e', (Expr.read_honest part here).silent found⟩

theorem parse_reports (data : Json) :
    (∀ ctx, (Expr.read data ctx).value? = none ↔ (Expr.read data ctx).errors ≠ []) ∧
      (∀ ctx before part here reported, Expr.Reads data ctx before part here reported →
        before <+: reported ∧
          reported ++ (Expr.read part here).errors <+: before ++ (Expr.read data ctx).errors) ∧
      ∀ options,
        (∀ errors, Expr.parse data options = .error errors → errors ≠ []) ∧
          ∀ e, Expr.parse data options = .ok e → ∀ part here reported,
            Expr.Reads data (Context.root options.expected options.key) [] part here reported →
              ∃ e', Expr.read part here = pure e' := by
  refine ⟨Expr.read_honest data, fun _ _ _ _ _ reads => reads.kept, ?_⟩
  intro options
  constructor
  · intro errors failed valueless
    have honest := Expr.read_honest data (Context.root options.expected options.key)
    unfold Expr.parse at failed
    cases found : (Expr.read data (Context.root options.expected options.key)).value? with
    | none =>
        obtain ⟨first, rest, reported⟩ := List.exists_cons_of_ne_nil (honest.mp found)
        simp only [found] at failed
        cases failed
        exact honest.mp found valueless
    | some e =>
        rw [honest.silent found] at failed
        cases failed
  · intro e success part here reported reads
    exact reads.read (Expr.parse_eq_ok.mp success)

theorem parse_reports_not :
    (∃ here reported,
      Expr.Reads (.arr [.str "coalesce", .arr [.str "get"], .arr [.str "!", .str "a"]])
        (Context.root none none) [] (.str "a") here reported ∧ reported ≠ [] ∧
        reported ++ (Expr.read (.str "a") here).errors <+:
          (Expr.read (.arr [.str "coalesce", .arr [.str "get"], .arr [.str "!", .str "a"]])
            (Context.root none none)).errors) ∧
      ∃ here reported,
        Expr.Reads (.arr [.str "!", .arr [.str "has", .str "a"]]) (Context.root none none) []
          (.str "a") here reported ∧
          ∃ e', Expr.read (.str "a") here = pure e' := by
  constructor
  · have reads : Expr.Reads
        (.arr [.str "coalesce", .arr [.str "get"], .arr [.str "!", .str "a"]])
        (Context.root none none) [] (.str "a") _ _ :=
      .inside (.tail _ (.head _)) (.inside (.head _) .whole)
    have kept := ((parse_reports _).2.1 _ _ _ _ _ reads).2
    exact ⟨_, _, reads, List.cons_ne_nil _ _, kept⟩
  · have reads : Expr.Reads (.arr [.str "!", .arr [.str "has", .str "a"]])
        (Context.root none none) [] (.str "a") _ _ :=
      .inside (.head _) (.inside (.head _) .whole)
    exact ⟨_, _, reads, ((parse_reports _).2.2 ⟨none, none⟩).2 _ rfl _ _ _ reads⟩

end Expr

end MapStyle
