import MapStyle.Proofs.Reading.Turns
import MapStyle.Proofs.Scope.Resolution

-- One list for all problems. An operator reads each of its operands, also after others
-- have failed, unless it comes upon something that ends its reading; then that is what the
-- list says of it.

namespace MapStyle

namespace Operator

def paired (op : Operator) (count : Nat) : Bool :=
  match op with
  | .letIn | .case => count % 2 == 1
  | .select | .curve => count % 2 == 0
  | _ => true

def parses (op : Operator) (count position : Nat) : Bool :=
  match op with
  | .literal | .zoom | .var | .error => false
  | .letIn => position % 2 == 0 || position == count
  | .array => position == count
  | .select => position % 2 == 1 || position == count
  | .curve => position % 2 == 0
  | _ => true

-- What ends the reading of an operator, at one of its elements. Those after it are not
-- read then. Alternatives disagree where one has passed for the type expected of it, which
-- is not the same as to agree with it.
inductive Ends : Operator → Nat → Problem → Prop
  | itemType : Ends .array 1 .itemType
  | arrayLength : Ends .array 2 .arrayLength
  | kind : Ends .curve 1 .unknownInterpolation
  | base {base : Float} : Ends .curve 1 (.interpolationBase base)
  | number {position : Nat} : Ends .curve position .stopNotNumber
  | order {position : Nat} : Ends .curve position .stopsNotAscending
  | disagreement {position : Nat} {known found : Ty} (passed : known.accepts found = true) :
      Ends .coalesce position (.typeMismatch known found)

end Operator

inductive Json.Nests : Json → List Nat → Json → Prop
  | here {data : Json} : Nests data [] data
  | inside (op : Operator) {args : List Json} {i : Nat} {operand part : Json}
      {positions : List Nat} (counted : op.arity.fault? (args.length + 1) = none)
      (paired : op.paired args.length = true) (parsed : op.parses args.length (i + 1) = true)
      (place : args[i]? = some operand) (nests : Nests operand positions part) :
      Nests (.arr (.str op.tag :: args)) ((i + 1) :: positions) part

-- The error tells that the reading of an array on the way ended before the way goes on.
inductive ParseError.CutsOff : Json → Path → List Nat → ParseError → Prop
  | here {op : Operator} {args : List Json} {path : Path} {position k : Nat}
      {positions : List Nat} {problem : Problem} (before : position < k)
      (ends : op.Ends position problem) :
      CutsOff (.arr (.str op.tag :: args)) path (k :: positions)
        ⟨path.child (.index position), problem⟩
  | inside {data part : Json} {path : Path} {k : Nat} {positions : List Nat} {err : ParseError}
      (next : data.item? k = some part)
      (cuts : CutsOff part (path.child (.index k)) positions err) :
      CutsOff data path (k :: positions) err

theorem ParseError.CutsOff.ends {data : Json} {path : Path} {positions : List Nat}
    {err : ParseError} (cuts : err.CutsOff data path positions) :
    ∃ op : Operator, ∃ position, op.Ends position err.problem := by
  induction cuts with
  | here _ ends => exact ⟨_, _, ends⟩
  | inside _ _ ih => exact ih

open Attempt

namespace Reading

def Served (path : Path) (position : Nat) (o : Operand) (turns : List Turn) : Prop :=
  ∃ t ∈ turns, t.operand = o ∧ t.place.path = path.child (.index position)

namespace Served

variable {path : Path} {position : Nat} {o : Operand} {t : Turn} {turns turns' : List Turn}

theorem first (place : t.place.path = path.child (.index position)) :
    Served path position t.operand (t :: turns) :=
  ⟨t, List.mem_cons_self, rfl, place⟩

theorem among (served : Served path position o turns) (more : turns ⊆ turns') :
    Served path position o turns' := by
  obtain ⟨t, member, its, place⟩ := served
  exact ⟨t, more member, its, place⟩

theorem later (served : Served path position o turns) : Served path position o (t :: turns) :=
  served.among (List.subset_cons_self _ _)

end Served

def Settles (op : Operator) (path : Path) (turns : List Turn) (errors : List ParseError)
    (position : Nat) (o : Operand) : Prop :=
  Served path position o turns ∨
    ∃ i problem, i < position ∧ op.Ends i problem ∧ ⟨path.child (.index i), problem⟩ ∈ errors

theorem Settles.mono {op : Operator} {path : Path} {turns turns' : List Turn}
    {errors errors' : List ParseError} {position : Nat} {o : Operand}
    (settles : Settles op path turns errors position o) (more : turns ⊆ turns')
    (kept : errors ⊆ errors') : Settles op path turns' errors' position o := by
  rcases settles with served | ⟨i, problem, earlier, ends, reported⟩
  · exact .inl (served.among more)
  · exact .inr ⟨i, problem, earlier, ends, kept reported⟩

section Lists

variable {ctx : Context} {position j k : Nat} {o : Operand} {p : Operand × Operand}
  {before : List ParseError}

theorem free_served {operands : List Operand} (place : operands[j]? = some o)
    (stands : k = position + j) :
    Served ctx.path k o (freeTurns ctx position operands before) := by
  induction operands generalizing position j before with
  | nil => cases place
  | cons o' rest ih =>
      cases j with
      | zero =>
          cases place
          exact .first (by rw [stands]; rfl)
      | succ j => exact .later (ih place (by omega))

theorem branches_served {pairs : List (Operand × Operand)} {common : Common}
    (place : pairs[j]? = some p) (stands : k = position + 2 * j) :
    Served ctx.path k p.1 (branchTurns ctx common position pairs before) ∧
      Served ctx.path (k + 1) p.2 (branchTurns ctx common position pairs before) := by
  induction pairs generalizing common position j before with
  | nil => cases place
  | cons p' rest ih =>
      unfold branchTurns
      cases j with
      | zero =>
          cases place
          subst stands
          exact ⟨.first rfl, .later (.first rfl)⟩
      | succ j =>
          have next : k = position + 2 + 2 * j := by omega
          obtain ⟨condition, result⟩ := ih place next
          exact ⟨condition.later.later, result.later.later⟩

theorem arms_served {pairs : List (Operand × Operand)} {state : LabelState} {common : Common}
    (place : pairs[j]? = some p) (stands : k = position + 2 * j + 1) :
    Served ctx.path k p.2 (armTurns ctx state common position pairs before) := by
  induction pairs generalizing state common position j before with
  | nil => cases place
  | cons p' rest ih =>
      unfold armTurns
      cases j with
      | zero =>
          cases place
          subst stands
          exact .first rfl
      | succ j => exact .later (ih place (by omega))

theorem bindings_served {pairs : List (Operand × Operand)} {body : Operand}
    (place : pairs[j]? = some p) (stands : k = position + 2 * j + 1) :
    Served ctx.path k p.2 (bindingTurns ctx position body pairs before) := by
  induction pairs generalizing ctx position j before with
  | nil => cases place
  | cons p' rest ih =>
      unfold bindingTurns
      cases j with
      | zero =>
          cases place
          subst stands
          exact .first rfl
      | succ j =>
          refine .later ?_
          rw [← bindName_path]
          exact ih place (by omega)

theorem body_served {pairs : List (Operand × Operand)} {body : Operand}
    (stands : k = position + 2 * pairs.length) :
    Served ctx.path k body (bindingTurns ctx position body pairs before) := by
  induction pairs generalizing ctx position before with
  | nil => exact .first (by rw [stands]; rfl)
  | cons p rest ih =>
      rw [List.length_cons] at stands
      unfold bindingTurns
      refine .later ?_
      rw [← bindName_path]
      exact ih (by omega)

theorem stops_settle {pairs : List (Operand × Operand)} {common : Common} {last : Option Float}
    (place : pairs[j]? = some p) (stands : k = position + 2 * j + 1) :
    Settles .curve ctx.path (stopTurns ctx common last position pairs before)
      (stops ctx common last position pairs).2.errors k p.2 := by
  induction pairs generalizing common last position j before with
  | nil => cases place
  | cons p' rest ih =>
      unfold stopTurns stops
      have sooner : position < k := by omega
      cases p'.1.raw.float? with
      | none => exact .inr ⟨position, _, sooner, .number, List.mem_singleton_self _⟩
      | some x =>
          dsimp only
          split
          · exact .inr ⟨position, _, sooner, .order, List.mem_singleton_self _⟩
          · cases j with
            | zero =>
                cases place
                subst stands
                exact .inl (.first rfl)
            | succ j =>
                exact (ih place (by omega)).mono (List.subset_cons_self _ _) (by simp)

def Operand.Passes (o : Operand) : Prop :=
  ∀ here e, (o.read here).value? = some e →
    ∀ type, here.expected = some type → type.accepts e.type = true

theorem Common.add_eq_error {common : Common} {type known found : Ty}
    (failed : common.add type = .error (known, found)) :
    common.expectation = some known ∧ found = type := by
  unfold Common.add at failed
  split at failed
  · cases failed
  · rename_i known'
    split at failed
    · cases failed
    · rename_i apart
      cases failed
      refine ⟨?_, rfl⟩
      refine Option.filter_eq_some_iff.mpr ⟨rfl, ?_⟩
      refine bne_iff_ne.mpr ?_
      rintro rfl
      cases apart

theorem alternatives_settle {operands : List Operand} {common : Common}
    (pass : ∀ o ∈ operands, Operand.Passes o) (place : operands[j]? = some o)
    (stands : k = position + j) :
    Settles .coalesce ctx.path (alternativeTurns ctx common position operands before)
      (alternatives ctx common position operands).2.errors k o := by
  induction operands generalizing common position j before with
  | nil => cases place
  | cons o' rest ih =>
      have others := fun o member => pass o (List.mem_cons_of_mem _ member)
      have read : (outputTurn ctx common position o' before).read =
        o'.readAt ctx position common.expectation := rfl
      cases j with
      | zero =>
          cases place
          exact .inl (.first (by rw [stands]; rfl))
      | succ j =>
          have next : k = position + 1 + j := by omega
          simp only [alternatives,alternativeTurns,read]
          cases found : (o'.readAt ctx position common.expectation).value? with
          | none =>
              exact (ih others place next).mono (List.subset_cons_self _ _) (by simp)
          | some e =>
              cases added : common.add e.type with
              | ok both =>
                  simp only [added]
                  exact (ih others place next).mono (List.subset_cons_self _ _) (by simp)
              | error types =>
                  obtain ⟨known, found'⟩ := types
                  obtain ⟨expects, rfl⟩ := Common.add_eq_error added
                  have passed : known.accepts e.type = true := by
                    refine pass o' List.mem_cons_self _ e found known ?_
                    rw [Context.derive,expects]
                    rfl
                  simp only [added]
                  refine .inr ⟨position, _, by omega, .disagreement passed, ?_⟩
                  unfold andThen
                  rw [found]
                  exact List.mem_append_right _ (List.mem_singleton_self _)

theorem turnsThen_settles {α β : Type} {op : Operator} {a : Attempt α} {next : α → Attempt β}
    {turns : α → List ParseError → List Turn} {i : Nat} (earlier : i < k)
    (ends : a.value? = none → ∃ problem, op.Ends i problem ∧
      ⟨ctx.path.child (.index i), problem⟩ ∈ a.errors)
    (after : ∀ x b, Settles op ctx.path (turns x b) (next x).errors k o) :
    Settles op ctx.path (turnsThen a turns before) (a >>= next).errors k o := by
  obtain ⟨value?, errors⟩ := a
  cases value? with
  | none =>
      obtain ⟨problem, ending, reported⟩ := ends rfl
      exact .inr ⟨i, problem, earlier, ending, reported⟩
  | some x => exact (after x _).mono (List.Subset.refl _) (List.subset_append_right _ _)

end Lists

section Operators

variable {ctx : Context} {operands : List Operand} {o : Operand} {i : Nat}
  {before : List ParseError} (place : operands[i]? = some o)
include place

theorem one_served {expected : Ty} (one : operands.length = 1) :
    Served ctx.path (i + 1) o (oneTurn ctx expected operands before) := by
  match operands, one, i, place with
  | [_], _, 0, rfl => exact .first rfl

theorem has_served (few : operands.length ≤ 2) :
    Served ctx.path (i + 1) o (hasTurns ctx operands before) := by
  match operands, few, i, place with
  | [_], _, 0, rfl => exact .first rfl
  | [_, _], _, 0, rfl => exact .first rfl
  | [_, _], _, 1, rfl => exact .later (.first rfl)
  | _ :: _ :: _ :: _, few, _, _ => exact absurd few (by simp)

theorem letIn_served (paired : Operator.letIn.paired operands.length = true)
    (parsed : Operator.letIn.parses operands.length (i + 1) = true) :
    Served ctx.path (i + 1) o (letTurns ctx operands before) := by
  have odd : operands.length % 2 = 1 := eq_of_beq paired
  obtain ⟨⟨pairs, body⟩, taken⟩ := Option.isSome_iff_exists.mp
    ((pairsAndLast?_isSome_iff operands).mpr odd)
  have count := pairsAndLast?_length taken
  unfold letTurns
  rw [taken]
  dsimp only
  rcases pairs_or_last_place taken place with ⟨j, p, there, ⟨rfl, rfl⟩ | ⟨rfl, rfl⟩⟩ | ⟨rfl, rfl⟩
  · have inside := (List.getElem?_eq_some_iff.mp there).1
    simp only [Operator.parses,Bool.or_eq_true,beq_iff_eq] at parsed
    omega
  · exact bindings_served there (by omega)
  · exact body_served (by omega)

theorem case_served (paired : Operator.case.paired operands.length = true) :
    Served ctx.path (i + 1) o (caseTurns ctx operands before) := by
  have odd : operands.length % 2 = 1 := eq_of_beq paired
  obtain ⟨⟨pairs, last⟩, taken⟩ := Option.isSome_iff_exists.mp
    ((pairsAndLast?_isSome_iff operands).mpr odd)
  have count := pairsAndLast?_length taken
  unfold caseTurns
  rw [taken]
  dsimp only
  rcases pairs_or_last_place taken place with ⟨j, p, there, ⟨rfl, rfl⟩ | ⟨rfl, rfl⟩⟩ | ⟨rfl, rfl⟩
  · exact .among (branches_served there (Nat.add_comm _ _)).1 (List.subset_append_left _ _)
  · refine .among ?_ (List.subset_append_left _ _)
    exact (branches_served there (Nat.add_comm _ _)).2
  · refine .among (.first ?_) (List.subset_append_right _ _)
    rw [← count]
    rfl

theorem select_served (paired : Operator.select.paired operands.length = true)
    (parsed : Operator.select.parses operands.length (i + 1) = true) :
    Served ctx.path (i + 1) o (selectTurns ctx operands before) := by
  have even : operands.length % 2 = 0 := eq_of_beq paired
  cases operands with
  | nil => cases place
  | cons input operands =>
      rw [List.length_cons] at even parsed
      obtain ⟨⟨pairs, last⟩, taken⟩ := Option.isSome_iff_exists.mp
        ((pairsAndLast?_isSome_iff operands).mpr (by omega))
      have count := pairsAndLast?_length taken
      unfold selectTurns
      dsimp only
      rw [taken]
      dsimp only
      cases i with
      | zero =>
          cases place
          refine .among (.later (.first ?_)) (List.subset_append_right _ _)
          unfold inputPlace
          split
          · rfl
          · rfl
      | succ i =>
          rcases pairs_or_last_place taken place with
            ⟨j, p, there, ⟨rfl, rfl⟩ | ⟨rfl, rfl⟩⟩ | ⟨rfl, rfl⟩
          · have inside := (List.getElem?_eq_some_iff.mp there).1
            simp only [Operator.parses,Bool.or_eq_true,beq_iff_eq] at parsed
            omega
          · exact .among (arms_served there (by omega)) (List.subset_append_left _ _)
          · refine .among (.first ?_) (List.subset_append_right _ _)
            rw [← count]
            rfl

omit place in
theorem interpolation_ends {data : Json} (failed : (interpolation ctx data).value? = none) :
    ∃ problem, Operator.curve.Ends 1 problem ∧
      ⟨ctx.path.child (.index 1), problem⟩ ∈ (interpolation ctx data).errors := by
  unfold interpolation at failed ⊢
  split at failed
  · exact ⟨_, .kind, List.mem_singleton_self _⟩
  · split at failed
    · cases failed
    · rename_i infinite
      simp only [infinite]
      exact ⟨_, .base, List.mem_singleton_self _⟩
  · cases failed

theorem curve_settles (paired : Operator.curve.paired operands.length = true)
    (parsed : Operator.curve.parses operands.length (i + 1) = true) :
    Settles .curve ctx.path (curveTurns ctx operands before) (curve ctx operands).errors
      (i + 1) o := by
  have even : operands.length % 2 = 0 := eq_of_beq paired
  have here : (i + 1) % 2 = 0 := eq_of_beq parsed
  match operands, place with
  | [_], _ => cases even
  | kind :: input :: operands, place =>
      rw [List.length_cons,List.length_cons] at even
      obtain ⟨pairs, taken⟩ := Option.isSome_iff_exists.mp
        ((pairs?_isSome_iff operands).mpr (by omega))
      unfold curveTurns curve
      dsimp only
      rw [taken]
      dsimp only
      refine turnsThen_settles (by omega : 1 < i + 1) interpolation_ends fun kind b => ?_
      match i, place with
      | 1, place =>
          cases place
          exact .inl (.first rfl)
      | i + 2, place =>
          rw [pairs?_eq_some.mp taken] at place
          obtain ⟨j, p, there, ⟨rfl, rfl⟩ | ⟨rfl, rfl⟩⟩ := pairs_place place
          · omega
          · refine (stops_settle there (by omega)).mono (List.subset_cons_self _ _) ?_
            unfold curveOf
            refine List.Subset.trans ?_ (errors_andThen _ _).subset
            exact List.subset_append_right _ _

omit place in
theorem itemType_ends {data : Json} (failed : (itemType ctx data).value? = none) :
    ∃ problem, Operator.array.Ends 1 problem ∧
      ⟨ctx.path.child (.index 1), problem⟩ ∈ (itemType ctx data).errors := by
  unfold itemType at failed ⊢
  split at failed
  · cases failed
  · exact ⟨_, .itemType, List.mem_singleton_self _⟩

omit place in
theorem arrayLength_ends {data : Json} (failed : (arrayLength ctx data).value? = none) :
    ∃ problem, Operator.array.Ends 2 problem ∧
      ⟨ctx.path.child (.index 2), problem⟩ ∈ (arrayLength ctx data).errors := by
  unfold arrayLength at failed ⊢
  split at failed
  · cases failed
  · exact ⟨_, .arrayLength, List.mem_singleton_self _⟩

theorem array_settles (counted : Operator.array.arity.fault? (operands.length + 1) = none)
    (parsed : Operator.array.parses operands.length (i + 1) = true) :
    Settles .array ctx.path (arrayTurns ctx operands before) (array ctx operands).errors
      (i + 1) o := by
  have last : i + 1 = operands.length := eq_of_beq parsed
  match operands, i, place, last with
  | [_], 0, rfl, _ => exact .inl (.first rfl)
  | [_, _], 1, rfl, _ =>
      unfold arrayTurns array
      refine turnsThen_settles (by decide) itemType_ends fun item b => ?_
      exact .inl (.first rfl)
  | [_, _, _], 2, rfl, _ =>
      unfold arrayTurns array
      refine turnsThen_settles (by decide) itemType_ends fun item b => ?_
      refine turnsThen_settles (by decide) arrayLength_ends fun length b => ?_
      exact .inl (.first rfl)
  | _ :: _ :: _ :: _ :: _, _, _, _ =>
      exact absurd ((Arity.fault?_between.mp counted).2 3 rfl) (by simp)

theorem operator_settles {op : Operator} (pass : ∀ o ∈ operands, Operand.Passes o)
    (counted : op.arity.fault? (operands.length + 1) = none)
    (paired : op.paired operands.length = true)
    (parsed : op.parses operands.length (i + 1) = true) :
    Settles op ctx.path (operatorTurns op ctx operands before) (operator op ctx operands).errors
      (i + 1) o := by
  cases op with
  | literal => cases parsed
  | zoom => cases parsed
  | get => exact .inl (one_served place (Arity.fault?_exactly.mp counted))
  | has => exact .inl (has_served place ((Arity.fault?_between.mp counted).2 2 rfl))
  | var => cases parsed
  | letIn => exact .inl (letIn_served place paired parsed)
  | coalesce =>
      simp [operator,coalesce]
      exact alternatives_settle pass place (Nat.add_comm _ _)
  | error => cases parsed
  | string => exact .inl (free_served place (Nat.add_comm _ _))
  | number => exact .inl (free_served place (Nat.add_comm _ _))
  | boolean => exact .inl (free_served place (Nat.add_comm _ _))
  | object => exact .inl (free_served place (Nat.add_comm _ _))
  | array => exact array_settles place counted parsed
  | parseColor => exact .inl (one_served place (Arity.fault?_exactly.mp counted))
  | not => exact .inl (one_served place (Arity.fault?_exactly.mp counted))
  | case => exact .inl (case_served place paired)
  | select => exact .inl (select_served place paired parsed)
  | curve => exact curve_settles place paired parsed

end Operators

end Reading

open Reading

-- The step: what is read as a sub-expression has its turn.
theorem Expr.turns_settle {op : Operator} {args : List Json} {operand : Json} {i : Nat}
    (ctx : Context) (before : List ParseError)
    (counted : op.arity.fault? (args.length + 1) = none) (paired : op.paired args.length = true)
    (parsed : op.parses args.length (i + 1) = true) (place : args[i]? = some operand) :
    Settles op ctx.path (Expr.turns (.arr (.str op.tag :: args)) ctx before)
      (Expr.read (.arr (.str op.tag :: args)) ctx).errors (i + 1)
      ⟨operand, Expr.read operand⟩ := by
  have there : (Expr.operands args)[i]? = some ⟨operand, Expr.read operand⟩ :=
    Expr.operands_getElem?.mpr ⟨operand, place, rfl⟩
  have pass : ∀ o ∈ Expr.operands args, Operand.Passes o :=
    Expr.operands_each fun j _ here e found =>
      (Expr.read_eq_pure.mp ((Expr.read_honest j here).silent found)).2
  rw [← Expr.length_operands] at counted paired parsed
  have settles : Settles op ctx.path (operatorTurns op ctx (Expr.operands args) before)
      (operator op ctx (Expr.operands args)).errors (i + 1) ⟨operand, Expr.read operand⟩ :=
    operator_settles there pass counted paired parsed
  refine settles.mono ?_ ?_
  · simp only [Expr.turns,applicationTurns,Operator.ofTag?_tag,counted]
    exact List.Subset.refl _
  · simp only [Expr.read,application,Operator.ofTag?_tag,counted]
    exact (errors_andThen _ _).subset

theorem added_subset {before reported errors errors' : List ParseError}
    (kept : before <+: reported ∧ reported ++ errors <+: before ++ errors') : errors ⊆ errors' := by
  obtain ⟨⟨more, rfl⟩, ends⟩ := kept
  rw [List.append_assoc,List.prefix_append_right_inj] at ends
  exact List.Subset.trans (List.subset_append_right _ _) ends.subset

-- The run: down the chain, to the part's own reading or to a report that tells where it
-- ended.
theorem Expr.reads_nested {data part : Json} {positions : List Nat}
    (nests : data.Nests positions part) (ctx : Context) (before : List ParseError) :
    (∃ here reported, Expr.Reads data ctx before part here reported ∧
        here.path = ctx.path ++ positions.map Step.index) ∨
      ∃ err ∈ (Expr.read data ctx).errors, err.CutsOff data ctx.path positions := by
  induction nests generalizing ctx before with
  | here => exact .inl ⟨ctx, before, .whole, (List.append_nil _).symm⟩
  | @inside op args i operand part positions counted paired parsed place nests ih =>
      rcases Expr.turns_settle ctx before counted paired parsed place with
        ⟨⟨_, there, before'⟩, turn, rfl, stands⟩ | ⟨k, problem, earlier, ends, reported⟩
      · have element : there.path = ctx.path.child (.index (i + 1)) := stands
        rcases ih there before' with ⟨here, reported, reads, path⟩ | ⟨err, reported, cuts⟩
        · refine .inl ⟨here, reported, .inside turn reads, ?_⟩
          rw [path,element,Path.child,List.append_assoc]
          rfl
        · rw [element] at cuts
          refine .inr ⟨err, ?_, .inside place cuts⟩
          exact added_subset (turns_kept _ turn).2 reported
      · exact .inr ⟨_, reported, .here earlier ends⟩

theorem Expr.parse_batched {data : Json} {positions : List Nat} {tag : String}
    {args : List Json} (options : ParseOptions)
    (nests : data.Nests positions (.arr (.str tag :: args)))
    (unknown : Operator.ofTag? tag = none) :
    ∃ errors, Expr.parse data options = .error errors ∧
      ((∀ err ∈ errors,
          ¬ err.CutsOff data (options.key.map Step.key).toList positions) →
        ⟨(options.key.map Step.key).toList ++ (positions ++ [0]).map Step.index,
          .unknownOperator tag⟩ ∈ errors) := by
  let ctx := Context.root options.expected options.key
  have reported : ∀ here, Expr.read (.arr (.str tag :: args)) here =
      here.failAt 0 (.unknownOperator tag) := by
    intro here
    simp only [Expr.read,application,unknown]
    rfl
  rcases Expr.reads_nested nests ctx [] with ⟨here, before, reads, path⟩ | ⟨err, earlier, cuts⟩
  · have kept := added_subset reads.kept
    rw [reported here] at kept
    have member := kept (List.mem_singleton_self _)
    refine ⟨_, Expr.parse_failed member, fun _ => ?_⟩
    rw [path,Path.child,List.append_assoc] at member
    rw [List.map_append]
    exact member
  · exact ⟨_, Expr.parse_failed earlier, fun spared => absurd cuts (spared err earlier)⟩

theorem Expr.parse_batched_case :
    let data : Json := .arr [.str "case", .arr [.str "nope"], .str "a",
      .arr [.str "coalesce", .arr [.str "get", .bool true],
        .arr [.str "string", .arr [.str "none"]]]]
    data.Nests [3, 2, 1] (.arr [.str "none"]) ∧ Operator.ofTag? "none" = none ∧
      ∃ errors, Expr.parse data ⟨none, none⟩ = .error errors ∧
        ⟨[.index 3, .index 2, .index 1, .index 0], .unknownOperator "none"⟩ ∈ errors := by
  intro data
  have nests : data.Nests [3, 2, 1] (.arr [.str "none"]) := by
    refine .inside .case rfl rfl rfl rfl ?_
    refine .inside .coalesce rfl rfl rfl rfl ?_
    exact .inside .string rfl rfl rfl rfl .here
  have unknown : Operator.ofTag? "none" = none := by decide
  have failed : Expr.parse data ⟨none, none⟩ = .error [
      ⟨[.index 1, .index 0], .unknownOperator "nope"⟩,
      ⟨[.index 3, .index 1, .index 1], .typeMismatch .string .boolean⟩,
      ⟨[.index 3, .index 2, .index 1, .index 0], .unknownOperator "none"⟩] := rfl
  obtain ⟨errors, failed', reported⟩ := Expr.parse_batched ⟨none, none⟩ nests unknown
  refine ⟨nests, unknown, errors, failed', reported ?_⟩
  cases failed.symm.trans failed'
  intro err member cuts
  obtain ⟨op, position, ends⟩ := cuts.ends
  simp only [List.mem_cons,List.not_mem_nil,or_false] at member
  rcases member with rfl | rfl | rfl
  · cases ends
  · cases ends with
    | disagreement passed => cases passed
  · cases ends

-- An interpolation that is none ends a curve before its input is read.
theorem Expr.parse_cut_off :
    let data : Json := .arr [.str "curve", .arr [.str "bogus"], .arr [.str "nope"],
      .num (.int 0 (by decide)), .num (.int 1 (by decide))]
    data.Nests [2] (.arr [.str "nope"]) ∧ Operator.ofTag? "nope" = none ∧
      ¬ ∃ errors, Expr.parse data ⟨none, none⟩ = .error errors ∧
        ∃ err ∈ errors, err.path = [.index 2, .index 0] := by
  intro data
  have nests : data.Nests [2] (.arr [.str "nope"]) :=
    .inside .curve rfl rfl rfl rfl .here
  have failed : Expr.parse data ⟨none, none⟩ = .error [⟨[.index 1], .unknownInterpolation⟩] := rfl
  refine ⟨nests, by decide, ?_⟩
  rintro ⟨errors, failed', err, member, place⟩
  cases failed.symm.trans failed'
  rw [List.mem_singleton.mp member] at place
  cases place

end MapStyle
