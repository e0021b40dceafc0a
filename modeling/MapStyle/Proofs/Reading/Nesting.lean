import MapStyle.Proofs.Reading.Batches

-- Where in the data anything is read as an expression. Whatever an operator reads is an
-- operand at one of the positions that it reads sub-expressions from, so that all that is
-- ever read stands at the end of a chain of them.

namespace MapStyle

namespace Reading

def Placed (P : Nat → Operand → Prop) (path : Path) (turns : List Turn) : Prop :=
  ∀ t ∈ turns, ∃ k, P k t.operand ∧ t.place.path = path.child (.index k)

namespace Placed

variable {P Q : Nat → Operand → Prop} {path : Path} {t : Turn} {turns turns' : List Turn} {k : Nat}

theorem nil : Placed P path [] :=
  fun _ member => nomatch member

theorem cons (holds : P k t.operand) (place : t.place.path = path.child (.index k))
    (others : Placed P path turns) : Placed P path (t :: turns) := by
  intro t' member
  rcases List.mem_cons.mp member with rfl | belongs
  · exact ⟨k, holds, place⟩
  · exact others t' belongs

theorem append (placed : Placed P path turns) (placed' : Placed P path turns') :
    Placed P path (turns ++ turns') := by
  intro t member
  rcases List.mem_append.mp member with first | second
  · exact placed t first
  · exact placed' t second

theorem imp (placed : Placed P path turns) (weaker : ∀ k o, P k o → Q k o) :
    Placed Q path turns := by
  intro t member
  obtain ⟨k, holds, place⟩ := placed t member
  exact ⟨k, weaker k _ holds, place⟩

theorem turnsThen {α : Type} {a : Attempt α} {turns : α → List ParseError → List Turn}
    {before : List ParseError} (placed : ∀ x b, Placed P path (turns x b)) :
    Placed P path (turnsThen a turns before) := by
  unfold Reading.turnsThen
  cases a.value? with
  | none => exact .nil
  | some x => exact placed x _

end Placed

section Lists

variable {P : Nat → Operand → Prop} {ctx : Context} {position : Nat} {before : List ParseError}

theorem free_placed {operands : List Operand} (stand : Along P position operands) :
    Placed P ctx.path (freeTurns ctx position operands before) := by
  induction operands generalizing position before with
  | nil => exact .nil
  | cons o rest ih =>
      obtain ⟨first, others⟩ := Along.cons_iff.mp stand
      exact .cons first rfl (ih others)

theorem alternatives_placed {operands : List Operand} {common : Common}
    (stand : Along P position operands) :
    Placed P ctx.path (alternativeTurns ctx common position operands before) := by
  induction operands generalizing common position before with
  | nil => exact .nil
  | cons o rest ih =>
      obtain ⟨first, others⟩ := Along.cons_iff.mp stand
      unfold alternativeTurns
      refine .cons first rfl ?_
      split
      · exact ih others
      · split
        · exact ih others
        · exact .nil

theorem branches_placed {pairs : List (Operand × Operand)} {common : Common}
    (stand : Along P position (pairs.flatMap fun p => [p.1, p.2])) :
    Placed P ctx.path (branchTurns ctx common position pairs before) := by
  induction pairs generalizing common position before with
  | nil => exact .nil
  | cons p rest ih =>
      obtain ⟨condition, stand⟩ := Along.cons_iff.mp stand
      obtain ⟨result, others⟩ := Along.cons_iff.mp stand
      unfold branchTurns
      exact .cons condition rfl (.cons result rfl (ih others))

def Second (P : Nat → Operand → Prop) (position k : Nat) (o : Operand) : Prop :=
  k % 2 = (position + 1) % 2 ∧ P k o

theorem Second.next {k : Nat} {o : Operand} (second : Second P (position + 1 + 1) k o) :
    Second P position k o :=
  ⟨by rw [second.1]; omega, second.2⟩

theorem arms_placed {pairs : List (Operand × Operand)} {state : LabelState} {common : Common}
    (stand : Along P position (pairs.flatMap fun p => [p.1, p.2])) :
    Placed (Second P position) ctx.path (armTurns ctx state common position pairs before) := by
  induction pairs generalizing state common position before with
  | nil => exact .nil
  | cons p rest ih =>
      obtain ⟨_, stand⟩ := Along.cons_iff.mp stand
      obtain ⟨result, others⟩ := Along.cons_iff.mp stand
      unfold armTurns
      exact .cons ⟨rfl, result⟩ rfl ((ih others).imp fun _ _ => Second.next)

theorem stops_placed {pairs : List (Operand × Operand)} {common : Common} {last : Option Float}
    (stand : Along P position (pairs.flatMap fun p => [p.1, p.2])) :
    Placed (Second P position) ctx.path (stopTurns ctx common last position pairs before) := by
  induction pairs generalizing common last position before with
  | nil => exact .nil
  | cons p rest ih =>
      obtain ⟨_, stand⟩ := Along.cons_iff.mp stand
      obtain ⟨result, others⟩ := Along.cons_iff.mp stand
      unfold stopTurns
      cases p.1.raw.float? with
      | none => exact .nil
      | some x =>
          dsimp only
          split
          · exact .nil
          · exact .cons ⟨rfl, result⟩ rfl ((ih others).imp fun _ _ => Second.next)

theorem bindings_placed {pairs : List (Operand × Operand)} {body : Operand} {last : Nat}
    (stand : Along P position (pairs.flatMap fun p => [p.1, p.2])) (final : P last body)
    (count : last = position + 2 * pairs.length) :
    Placed (fun k o => Second P position k o ∨ k = last ∧ P k o) ctx.path
      (bindingTurns ctx position body pairs before) := by
  induction pairs generalizing ctx position before with
  | nil =>
      rw [List.length_nil,Nat.mul_zero,Nat.add_zero] at count
      subst count
      exact .cons (.inr ⟨rfl, final⟩) rfl .nil
  | cons p rest ih =>
      obtain ⟨_, stand⟩ := Along.cons_iff.mp stand
      obtain ⟨value, others⟩ := Along.cons_iff.mp stand
      rw [List.length_cons] at count
      unfold bindingTurns
      refine .cons (.inl ⟨rfl, value⟩) rfl ?_
      rw [← bindName_path]
      exact (ih others (by omega)).imp fun _ _ => Or.imp_left Second.next

end Lists

section Operators

variable {ctx : Context} {operands : List Operand} {before : List ParseError}

def Operand.IsAt (operands : List Operand) (k : Nat) (o : Operand) : Prop :=
  ∃ i, k = i + 1 ∧ operands[i]? = some o

structure Operand.ParsedBy (op : Operator) (operands : List Operand) (k : Nat) (o : Operand) :
    Prop where
  paired : op.paired operands.length = true
  parsed : op.parses operands.length k = true
  place : Operand.IsAt operands k o

theorem stand_operands (operands : List Operand) : Along (Operand.IsAt operands) 1 operands :=
  Along.of_getElem? fun i _ place => ⟨i, Nat.add_comm _ _, place⟩

theorem whole_placed {op : Operator} {turns : List Turn}
    (paired : op.paired operands.length = true) (parsed : ∀ k, op.parses operands.length k = true)
    (placed : Placed (Operand.IsAt operands) ctx.path turns) :
    Placed (Operand.ParsedBy op operands) ctx.path turns :=
  placed.imp fun k _ place => ⟨paired, parsed k, place⟩

theorem one_placed {expected : Ty} :
    Placed (Operand.IsAt operands) ctx.path (oneTurn ctx expected operands before) := by
  match operands with
  | [] => exact .nil
  | [o] => exact .cons ⟨0, rfl, rfl⟩ rfl .nil
  | _ :: _ :: _ => exact .nil

theorem has_placed : Placed (Operand.IsAt operands) ctx.path (hasTurns ctx operands before) := by
  match operands with
  | [] => exact .nil
  | [key] => exact .cons ⟨0, rfl, rfl⟩ rfl .nil
  | [key, object] => exact .cons ⟨0, rfl, rfl⟩ rfl (.cons ⟨1, rfl, rfl⟩ rfl .nil)
  | _ :: _ :: _ :: _ => exact .nil

theorem array_placed :
    Placed (Operand.ParsedBy .array operands) ctx.path (arrayTurns ctx operands before) := by
  match operands with
  | [] => exact .nil
  | [input] => exact .cons ⟨rfl, rfl, 0, rfl, rfl⟩ rfl .nil
  | [item, input] => exact .turnsThen fun _ _ => .cons ⟨rfl, rfl, 1, rfl, rfl⟩ rfl .nil
  | [item, length, input] =>
      refine .turnsThen fun _ _ => .turnsThen fun _ _ => ?_
      exact .cons ⟨rfl, rfl, 2, rfl, rfl⟩ rfl .nil
  | _ :: _ :: _ :: _ :: _ => exact .nil

theorem letIn_placed :
    Placed (Operand.ParsedBy .letIn operands) ctx.path (letTurns ctx operands before) := by
  unfold letTurns
  cases taken : pairsAndLast? operands with
  | none => exact .nil
  | some parted =>
      obtain ⟨pairs, body⟩ := parted
      obtain ⟨parts, final⟩ := Along.pairs_and_last taken (stand_operands operands)
      have count := pairsAndLast?_length taken
      refine (bindings_placed parts final rfl).imp fun k o here => ?_
      rcases here with ⟨second, place⟩ | ⟨rfl, place⟩
      · exact ⟨beq_iff_eq.mpr (by omega), by simp [Operator.parses,second], place⟩
      · exact ⟨beq_iff_eq.mpr (by omega), by simp [Operator.parses,count]; omega, place⟩

theorem case_placed :
    Placed (Operand.ParsedBy .case operands) ctx.path (caseTurns ctx operands before) := by
  unfold caseTurns
  cases taken : pairsAndLast? operands with
  | none => exact .nil
  | some parted =>
      obtain ⟨pairs, last⟩ := parted
      obtain ⟨parts, final⟩ := Along.pairs_and_last taken (stand_operands operands)
      have count := pairsAndLast?_length taken
      refine whole_placed (beq_iff_eq.mpr (by omega)) (fun _ => rfl) ?_
      refine (branches_placed parts).append (.cons final ?_ .nil)
      rw [Nat.add_comm,← count]
      rfl

theorem select_placed :
    Placed (Operand.ParsedBy .select operands) ctx.path (selectTurns ctx operands before) := by
  cases operands with
  | nil => exact .nil
  | cons input operands =>
      unfold selectTurns
      dsimp only
      obtain ⟨first, stand⟩ := Along.cons_iff.mp (stand_operands (input :: operands))
      cases taken : pairsAndLast? operands with
      | none => exact .nil
      | some parted =>
          obtain ⟨pairs, last⟩ := parted
          obtain ⟨parts, final⟩ := Along.pairs_and_last taken stand
          have count := pairsAndLast?_length taken
          have paired : Operator.select.paired (input :: operands).length = true :=
            beq_iff_eq.mpr (by rw [List.length_cons]; omega)
          have ends : 2 + 2 * pairs.length = (input :: operands).length := by
            rw [List.length_cons]
            omega
          rw [ends] at final
          refine .append ?_ (.cons ⟨paired, ?_, final⟩ rfl (.cons ⟨paired, ?_, first⟩ ?_ .nil))
          · refine (arms_placed parts).imp fun k o here => ⟨paired, ?_, here.2⟩
            simp [Operator.parses,here.1]
          · simp [Operator.parses]
          · rfl
          · unfold inputPlace
            split
            · rfl
            · rfl

theorem curve_placed :
    Placed (Operand.ParsedBy .curve operands) ctx.path (curveTurns ctx operands before) := by
  match operands with
  | [] => exact .nil
  | [_] => exact .nil
  | kind :: input :: operands =>
      unfold curveTurns
      dsimp only
      obtain ⟨_, stand⟩ := Along.cons_iff.mp (stand_operands (kind :: input :: operands))
      obtain ⟨second, stand⟩ := Along.cons_iff.mp stand
      cases taken : pairs? operands with
      | none => exact .nil
      | some pairs =>
          obtain rfl := pairs?_eq_some.mp taken
          have count := pairs_length pairs
          have paired : Operator.curve.paired (kind :: input ::
              pairs.flatMap fun p => [p.1, p.2]).length = true :=
            beq_iff_eq.mpr (by rw [List.length_cons,List.length_cons]; omega)
          refine .turnsThen fun _ _ => .cons ⟨paired, rfl, second⟩ rfl ?_
          refine (stops_placed stand).imp fun k o here => ⟨paired, ?_, here.2⟩
          simp [Operator.parses,here.1]

theorem operator_placed {op : Operator} :
    Placed (Operand.ParsedBy op operands) ctx.path (operatorTurns op ctx operands before) := by
  have stand := stand_operands operands
  cases op with
  | literal => exact .nil
  | zoom => exact .nil
  | get => exact whole_placed rfl (fun _ => rfl) one_placed
  | has => exact whole_placed rfl (fun _ => rfl) has_placed
  | var => exact .nil
  | letIn => exact letIn_placed
  | coalesce => exact whole_placed rfl (fun _ => rfl) (alternatives_placed stand)
  | error => exact .nil
  | string => exact whole_placed rfl (fun _ => rfl) (free_placed stand)
  | number => exact whole_placed rfl (fun _ => rfl) (free_placed stand)
  | boolean => exact whole_placed rfl (fun _ => rfl) (free_placed stand)
  | object => exact whole_placed rfl (fun _ => rfl) (free_placed stand)
  | array => exact array_placed
  | parseColor => exact whole_placed rfl (fun _ => rfl) one_placed
  | not => exact whole_placed rfl (fun _ => rfl) one_placed
  | case => exact case_placed
  | select => exact select_placed
  | curve => exact curve_placed

end Operators

end Reading

open Reading

-- The step: only what is at such a position has its turn.
theorem Expr.turns_nest {data : Json} {ctx : Context} {before : List ParseError} {t : Turn}
    (turn : t ∈ Expr.turns data ctx before) {positions : List Nat} {part : Json}
    (nests : t.operand.raw.Nests positions part) :
    ∃ k, data.Nests (k :: positions) part ∧ t.place.path = ctx.path.child (.index k) := by
  unfold Expr.turns applicationTurns at turn
  split at turn
  · rename_i head args
    split at turn
    · rename_i tag
      split at turn
      · cases turn
      · rename_i op known
        split at turn
        · cases turn
        · rename_i counted
          rw [Operator.ofTag?_eq_some] at known
          subst known
          obtain ⟨k, ⟨paired, parsed, i, rfl, place⟩, stands⟩ := operator_placed t turn
          rw [Expr.length_operands] at counted paired parsed
          obtain ⟨operand, place, made⟩ := Expr.operands_getElem?.mp place
          rw [← made] at nests
          exact ⟨i + 1, .inside op counted paired parsed place nests, stands⟩
    · cases turn
  · cases turn

-- The run: all that is read as an expression is nested in the data, where its path says.
theorem Expr.reads_nest {data part : Json} {ctx here : Context} {before reported : List ParseError}
    (reads : Expr.Reads data ctx before part here reported) :
    ∃ positions, data.Nests positions part ∧ here.path = ctx.path ++ positions.map Step.index := by
  induction reads with
  | whole => exact ⟨[], .here, (List.append_nil _).symm⟩
  | inside turn _ ih =>
      obtain ⟨positions, nests, path⟩ := ih
      obtain ⟨k, nests', stands⟩ := Expr.turns_nest turn nests
      refine ⟨k :: positions, nests', ?_⟩
      rw [path,stands,Path.child,List.append_assoc]
      rfl

end MapStyle
