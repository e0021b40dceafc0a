import MapStyle.Evaluation.Run
import MapStyle.Proofs.Reading.Operators
import MapStyle.Proofs.RoundTrip.Data

namespace MapStyle

open Reading Attempt

section Nodes

variable {β : Type} {f : Expr → β}

def Operand.Settled (f : Expr → β) (o : Operand) : Prop :=
  ∀ ctx ctx' e e', o.read ctx = pure e → o.read ctx' = pure e' → f e = f e'

namespace Reading

variable {ctx ctx' : Context} {e e' : Expr}

theorem output_settled {o : Operand} {common common' final final' : Common}
    {position position' : Nat} (settled : o.Settled f)
    (success : output ctx common position o = (final, pure e))
    (success' : output ctx' common' position' o = (final', pure e')) : f e = f e' :=
  settled _ _ _ _ (output_eq_pure.mp success).1 (output_eq_pure.mp success').1

theorem alternatives_settled {operands : List Operand} {common common' final final' : Common}
    {position position' : Nat} {es es' : List Expr} (settled : ∀ o ∈ operands, o.Settled f)
    (success : alternatives ctx common position operands = (final, pure es))
    (success' : alternatives ctx' common' position' operands = (final', pure es')) :
    es.map f = es'.map f := by
  induction operands generalizing common common' position position' es es' with
  | nil =>
      obtain rfl := pure_eq_pure.mp (Prod.mk.inj success).2
      obtain rfl := pure_eq_pure.mp (Prod.mk.inj success').2
      rfl
  | cons o rest ih =>
      obtain ⟨e, _, others, read, _, after, rfl⟩ := alternatives_cons_eq_pure.mp success
      obtain ⟨e', _, others', read', _, after', rfl⟩ := alternatives_cons_eq_pure.mp success'
      rw [List.map_cons,List.map_cons,settled o List.mem_cons_self _ _ _ _ read read',
        ih (fun o member => settled o (List.mem_cons_of_mem _ member)) after after']

theorem all_settled {operands : List Operand} {first first' : Nat} {es es' : List Expr}
    (settled : ∀ o ∈ operands, o.Settled f)
    (success : ((operands.zipIdx first).map fun p => p.1.readFreeAt ctx p.2) = es.map pure)
    (success' : ((operands.zipIdx first').map fun p => p.1.readFreeAt ctx' p.2) = es'.map pure) :
    es.map f = es'.map f := by
  induction operands generalizing first first' es es' with
  | nil =>
      obtain rfl := List.map_eq_nil_iff.mp success.symm
      obtain rfl := List.map_eq_nil_iff.mp success'.symm
      rfl
  | cons o rest ih =>
      cases es with
      | nil => cases success
      | cons e es =>
          cases es' with
          | nil => cases success'
          | cons e' es' =>
              obtain ⟨read, others⟩ := List.cons.inj success
              obtain ⟨read', others'⟩ := List.cons.inj success'
              rw [List.map_cons,List.map_cons,settled o List.mem_cons_self _ _ _ _ read read',
                ih (fun o member => settled o (List.mem_cons_of_mem _ member)) others others']

theorem branches_settled {pairs : List (Operand × Operand)} {common common' final final' : Common}
    {position position' : Nat} {bs bs' : List (Branch Expr)}
    (settled : ∀ p ∈ pairs, p.1.Settled f ∧ p.2.Settled f)
    (success : branches ctx common position pairs = (final, pure bs))
    (success' : branches ctx' common' position' pairs = (final', pure bs')) :
    (bs.map fun b => (⟨f b.condition, f b.output⟩ : Branch β)) =
      bs'.map fun b => ⟨f b.condition, f b.output⟩ := by
  induction pairs generalizing common common' position position' bs bs' with
  | nil =>
      obtain rfl := pure_eq_pure.mp (Prod.mk.inj success).2
      obtain rfl := pure_eq_pure.mp (Prod.mk.inj success').2
      rfl
  | cons p rest ih =>
      obtain ⟨condition, result⟩ := settled p List.mem_cons_self
      obtain ⟨c, r, _, others, read, made, after, rfl⟩ := branches_cons_eq_pure.mp success
      obtain ⟨c', r', _, others', read', made', after', rfl⟩ := branches_cons_eq_pure.mp success'
      rw [List.map_cons,List.map_cons,condition _ _ _ _ read read',
        output_settled result made made',
        ih (fun p member => settled p (List.mem_cons_of_mem _ member)) after after']

theorem labels_values {position : Nat} {state final : LabelState} {js : List Json}
    {vs : List Value} (success : labels ctx position state js = (final, pure vs)) :
    vs = js.map Value.ofJson := by
  induction js generalizing state vs with
  | nil =>
      obtain rfl := pure_eq_pure.mp (Prod.mk.inj success).2
      rfl
  | cons j rest ih =>
      obtain ⟨_, others, _, _, _, after, rfl⟩ := labels_cons_eq_pure.mp success
      rw [ih after,List.map_cons]

theorem armLabels_settled {position position' : Nat} {state state' final final' : LabelState}
    {data : Json} {vs vs' : List Value}
    (success : armLabels ctx position state data = (final, pure vs))
    (success' : armLabels ctx' position' state' data = (final', pure vs')) : vs = vs' := by
  cases data with
  | arr items =>
      cases items with
      | nil => exact absurd (Prod.mk.inj success).2 ctx.failAt_ne_pure
      | cons j js => exact (labels_values success).trans (labels_values success').symm
  | _ => exact (labels_values success).trans (labels_values success').symm

theorem arms_settled {pairs : List (Operand × Operand)} {state state' final final' : LabelState}
    {common common' last last' : Common} {position position' : Nat} {as as' : List (Arm Expr)}
    (settled : ∀ p ∈ pairs, p.1.Settled f ∧ p.2.Settled f)
    (success : arms ctx state common position pairs = (final, last, pure as))
    (success' : arms ctx' state' common' position' pairs = (final', last', pure as')) :
    (as.map fun a => (⟨a.labels, f a.output⟩ : Arm β)) = as'.map fun a => ⟨a.labels, f a.output⟩ := by
  induction pairs generalizing state state' common common' position position' as as' with
  | nil =>
      obtain rfl := pure_eq_pure.mp (Prod.mk.inj (Prod.mk.inj success).2).2
      obtain rfl := pure_eq_pure.mp (Prod.mk.inj (Prod.mk.inj success').2).2
      rfl
  | cons p rest ih =>
      obtain ⟨ls, r, _, _, others, read, made, after, rfl⟩ := arms_cons_eq_pure.mp success
      obtain ⟨ls', r', _, _, others', read', made', after', rfl⟩ := arms_cons_eq_pure.mp success'
      rw [List.map_cons,List.map_cons,armLabels_settled read read',
        output_settled (settled p List.mem_cons_self).2 made made',
        ih (fun p member => settled p (List.mem_cons_of_mem _ member)) after after']

theorem stops_settled {pairs : List (Operand × Operand)} {common common' final final' : Common}
    {last last' : Option Float} {position position' : Nat} {ss ss' : List (Stop Expr)}
    (settled : ∀ p ∈ pairs, p.1.Settled f ∧ p.2.Settled f)
    (success : stops ctx common last position pairs = (final, pure ss))
    (success' : stops ctx' common' last' position' pairs = (final', pure ss')) :
    (ss.map fun s => (⟨s.input, f s.output⟩ : Stop β)) = ss'.map fun s => ⟨s.input, f s.output⟩ := by
  induction pairs generalizing common common' last last' position position' ss ss' with
  | nil =>
      obtain rfl := pure_eq_pure.mp (Prod.mk.inj success).2
      obtain rfl := pure_eq_pure.mp (Prod.mk.inj success').2
      rfl
  | cons p rest ih =>
      obtain ⟨x, r, _, others, numeral, _, made, after, rfl⟩ := stops_cons_eq_pure.mp success
      obtain ⟨x', r', _, others', numeral', _, made', after', rfl⟩ := stops_cons_eq_pure.mp success'
      obtain rfl := Option.some.inj (numeral.symm.trans numeral')
      rw [List.map_cons,List.map_cons,output_settled (settled p List.mem_cons_self).2 made made',
        ih (fun p member => settled p (List.mem_cons_of_mem _ member)) after after']

theorem bindings_settled {pairs : List (Operand × Operand)} {body : Operand}
    {position position' : Nat} {bs bs' : List (Binding Expr)}
    (settled : ∀ p ∈ pairs, p.1.Settled f ∧ p.2.Settled f) (last : body.Settled f)
    (success : bindingsThen ctx position body pairs = pure (bs, e))
    (success' : bindingsThen ctx' position' body pairs = pure (bs', e')) :
    (bs.map fun b => (⟨b.name, f b.value⟩ : Binding β)) = (bs'.map fun b => ⟨b.name, f b.value⟩) ∧
      f e = f e' := by
  induction pairs generalizing ctx ctx' position position' bs bs' with
  | nil =>
      obtain ⟨rfl, read⟩ := bindingsThen_nil_eq_pure.mp success
      obtain ⟨rfl, read'⟩ := bindingsThen_nil_eq_pure.mp success'
      exact ⟨rfl, last _ _ _ _ read read'⟩
  | cons p rest ih =>
      obtain ⟨n, v, others, named, _, read, after, rfl⟩ := bindingsThen_cons_eq_pure.mp success
      obtain ⟨n', v', others', named', _, read', after', rfl⟩ := bindingsThen_cons_eq_pure.mp success'
      obtain rfl := Json.str.inj (named.symm.trans named')
      obtain ⟨same, body⟩ := ih (fun p member => settled p (List.mem_cons_of_mem _ member)) after after'
      rw [List.map_cons,List.map_cons,(settled p List.mem_cons_self).2 _ _ _ _ read read',same]
      exact ⟨rfl, body⟩

theorem assert_settled {type : Ty} {operands : List Operand}
    (settled : ∀ o ∈ operands, o.Settled f) (success : assert type ctx operands = pure e)
    (success' : assert type ctx' operands = pure e') : e.node.map f = e'.node.map f := by
  obtain ⟨args, read, rfl⟩ := assert_eq_pure.mp success
  obtain ⟨args', read', rfl⟩ := assert_eq_pure.mp success'
  exact congrArg (Node.assert type) (all_settled settled read read')

theorem letIn_settled {operands : List Operand} (settled : ∀ o ∈ operands, o.Settled f)
    (success : letIn ctx operands = pure e) (success' : letIn ctx' operands = pure e') :
    e.node.map f = e'.node.map f := by
  obtain ⟨pairs, last, bs, b, split, read, rfl⟩ := letIn_eq_pure.mp success
  obtain ⟨_, _, bs', b', split', read', rfl⟩ := letIn_eq_pure.mp success'
  obtain ⟨rfl, rfl⟩ := Prod.mk.inj (Option.some.inj (split.symm.trans split'))
  obtain ⟨each, final⟩ := pairsAndLast?_each split settled
  obtain ⟨bindings, body⟩ := bindings_settled each final read read'
  exact congrArg₂ Node.letIn bindings body

theorem case_settled {operands : List Operand} (settled : ∀ o ∈ operands, o.Settled f)
    (success : case ctx operands = pure e) (success' : case ctx' operands = pure e') :
    e.node.map f = e'.node.map f := by
  obtain ⟨pairs, last, _, bs, _, o, split, read, made, rfl⟩ := case_eq_pure.mp success
  obtain ⟨_, _, _, bs', _, o', split', read', made', rfl⟩ := case_eq_pure.mp success'
  obtain ⟨rfl, rfl⟩ := Prod.mk.inj (Option.some.inj (split.symm.trans split'))
  obtain ⟨each, otherwise⟩ := pairsAndLast?_each split settled
  exact congrArg₂ Node.case (branches_settled each read read') (output_settled otherwise made made')

theorem readInput_read {type? : Option Ty} {input : Operand} {i : Expr}
    (success : readInput ctx type? input = pure i) : ∃ inner, input.read inner = pure i := by
  cases type? with
  | none => exact ⟨_, success⟩
  | some type => exact ⟨_, success⟩

theorem select_settled {input : Operand} {operands : List Operand}
    (settled : ∀ o ∈ input :: operands, o.Settled f)
    (success : select ctx (input :: operands) = pure e)
    (success' : select ctx' (input :: operands) = pure e') : e.node.map f = e'.node.map f := by
  obtain ⟨pairs, last, state, _, as, _, o, i, split, read, made, given, rfl⟩ :=
    select_eq_pure.mp success
  obtain ⟨_, _, state', _, as', _, o', i', split', read', made', given', rfl⟩ :=
    select_eq_pure.mp success'
  obtain ⟨rfl, rfl⟩ := Prod.mk.inj (Option.some.inj (split.symm.trans split'))
  obtain ⟨first, others⟩ := List.forall_mem_cons.mp settled
  obtain ⟨each, otherwise⟩ := pairsAndLast?_each split others
  obtain ⟨inner, given⟩ := readInput_read given
  obtain ⟨inner', given'⟩ := readInput_read given'
  have inputs : f i = f i' := first _ _ _ _ given given'
  have arms := arms_settled each read read'
  have outputs := output_settled otherwise made made'
  show Node.select (f i) (as.map fun a => ⟨a.labels, f a.output⟩) (f o) =
    Node.select (f i') (as'.map fun a => ⟨a.labels, f a.output⟩) (f o')
  rw [inputs,arms,outputs]

theorem curve_settled {kind input : Operand} {operands : List Operand}
    (settled : ∀ o ∈ kind :: input :: operands, o.Settled f)
    (success : curve ctx (kind :: input :: operands) = pure e)
    (success' : curve ctx' (kind :: input :: operands) = pure e') :
    e.node.map f = e'.node.map f := by
  obtain ⟨pairs, k, i, _, ss, split, known, given, read, _, rfl⟩ := curve_eq_pure.mp success
  obtain ⟨_, k', i', _, ss', split', known', given', read', _, rfl⟩ := curve_eq_pure.mp success'
  obtain rfl := Option.some.inj (split.symm.trans split')
  obtain rfl := Option.some.inj
    ((interpolation_eq_pure.mp known).1.symm.trans (interpolation_eq_pure.mp known').1)
  obtain ⟨_, settled⟩ := List.forall_mem_cons.mp settled
  obtain ⟨second, others⟩ := List.forall_mem_cons.mp settled
  have each := pairs?_each split others
  have inputs : f i = f i' := second _ _ _ _ given given'
  have stops := stops_settled each read read'
  show Node.curve k (f i) (ss.map fun s => ⟨s.input, f s.output⟩) =
    Node.curve k (f i') (ss'.map fun s => ⟨s.input, f s.output⟩)
  rw [inputs,stops]

theorem has_settled {operands : List Operand} (settled : ∀ o ∈ operands, o.Settled f)
    (success : operator .has ctx operands = pure e)
    (success' : operator .has ctx' operands = pure e') : e.node.map f = e'.node.map f := by
  rcases operator_has_eq_pure.mp success with ⟨key, rfl, success⟩ | ⟨key, object, rfl, success⟩
  · obtain ⟨k, read, rfl⟩ := has_eq_pure.mp success
    obtain ⟨k', read', rfl⟩ := has_eq_pure.mp success'
    exact congrArg Node.has (settled key (by simp) _ _ _ _ read read')
  · obtain ⟨k, o, read, given, rfl⟩ := hasIn_eq_pure.mp success
    obtain ⟨k', o', read', given', rfl⟩ := hasIn_eq_pure.mp success'
    exact congrArg₂ Node.hasIn (settled key (by simp) _ _ _ _ read read')
      (settled object (by simp) _ _ _ _ given given')

theorem array_settled {operands : List Operand} (settled : ∀ o ∈ operands, o.Settled f)
    (success : array ctx operands = pure e) (success' : array ctx' operands = pure e') :
    e.node.map f = e'.node.map f := by
  obtain ⟨item, length, _, input, i, form, read, rfl⟩ := array_eq_pure.mp success
  obtain ⟨item', length', _, input', i', form', read', rfl⟩ := array_eq_pure.mp success'
  have same : item = item' ∧ length = length' ∧ input = input' ∧ input ∈ operands := by
    cases form with
    | input =>
        cases form'
        simp
    | item _ _ _ known =>
        cases form' with
        | item _ _ _ known' =>
            obtain rfl := Option.some.inj (known.symm.trans known')
            simp
    | length _ _ _ _ n known counted =>
        cases form' with
        | length _ _ _ _ n' known' counted' =>
            obtain rfl := Option.some.inj (known.symm.trans known')
            obtain rfl := Nat.succ.inj (Option.some.inj (counted.symm.trans counted'))
            simp
  obtain ⟨rfl, rfl, rfl, member⟩ := same
  exact congrArg (Node.assertArray item length) (settled input member _ _ _ _ read read')

theorem operator_settled {op : Operator} {operands : List Operand}
    (settled : ∀ o ∈ operands, o.Settled f) (success : operator op ctx operands = pure e)
    (success' : operator op ctx' operands = pure e') : e.node.map f = e'.node.map f := by
  cases op with
  | literal =>
      obtain ⟨o, rfl, made⟩ := withOne_eq_pure.mp success
      obtain rfl := pure_eq_pure.mp made
      obtain rfl := pure_eq_pure.mp success'
      rfl
  | zoom =>
      obtain rfl := pure_eq_pure.mp success
      obtain rfl := pure_eq_pure.mp success'
      rfl
  | get =>
      obtain ⟨o, rfl, success⟩ := withOne_eq_pure.mp success
      obtain ⟨n, read, rfl⟩ := get_eq_pure.mp success
      obtain ⟨n', read', rfl⟩ := get_eq_pure.mp success'
      exact congrArg Node.get (settled o (by simp) _ _ _ _ read read')
  | has => exact has_settled settled success success'
  | var =>
      obtain ⟨o, rfl, success⟩ := withOne_eq_pure.mp success
      obtain ⟨name, _, named, _, rfl⟩ := var_eq_pure.mp success
      obtain ⟨name', _, named', _, rfl⟩ := var_eq_pure.mp success'
      obtain rfl := Json.str.inj (named.symm.trans named')
      rfl
  | letIn => exact letIn_settled settled success success'
  | coalesce =>
      obtain ⟨_, args, read, rfl⟩ := coalesce_eq_pure.mp success
      obtain ⟨_, args', read', rfl⟩ := coalesce_eq_pure.mp success'
      exact congrArg Node.coalesce (alternatives_settled settled read read')
  | error =>
      obtain ⟨o, rfl, success⟩ := withOne_eq_pure.mp success
      obtain ⟨message, said, rfl⟩ := error_eq_pure.mp success
      obtain ⟨message', said', rfl⟩ := error_eq_pure.mp success'
      obtain rfl := Json.str.inj (said.symm.trans said')
      rfl
  | string => exact assert_settled settled success success'
  | number => exact assert_settled settled success success'
  | boolean => exact assert_settled settled success success'
  | object => exact assert_settled settled success success'
  | array => exact array_settled settled success success'
  | parseColor =>
      obtain ⟨o, rfl, success⟩ := withOne_eq_pure.mp success
      obtain ⟨i, read, rfl⟩ := parseColor_eq_pure.mp success
      obtain ⟨i', read', rfl⟩ := parseColor_eq_pure.mp success'
      exact congrArg Node.parseColor (settled o (by simp) _ _ _ _ read read')
  | not =>
      obtain ⟨o, rfl, success⟩ := withOne_eq_pure.mp success
      obtain ⟨i, read, rfl⟩ := not_eq_pure.mp success
      obtain ⟨i', read', rfl⟩ := not_eq_pure.mp success'
      exact congrArg Node.not (settled o (by simp) _ _ _ _ read read')
  | case => exact case_settled settled success success'
  | select =>
      obtain ⟨input, operands, rfl⟩ := select_operands success
      exact select_settled settled success success'
  | curve =>
      obtain ⟨kind, input, operands, rfl⟩ := curve_operands success
      exact curve_settled settled success success'

end Reading

end Nodes

-- What is made of a tree by its nodes alone, without their places and types, is up to
-- the data that it was read from. A context only decides whether the data can be read.
theorem Expr.read_settled {β : Type} (algebra : Node β → β) (data : Json) :
    ∀ ctx ctx' e e', Expr.read data ctx = pure e → Expr.read data ctx' = pure e' →
      e.fold (fun _ node => algebra node) = e'.fold fun _ node => algebra node := by
  induction data using Json.induction with
  | arr items ih =>
      intro ctx ctx' e e' success success'
      obtain ⟨read, _⟩ := Expr.read_eq_pure.mp success
      obtain ⟨read', _⟩ := Expr.read_eq_pure.mp success'
      cases items with
      | nil => exact absurd read ctx.fail_ne_pure
      | cons head args =>
          obtain ⟨op, tag, _, applied⟩ := application_eq_pure.mp read
          obtain ⟨op', tag', _, applied'⟩ := application_eq_pure.mp read'
          obtain rfl := Operator.tag_injective (Json.str.inj (tag.symm.trans tag'))
          have settled : ∀ o ∈ Expr.operands args,
              o.Settled fun e => e.fold fun _ node => algebra node :=
            Expr.operands_each fun j belongs => ih j (List.mem_cons_of_mem _ belongs)
          rw [Expr.fold_eq,Expr.fold_eq]
          exact congrArg algebra (operator_settled settled applied applied')
  | obj members _ =>
      intro ctx ctx' e e' success
      exact absurd (Expr.read_eq_pure.mp success).1 ctx.fail_ne_pure
  | _ =>
      intro ctx ctx' e e' success success'
      obtain rfl := pure_eq_pure.mp (Expr.read_eq_pure.mp success).1
      obtain rfl := pure_eq_pure.mp (Expr.read_eq_pure.mp success').1
      rfl

theorem Expr.read_eval {data : Json} {ctx ctx' : Context} {e e' : Expr}
    (success : Expr.read data ctx = pure e) (success' : Expr.read data ctx' = pure e') :
    e.eval = e'.eval :=
  Expr.read_settled Node.run data ctx ctx' e e' success success'

end MapStyle
