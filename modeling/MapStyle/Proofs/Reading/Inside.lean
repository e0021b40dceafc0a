import MapStyle.Proofs.Reading.Operators
import MapStyle.Proofs.Scope.Basic

namespace MapStyle

def Json.item? (position : Nat) : Json → Option Json
  | .arr items => items[position]?
  | _ => none

-- A sub-expression was read from an element of the data, at that element's own
-- place and in the scope that the sub-expression is in.
def ReadInside (data : Json) (path : Path) (p : Scope × Expr) : Prop :=
  ∃ position part expected, data.item? position = some part ∧
    Expr.read part ⟨path.child (.index position), expected, p.1⟩ = pure p.2

namespace Operand

def Stands (items : List Json) (position : Nat) (o : Operand) : Prop :=
  o.read = Expr.read o.raw ∧ items[position]? = some o.raw

def Stand (items : List Json) : Nat → List Operand → Prop
  | _, [] => True
  | position, o :: rest => o.Stands items position ∧ Stand items (position + 1) rest

theorem stand_operands (before args : List Json) :
    Stand (before ++ args) before.length (Expr.operands args) := by
  induction args generalizing before with
  | nil => trivial
  | cons j js ih =>
      refine ⟨⟨rfl, ?_⟩, ?_⟩
      · rw [List.getElem?_append_right (Nat.le_refl _),Nat.sub_self]
        rfl
      · have next := ih (before ++ [j])
        rwa [List.append_assoc,List.length_append] at next

theorem stand_append {items : List Json} {position : Nat} {xs ys : List Operand} :
    Stand items position (xs ++ ys) ↔
      Stand items position xs ∧ Stand items (position + xs.length) ys := by
  induction xs generalizing position with
  | nil => simp [Stand]
  | cons x xs ih =>
      simp only [List.cons_append,Stand,ih,List.length_cons,and_assoc]
      rw [Nat.add_assoc,Nat.add_comm 1]

end Operand

namespace Reading

open Attempt Operand

variable {ctx : Context} {items : List Json} {position : Nat}

theorem readAt_inside {o : Operand} {expected : Option Ty} {e : Expr}
    (stands : o.Stands items position) (read : o.readAt ctx position expected = pure e) :
    ReadInside (.arr items) ctx.path (ctx.scope, e) := by
  unfold readAt at read
  rw [stands.1] at read
  exact ⟨position, o.raw, _, stands.2, read⟩

theorem readFreeAt_inside {o : Operand} {e : Expr} (stands : o.Stands items position)
    (read : o.readFreeAt ctx position = pure e) :
    ReadInside (.arr items) ctx.path (ctx.scope, e) := by
  unfold readFreeAt at read
  rw [stands.1] at read
  exact ⟨position, o.raw, _, stands.2, read⟩

theorem output_inside {o : Operand} {common final : Common} {e : Expr}
    (stands : o.Stands items position)
    (success : output ctx common position o = (final, pure e)) :
    ReadInside (.arr items) ctx.path (ctx.scope, e) :=
  readAt_inside stands (output_eq_pure.mp success).1

theorem alternatives_inside {common final : Common} {operands : List Operand} {es : List Expr}
    (stand : Stand items position operands)
    (success : alternatives ctx common position operands = (final, pure es)) :
    ∀ e ∈ es, ReadInside (.arr items) ctx.path (ctx.scope, e) := by
  induction operands generalizing common position es with
  | nil =>
      obtain rfl := pure_eq_pure.mp (Prod.mk.inj success).2
      intro e member
      cases member
  | cons o rest ih =>
      obtain ⟨e, both, others, read, _, after, rfl⟩ := alternatives_cons_eq_pure.mp success
      intro e' member
      rcases List.mem_cons.mp member with rfl | belongs
      · exact readAt_inside stand.1 read
      · exact ih stand.2 after e' belongs

theorem all_inside {operands : List Operand} {es : List Expr}
    (stand : Stand items position operands)
    (success : ((operands.zipIdx position).map fun p => p.1.readFreeAt ctx p.2) = es.map pure) :
    ∀ e ∈ es, ReadInside (.arr items) ctx.path (ctx.scope, e) := by
  induction operands generalizing position es with
  | nil =>
      cases es with
      | nil => intro e member; cases member
      | cons e es => cases success
  | cons o rest ih =>
      cases es with
      | nil => cases success
      | cons e es =>
          obtain ⟨read, others⟩ := List.cons.inj success
          intro e' member
          rcases List.mem_cons.mp member with rfl | belongs
          · exact readFreeAt_inside stand.1 read
          · exact ih stand.2 others e' belongs

theorem branches_inside {common final : Common} {pairs : List (Operand × Operand)}
    {bs : List (Branch Expr)} (stand : Stand items position (pairs.flatMap fun p => [p.1, p.2]))
    (success : branches ctx common position pairs = (final, pure bs)) :
    ∀ b ∈ bs, ReadInside (.arr items) ctx.path (ctx.scope, b.condition) ∧
      ReadInside (.arr items) ctx.path (ctx.scope, b.output) := by
  induction pairs generalizing common position bs with
  | nil =>
      obtain rfl := pure_eq_pure.mp (Prod.mk.inj success).2
      intro b member
      cases member
  | cons p rest ih =>
      obtain ⟨c, r, both, others, read, inside, after, rfl⟩ := branches_cons_eq_pure.mp success
      obtain ⟨first, second, stand⟩ := stand
      intro b member
      rcases List.mem_cons.mp member with rfl | belongs
      · exact ⟨readAt_inside first read, output_inside second inside⟩
      · exact ih stand after b belongs

theorem arms_inside {state final : LabelState} {common final' : Common}
    {pairs : List (Operand × Operand)} {as : List (Arm Expr)}
    (stand : Stand items position (pairs.flatMap fun p => [p.1, p.2]))
    (success : arms ctx state common position pairs = (final, final', pure as)) :
    ∀ a ∈ as, ReadInside (.arr items) ctx.path (ctx.scope, a.output) := by
  induction pairs generalizing state common position as with
  | nil =>
      obtain rfl := pure_eq_pure.mp (Prod.mk.inj (Prod.mk.inj success).2).2
      intro a member
      cases member
  | cons p rest ih =>
      obtain ⟨_, r, _, _, others, _, inside, after, rfl⟩ := arms_cons_eq_pure.mp success
      obtain ⟨_, second, stand⟩ := stand
      intro a member
      rcases List.mem_cons.mp member with rfl | belongs
      · exact output_inside second inside
      · exact ih stand after a belongs

theorem stops_inside {common final : Common} {last : Option Float}
    {pairs : List (Operand × Operand)} {ss : List (Stop Expr)}
    (stand : Stand items position (pairs.flatMap fun p => [p.1, p.2]))
    (success : stops ctx common last position pairs = (final, pure ss)) :
    ∀ s ∈ ss, ReadInside (.arr items) ctx.path (ctx.scope, s.output) := by
  induction pairs generalizing common last position ss with
  | nil =>
      obtain rfl := pure_eq_pure.mp (Prod.mk.inj success).2
      intro s member
      cases member
  | cons p rest ih =>
      obtain ⟨_, r, _, others, _, _, inside, after, rfl⟩ := stops_cons_eq_pure.mp success
      obtain ⟨_, second, stand⟩ := stand
      intro s member
      rcases List.mem_cons.mp member with rfl | belongs
      · exact output_inside second inside
      · exact ih stand after s belongs

-- The scope grows with each binding just as it does for the values that are
-- read after it.
theorem bindings_inside {pairs : List (Operand × Operand)} {body : Operand}
    {bs : List (Binding Expr)} {e : Expr}
    (stand : Stand items position ((pairs.flatMap fun p => [p.1, p.2]) ++ [body]))
    (success : bindingsThen ctx position body pairs = pure (bs, e)) :
    (∀ b ∈ locatedBindings ctx.scope bs, ReadInside (.arr items) ctx.path b.value) ∧
      ReadInside (.arr items) ctx.path (Scope.bindAll ctx.scope bs, e) := by
  induction pairs generalizing ctx position bs with
  | nil =>
      obtain ⟨rfl, read⟩ := bindingsThen_nil_eq_pure.mp success
      refine ⟨?_, readAt_inside stand.1 read⟩
      intro b member
      cases member
  | cons p rest ih =>
      obtain ⟨n, v, others, _, _, read, after, rfl⟩ := bindingsThen_cons_eq_pure.mp success
      obtain ⟨_, second, stand⟩ := stand
      obtain ⟨values, last⟩ := ih stand after
      refine ⟨?_, last⟩
      intro b member
      rcases List.mem_cons.mp member with rfl | belongs
      · exact readFreeAt_inside second read
      · exact values b belongs

theorem plain_inside {scope : Scope} {data : Json} {path : Path} {node : Node Expr}
    (plain : node.binds = false)
    (inside : ∀ c ∈ node.children, ReadInside data path (scope, c)) :
    ∀ p ∈ (node.located scope).children, ReadInside data path p := by
  intro p member
  rw [Node.located_eq_map scope node plain,Node.children_map,List.mem_map] at member
  obtain ⟨c, belongs, rfl⟩ := member
  exact inside c belongs

theorem letIn_inside {operands : List Operand} {e : Expr} (stand : Stand items 1 operands)
    (success : letIn ctx operands = pure e) :
    ∀ p ∈ (e.node.located ctx.scope).children, ReadInside (.arr items) ctx.path p := by
  obtain ⟨pairs, last, bs, b, taken, read, rfl⟩ := letIn_eq_pure.mp success
  rw [pairsAndLast?_eq_some] at taken
  subst taken
  obtain ⟨values, body⟩ := bindings_inside stand read
  intro p member
  rcases List.mem_append.mp member with value | last
  · obtain ⟨b, belongs, rfl⟩ := List.mem_map.mp value
    exact values b belongs
  · rw [List.mem_singleton.mp last]
    exact body

theorem case_inside {operands : List Operand} {e : Expr} (stand : Stand items 1 operands)
    (success : case ctx operands = pure e) :
    ∀ p ∈ (e.node.located ctx.scope).children, ReadInside (.arr items) ctx.path p := by
  obtain ⟨pairs, last, _, bs, _, o, taken, read, inside, rfl⟩ := case_eq_pure.mp success
  rw [pairsAndLast?_eq_some] at taken
  subst taken
  obtain ⟨first, final, _⟩ := stand_append.mp stand
  rw [List.length_append,List.length_singleton] at inside
  rw [Nat.add_comm] at final
  have each := branches_inside first read
  refine plain_inside rfl ?_
  intro c member
  rcases List.mem_append.mp member with branch | last
  · obtain ⟨b, belongs, either⟩ := List.mem_flatMap.mp branch
    simp only [List.mem_cons,List.not_mem_nil,or_false] at either
    rcases either with rfl | rfl
    · exact (each b belongs).1
    · exact (each b belongs).2
  · rw [List.mem_singleton.mp last]
    exact output_inside final inside

theorem select_inside {operands : List Operand} {e : Expr} (stand : Stand items 1 operands)
    (success : select ctx operands = pure e) :
    ∀ p ∈ (e.node.located ctx.scope).children, ReadInside (.arr items) ctx.path p := by
  obtain ⟨input, operands, rfl⟩ := select_operands success
  obtain ⟨pairs, last, state, _, as, _, o, i, taken, read, inside, first, rfl⟩ :=
    select_eq_pure.mp success
  rw [pairsAndLast?_eq_some] at taken
  subst taken
  obtain ⟨front, stand⟩ := stand
  obtain ⟨middle, final, _⟩ := stand_append.mp stand
  rw [List.length_append,List.length_singleton] at inside
  rw [Nat.add_comm] at final
  have each := arms_inside middle read
  refine plain_inside rfl ?_
  intro c member
  rcases List.mem_append.mp member with heads | last
  · rcases List.mem_cons.mp heads with rfl | arm
    · unfold readInput at first
      cases known : state.type? with
      | none =>
          rw [known] at first
          exact readFreeAt_inside front first
      | some type =>
          rw [known] at first
          exact readAt_inside front first
    · obtain ⟨a, belongs, rfl⟩ := List.mem_map.mp arm
      exact each a belongs
  · rw [List.mem_singleton.mp last]
    exact output_inside final inside

theorem curve_inside {operands : List Operand} {e : Expr} (stand : Stand items 1 operands)
    (success : curve ctx operands = pure e) :
    ∀ p ∈ (e.node.located ctx.scope).children, ReadInside (.arr items) ctx.path p := by
  obtain ⟨kind, input, operands, rfl⟩ := curve_operands success
  obtain ⟨pairs, _, x, _, ss, taken, _, read, inside, _, rfl⟩ := curve_eq_pure.mp success
  rw [pairs?_eq_some] at taken
  subst taken
  obtain ⟨_, second, rest⟩ := stand
  have each := stops_inside rest inside
  refine plain_inside rfl ?_
  intro c member
  rcases List.mem_cons.mp member with rfl | stop
  · exact readAt_inside second read
  · obtain ⟨s, belongs, rfl⟩ := List.mem_map.mp stop
    exact each s belongs

theorem has_inside {operands : List Operand} {e : Expr} (stand : Stand items 1 operands)
    (success : operator .has ctx operands = pure e) :
    ∀ p ∈ (e.node.located ctx.scope).children, ReadInside (.arr items) ctx.path p := by
  rcases operator_has_eq_pure.mp success with ⟨key, rfl, success⟩ | ⟨key, object, rfl, success⟩
  · obtain ⟨k, read, rfl⟩ := has_eq_pure.mp success
    refine plain_inside rfl ?_
    intro c member
    rw [List.mem_singleton.mp member]
    exact readAt_inside stand.1 read
  · obtain ⟨k, o, read, read', rfl⟩ := hasIn_eq_pure.mp success
    refine plain_inside rfl ?_
    intro c member
    rcases List.mem_cons.mp member with rfl | last
    · exact readAt_inside stand.1 read
    · rw [List.mem_singleton.mp last]
      exact readAt_inside stand.2.1 read'

theorem array_inside {operands : List Operand} {e : Expr} (stand : Stand items 1 operands)
    (success : array ctx operands = pure e) :
    ∀ p ∈ (e.node.located ctx.scope).children, ReadInside (.arr items) ctx.path p := by
  obtain ⟨item, length, position, input, i, form, read, rfl⟩ := array_eq_pure.mp success
  refine plain_inside rfl ?_
  intro c member
  rw [List.mem_singleton.mp member]
  cases form with
  | input => exact readFreeAt_inside stand.1 read
  | item => exact readFreeAt_inside stand.2.1 read
  | length => exact readFreeAt_inside stand.2.2.1 read

theorem assert_inside {operands : List Operand} {type : Ty} {e : Expr}
    (stand : Stand items 1 operands) (success : assert type ctx operands = pure e) :
    ∀ p ∈ (e.node.located ctx.scope).children, ReadInside (.arr items) ctx.path p := by
  obtain ⟨args, read, rfl⟩ := assert_eq_pure.mp success
  exact plain_inside rfl (all_inside stand read)

theorem operator_inside {op : Operator} {operands : List Operand} {e : Expr}
    (stand : Stand items 1 operands) (success : operator op ctx operands = pure e) :
    ∀ p ∈ (e.node.located ctx.scope).children, ReadInside (.arr items) ctx.path p := by
  cases op with
  | literal =>
      obtain ⟨o, _, made⟩ := withOne_eq_pure.mp success
      obtain rfl := pure_eq_pure.mp made
      exact plain_inside rfl (by simp [constant,Context.expr,Node.children])
  | zoom =>
      obtain rfl := pure_eq_pure.mp success
      exact plain_inside rfl (by simp [Context.expr,Node.children])
  | get =>
      obtain ⟨o, rfl, success⟩ := withOne_eq_pure.mp success
      obtain ⟨n, read, rfl⟩ := get_eq_pure.mp success
      refine plain_inside rfl ?_
      intro c member
      rw [List.mem_singleton.mp member]
      exact readAt_inside stand.1 read
  | has => exact has_inside stand success
  | var =>
      obtain ⟨o, _, success⟩ := withOne_eq_pure.mp success
      obtain ⟨name, bound, _, _, rfl⟩ := var_eq_pure.mp success
      exact plain_inside rfl (by simp [Context.expr,Node.children])
  | letIn => exact letIn_inside stand success
  | coalesce =>
      obtain ⟨common, args, read, rfl⟩ := coalesce_eq_pure.mp success
      exact plain_inside rfl (alternatives_inside stand read)
  | error =>
      obtain ⟨o, _, success⟩ := withOne_eq_pure.mp success
      obtain ⟨message, _, rfl⟩ := error_eq_pure.mp success
      exact plain_inside rfl (by simp [Context.expr,Node.children])
  | string => exact assert_inside stand success
  | number => exact assert_inside stand success
  | boolean => exact assert_inside stand success
  | object => exact assert_inside stand success
  | array => exact array_inside stand success
  | parseColor =>
      obtain ⟨o, rfl, success⟩ := withOne_eq_pure.mp success
      obtain ⟨i, read, rfl⟩ := parseColor_eq_pure.mp success
      refine plain_inside rfl ?_
      intro c member
      rw [List.mem_singleton.mp member]
      exact readAt_inside stand.1 read
  | not =>
      obtain ⟨o, rfl, success⟩ := withOne_eq_pure.mp success
      obtain ⟨i, read, rfl⟩ := not_eq_pure.mp success
      refine plain_inside rfl ?_
      intro c member
      rw [List.mem_singleton.mp member]
      exact readAt_inside stand.1 read
  | case => exact case_inside stand success
  | select => exact select_inside stand success
  | curve => exact curve_inside stand success

end Reading

open Reading Attempt

theorem Expr.read_inside {data : Json} {ctx : Context} {e : Expr}
    (success : Expr.read data ctx = pure e) :
    ∀ p ∈ (e.node.located ctx.scope).children, ReadInside data ctx.path p := by
  obtain ⟨read, _⟩ := Expr.read_eq_pure.mp success
  rcases Expr.readAny_eq_pure.mp read with ⟨op, args, rfl, _, applied⟩ | ⟨_, rfl⟩
  · exact operator_inside (Operand.stand_operands [_] args) applied
  · exact plain_inside rfl (by simp [constant,Context.expr,Node.children])

end MapStyle
