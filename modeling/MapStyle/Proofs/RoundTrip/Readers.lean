import MapStyle.Proofs.RoundTrip.Labels

namespace MapStyle

open List (Forall₂)

-- Two places where the same is expected and the same names are bound to values
-- of the same types. Where they are makes no difference.
structure Context.Like (ctx ctx' : Context) : Prop where
  expected : ctx'.expected = ctx.expected
  scope : Forall₂ (fun b b' => b'.1 = b.1 ∧ b'.2.type = b.2.type) ctx.scope ctx'.scope

theorem Context.like_refl (ctx : Context) : ctx.Like ctx :=
  ⟨rfl, List.forall₂_same.mpr fun _ _ => ⟨rfl, rfl⟩⟩

namespace Context.Like

variable {ctx ctx' : Context} (like : ctx.Like ctx')
include like

theorem derive (step step' : Step) (expected : Option Ty) :
    (ctx.derive step expected).Like (ctx'.derive step' expected) :=
  ⟨congrArg expected.or like.expected, like.scope⟩

theorem deriveUnconstrained (step step' : Step) :
    (ctx.deriveUnconstrained step).Like (ctx'.deriveUnconstrained step') :=
  ⟨rfl, like.scope⟩

theorem bind (name : String) {e e' : Expr} (same : e'.type = e.type) :
    (ctx.bind name e).Like (ctx'.bind name e') :=
  ⟨like.expected, .cons ⟨rfl, same⟩ like.scope⟩

theorem lookup? {name : String} {e : Expr} (found : ctx.lookup? name = some e) :
    ∃ e', ctx'.lookup? name = some e' ∧ e'.type = e.type := by
  unfold Context.lookup? at found ⊢
  have scope := like.scope
  generalize ctx.scope = entries at found scope
  generalize ctx'.scope = entries' at scope
  induction scope with
  | nil => cases found
  | cons first rest ih =>
      rename_i b b' _ _
      obtain ⟨n, v⟩ := b
      obtain ⟨n', v'⟩ := b'
      obtain ⟨rfl, same⟩ := first
      rw [List.lookup_cons] at found ⊢
      cases matched : name == n' with
      | true =>
          rw [matched] at found
          cases found
          exact ⟨v', rfl, same⟩
      | false =>
          rw [matched] at found
          exact ih found

end Context.Like

def Operand.of (j : Json) : Operand :=
  ⟨j, Expr.read j⟩

theorem Expr.operands_eq (js : List Json) : Expr.operands js = js.map Operand.of :=
  Expr.operands_eq_map js

namespace Operand

def Genuine (o : Operand) : Prop :=
  o.read = Expr.read o.raw

theorem genuine_of_mem {js : List Json} {o : Operand} (member : o ∈ Expr.operands js) :
    o.Genuine :=
  Expr.operands_each (fun _ _ => rfl) o member

end Operand

-- Wherever the tree was read, its written form can be read at any place like
-- that, and the tree comes back.
def Expr.Returns (e : Expr) : Prop :=
  ∀ data ctx ctx', ctx.Like ctx' → Expr.read data ctx = pure e →
    ∃ e', Expr.read e.written ctx' = pure e' ∧ e.Alike e'

namespace Reading

open Attempt

variable {ctx ctx' : Context} (like : ctx.Like ctx')
include like

theorem readAt_returns {o : Operand} {position : Nat} {expected : Option Ty} {e : Expr}
    (genuine : o.Genuine) (returns : e.Returns) (read : o.readAt ctx position expected = pure e)
    (position' : Nat) :
    ∃ e', (Operand.of e.written).readAt ctx' position' expected = pure e' ∧ e.Alike e' := by
  unfold Operand.readAt at read
  rw [genuine] at read
  exact returns _ _ _ (like.derive _ (.index position') expected) read

theorem readFreeAt_returns {o : Operand} {position : Nat} {e : Expr} (genuine : o.Genuine)
    (returns : e.Returns) (read : o.readFreeAt ctx position = pure e) (position' : Nat) :
    ∃ e', (Operand.of e.written).readFreeAt ctx' position' = pure e' ∧ e.Alike e' := by
  unfold Operand.readFreeAt at read
  rw [genuine] at read
  exact returns _ _ _ (like.deriveUnconstrained _ (.index position')) read

theorem readInput_returns {type? : Option Ty} {o : Operand} {i : Expr} (genuine : o.Genuine)
    (returns : i.Returns) (read : readInput ctx type? o = pure i) :
    ∃ i', readInput ctx' type? (Operand.of i.written) = pure i' ∧ i.Alike i' := by
  cases type? with
  | none => exact readFreeAt_returns like genuine returns read 1
  | some type => exact readAt_returns like genuine returns read 1

theorem output_returns {o : Operand} {position : Nat} {common final : Common} {e : Expr}
    (genuine : o.Genuine) (returns : e.Returns)
    (success : output ctx common position o = (final, pure e)) (position' : Nat) :
    ∃ e', output ctx' common position' (Operand.of e.written) = (final, pure e') ∧ e.Alike e' := by
  obtain ⟨read, both, added, rfl⟩ := output_eq_pure.mp success
  obtain ⟨e', read', alike⟩ := readAt_returns like genuine returns read position'
  refine ⟨e', output_eq_pure.mpr ⟨read', both, ?_, rfl⟩, alike⟩
  rw [alike.type]
  exact added

theorem all_returns {operands : List Operand} {es : List Expr} {first : Nat}
    (genuine : ∀ o ∈ operands, o.Genuine) (returns : ∀ e ∈ es, e.Returns)
    (success : ((operands.zipIdx first).map fun p => p.1.readFreeAt ctx p.2) = es.map pure) :
    ∃ es', (((es.map fun e => Operand.of e.written).zipIdx first).map fun p =>
      p.1.readFreeAt ctx' p.2) = es'.map pure ∧ Forall₂ Expr.Alike es es' := by
  induction operands generalizing es first with
  | nil =>
      cases es with
      | nil => exact ⟨[], rfl, .nil⟩
      | cons e es => cases success
  | cons o rest ih =>
      cases es with
      | nil => cases success
      | cons e es =>
          obtain ⟨read, others⟩ := List.cons.inj success
          obtain ⟨e', read', alike⟩ := readFreeAt_returns like (genuine o List.mem_cons_self)
            (returns e List.mem_cons_self) read first
          obtain ⟨es', others', alikes⟩ := ih (fun o member => genuine o (List.mem_cons_of_mem _ member))
            (fun e member => returns e (List.mem_cons_of_mem _ member)) others
          exact ⟨e' :: es', congrArg₂ List.cons read' others', .cons alike alikes⟩

theorem alternatives_return {operands : List Operand} {common final : Common} {position : Nat}
    {es : List Expr} (genuine : ∀ o ∈ operands, o.Genuine) (returns : ∀ e ∈ es, e.Returns)
    (success : alternatives ctx common position operands = (final, pure es)) (position' : Nat) :
    ∃ es', alternatives ctx' common position' (es.map fun e => Operand.of e.written) =
      (final, pure es') ∧ Forall₂ Expr.Alike es es' := by
  induction operands generalizing common position es position' with
  | nil =>
      obtain ⟨rfl, ended⟩ := Prod.mk.inj success
      obtain rfl := pure_eq_pure.mp ended
      exact ⟨[], rfl, .nil⟩
  | cons o rest ih =>
      obtain ⟨e, both, others, read, added, after, rfl⟩ := alternatives_cons_eq_pure.mp success
      obtain ⟨e', read', alike⟩ := readAt_returns like (genuine o List.mem_cons_self)
        (returns e List.mem_cons_self) read position'
      obtain ⟨es', after', alikes⟩ := ih (fun o member => genuine o (List.mem_cons_of_mem _ member))
        (fun e member => returns e (List.mem_cons_of_mem _ member)) after (position' + 1)
      rw [← alike.type] at added
      exact ⟨e' :: es', alternatives_cons_eq_pure.mpr ⟨e', both, es', read', added, after', rfl⟩,
        .cons alike alikes⟩

theorem branches_return {pairs : List (Operand × Operand)} {common final : Common}
    {position : Nat} {bs : List (Branch Expr)}
    (genuine : ∀ p ∈ pairs, p.1.Genuine ∧ p.2.Genuine)
    (returns : ∀ b ∈ bs, b.condition.Returns ∧ b.output.Returns)
    (success : branches ctx common position pairs = (final, pure bs)) (position' : Nat) :
    ∃ bs', branches ctx' common position'
      (bs.map fun b => (Operand.of b.condition.written, Operand.of b.output.written)) =
        (final, pure bs') ∧ Forall₂ Branch.Alike bs bs' := by
  induction pairs generalizing common position bs position' with
  | nil =>
      obtain ⟨rfl, ended⟩ := Prod.mk.inj success
      obtain rfl := pure_eq_pure.mp ended
      exact ⟨[], rfl, .nil⟩
  | cons p rest ih =>
      obtain ⟨condition, result⟩ := p
      obtain ⟨c, r, both, others, read, added, after, rfl⟩ := branches_cons_eq_pure.mp success
      obtain ⟨cg, rg⟩ := genuine _ List.mem_cons_self
      obtain ⟨cr, rr⟩ := returns _ List.mem_cons_self
      obtain ⟨c', read', alike⟩ := readAt_returns like cg cr read position'
      obtain ⟨r', added', alike'⟩ := output_returns like rg rr added (position' + 1)
      obtain ⟨bs', after', alikes⟩ := ih (fun p member => genuine p (List.mem_cons_of_mem _ member))
        (fun b member => returns b (List.mem_cons_of_mem _ member)) after (position' + 2)
      exact ⟨⟨c', r'⟩ :: bs',
        branches_cons_eq_pure.mpr ⟨c', r', both, bs', read', added', after', rfl⟩,
        .cons ⟨alike, alike'⟩ alikes⟩

theorem arms_return {pairs : List (Operand × Operand)} {state state' final : LabelState}
    {common final' : Common} {position : Nat} {as : List (Arm Expr)} (states : state.Like state')
    (genuine : ∀ p ∈ pairs, p.2.Genuine) (returns : ∀ a ∈ as, a.output.Returns)
    (success : arms ctx state common position pairs = (final, final', pure as)) (position' : Nat) :
    ∃ final'' as', arms ctx' state' common position' (as.map fun a =>
        (Operand.of (Arm.writtenLabels ⟨a.labels, a.output.written⟩),
          Operand.of a.output.written)) = (final'', final', pure as') ∧
      final.Like final'' ∧ Forall₂ Arm.Alike as as' := by
  induction pairs generalizing state state' common position as position' with
  | nil =>
      obtain ⟨rfl, rest⟩ := Prod.mk.inj success
      obtain ⟨rfl, ended⟩ := Prod.mk.inj rest
      obtain rfl := pure_eq_pure.mp ended
      exact ⟨state', [], rfl, states, .nil⟩
  | cons p rest ih =>
      obtain ⟨label, result⟩ := p
      obtain ⟨ls, r, middle, both, others, read, added, after, rfl⟩ := arms_cons_eq_pure.mp success
      obtain ⟨middle', ls', read', states', alikes⟩ :=
        armLabels_return states read r.written ctx' position'
      obtain ⟨r', added', alike⟩ := output_returns like (genuine _ List.mem_cons_self)
        (returns _ List.mem_cons_self) added (position' + 1)
      obtain ⟨final'', as', after', states'', alikes'⟩ := ih states'
        (fun p member => genuine p (List.mem_cons_of_mem _ member))
        (fun a member => returns a (List.mem_cons_of_mem _ member)) after (position' + 2)
      exact ⟨final'', ⟨ls', r'⟩ :: as',
        arms_cons_eq_pure.mpr ⟨ls', r', middle', both, as', read', added', after', rfl⟩,
        states'', .cons ⟨alikes, alike⟩ alikes'⟩

theorem stops_return {pairs : List (Operand × Operand)} {common final : Common}
    {last last' : Option Float} {position : Nat} {ss : List (Stop Expr)}
    (genuine : ∀ p ∈ pairs, p.2.Genuine) (returns : ∀ s ∈ ss, s.output.Returns)
    (lasts : ∀ y', last' = some y' → ∃ y, last = some y ∧ (y' == y) = true)
    (success : stops ctx common last position pairs = (final, pure ss)) (position' : Nat) :
    ∃ ss', stops ctx' common last' position'
      (ss.map fun s => (Operand.of (.ofFloat s.input), Operand.of s.output.written)) =
        (final, pure ss') ∧ Forall₂ Stop.Alike ss ss' := by
  induction pairs generalizing common last last' position ss position' with
  | nil =>
      obtain ⟨rfl, ended⟩ := Prod.mk.inj success
      obtain rfl := pure_eq_pure.mp ended
      exact ⟨[], rfl, .nil⟩
  | cons p rest ih =>
      obtain ⟨number, result⟩ := p
      obtain ⟨x, r, both, others, numeral, order, read, after, rfl⟩ := stops_cons_eq_pure.mp success
      obtain ⟨x', written, same, stable⟩ := Json.ofFloat_of_float? numeral
      have order' : (last'.any fun y => x' ≤ y) = false := by
        rw [Option.any_eq_false]
        intro y' known
        obtain ⟨y, known', same'⟩ := lasts y' known
        have above := (Option.any_eq_false _ _).mp order y known'
        rw [decide_eq_false_iff_not] at above ⊢
        rwa [Double.le_congr same same']
      obtain ⟨r', read', alike⟩ := output_returns like (genuine _ List.mem_cons_self)
        (returns _ List.mem_cons_self) read (position' + 1)
      have lasts' : ∀ y', some x' = some y' → ∃ y, some x = some y ∧ (y' == y) = true :=
        fun y' known => ⟨x, rfl, Option.some.inj known ▸ same⟩
      obtain ⟨ss', after', alikes⟩ := ih
        (fun p member => genuine p (List.mem_cons_of_mem _ member))
        (fun s member => returns s (List.mem_cons_of_mem _ member)) lasts' after (position' + 2)
      exact ⟨⟨x', r'⟩ :: ss',
        stops_cons_eq_pure.mpr ⟨x', r', both, ss', written, order', read', after', rfl⟩,
        .cons ⟨same, stable, Double.again_eq written, alike⟩ alikes⟩

omit like in
theorem bindings_return {pairs : List (Operand × Operand)} {body : Operand} {position : Nat}
    {bs : List (Binding Expr)} {e : Expr} (like : ctx.Like ctx')
    (genuine : ∀ p ∈ pairs, p.2.Genuine) (genuine' : body.Genuine)
    (returns : ∀ b ∈ bs, b.value.Returns) (returns' : e.Returns)
    (success : bindingsThen ctx position body pairs = pure (bs, e)) (position' : Nat) :
    ∃ bs' e', bindingsThen ctx' position' (Operand.of e.written)
      (bs.map fun b => (Operand.of (.str b.name), Operand.of b.value.written)) = pure (bs', e') ∧
      Forall₂ Binding.Alike bs bs' ∧ e.Alike e' := by
  induction pairs generalizing ctx ctx' position bs position' with
  | nil =>
      obtain ⟨rfl, read⟩ := bindingsThen_nil_eq_pure.mp success
      obtain ⟨e', read', alike⟩ := readAt_returns like genuine' returns' read position'
      exact ⟨[], e', bindingsThen_nil_eq_pure.mpr ⟨rfl, read'⟩, .nil, alike⟩
  | cons p rest ih =>
      obtain ⟨name, value⟩ := p
      obtain ⟨n, v, others, named, valid, read, after, rfl⟩ := bindingsThen_cons_eq_pure.mp success
      obtain ⟨v', read', alike⟩ := readFreeAt_returns like (genuine _ List.mem_cons_self)
        (returns _ List.mem_cons_self) read (position' + 1)
      obtain ⟨bs', e', after', alikes, alike'⟩ := ih (like.bind n alike.type)
        (fun p member => genuine p (List.mem_cons_of_mem _ member))
        (fun b member => returns b (List.mem_cons_of_mem _ member)) after (position' + 2)
      exact ⟨⟨n, v'⟩ :: bs', e',
        bindingsThen_cons_eq_pure.mpr ⟨n, v', bs', rfl, valid, read', after', rfl⟩,
        .cons ⟨rfl, alike⟩ alikes, alike'⟩

end Reading

end MapStyle
