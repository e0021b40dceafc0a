import MapStyle.Proofs.Reading.Settled
import MapStyle.Proofs.RoundTrip.Readers
import MapStyle.Proofs.Types.Limits

-- Reading the same data where a limit is expected besides what was expected before. The
-- limit only goes on to the operands that the value may come from; all other operands are
-- read as before. The data can still be read if its type leaves room for the limit and no
-- constant is in the way of it.

namespace MapStyle

open List (Forall₂)

def Context.expectation (ctx : Context) : Ty :=
  ctx.expected.getD .unknown

def Reading.Common.type (common : Common) : Ty :=
  common.getD .unknown

structure Context.Limited (limit : Ty) (ctx ctx' : Context) : Prop where
  expectation : Ty.Limited limit ctx.expectation ctx'.expectation
  scope : Forall₂ (fun b b' => b'.1 = b.1 ∧ b'.2.type = b.2.type) ctx.scope ctx'.scope

inductive Expr.Supplies : Expr → Expr → Prop
  | self (e : Expr) : Supplies e e
  | output {e o n : Expr} : o ∈ e.node.outputs → Supplies o n → Supplies e n
  | body {e body n : Expr} {bindings : List (Binding Expr)} : e.node = .letIn bindings body →
      Supplies body n → Supplies e n

-- A constant is in the way of an array if it is not one of its values and was taken for
-- more than its own type.
def Expr.Admitted (limit : Ty) (e : Expr) : Prop :=
  ∀ item length, limit = .array item length → ∀ n v, e.Supplies n → n.node = .literal v →
    n.type = Ty.ofJson v.toJson ∨ limit.admits v.toJson = true

theorem Expr.admitted_unknown (e : Expr) : e.Admitted .unknown :=
  fun _ _ array => nomatch array

theorem Expr.Admitted.output {limit : Ty} {e o : Expr} (admitted : e.Admitted limit)
    (member : o ∈ e.node.outputs) : o.Admitted limit :=
  fun item length array n v supplies => admitted item length array n v (.output member supplies)

def Operand.Endures (o : Operand) : Prop :=
  ∀ limit lower ctx ctx' e, ctx.Limited limit ctx' → lower ≤ limit → lower ≤ e.type →
    e.Admitted limit → o.read ctx = pure e →
      ∃ e', o.read ctx' = pure e' ∧ limit.Shifts ctx.expectation e.type e'.type

theorem Operand.Endures.same {o : Operand} {ctx ctx' : Context} {e : Expr} (endures : o.Endures)
    (alike : ctx.Limited .unknown ctx') (read : o.read ctx = pure e) :
    ∃ e', o.read ctx' = pure e' ∧ e'.type = e.type := by
  obtain ⟨e', read', shifts⟩ :=
    endures _ _ ctx ctx' e alike (.unknown e.type) (.refl e.type) e.admitted_unknown read
  exact ⟨e', read', Ty.shifts_unknown shifts⟩

namespace Reading

open Attempt

theorem Common.add_eq_ok {common : Common} {type both : Ty} :
    common.add type = .ok both ↔ Ty.Meets common.type type both := by
  rw [Ty.meets_iff]
  cases common with
  | none =>
      show Except.ok type = .ok both ↔ some type = some both
      rw [Except.ok.injEq,Option.some.injEq]
  | some known => exact add_some_eq_ok

theorem Common.join_le {common final : Common} {types : List Ty}
    (joins : common.join types = some final) : final.type ≤ common.type := by
  cases common with
  | none => exact .unknown _
  | some known =>
      rw [join_known,Option.map_eq_some_iff] at joins
      obtain ⟨both, meets, rfl⟩ := joins
      exact (((Ty.narrows_splits both).foldlM meets).mp (.refl both)).1

theorem Common.expectation_derive (ctx : Context) (step : Step) (common : Common) :
    (ctx.derive step common.expectation).expectation =
      common.type.orExpected ctx.expectation := by
  unfold Context.expectation Context.derive Ty.orExpected
  cases common with
  | none => rfl
  | some type =>
      show ((Option.filter (fun type => type != .unknown) (some type)).or ctx.expected).getD .unknown =
        if type = .unknown then ctx.expected.getD .unknown else type
      by_cases unknown : type = .unknown
      · subst unknown
        rfl
      · rw [Option.filter_some,if_pos (bne_iff_ne.mpr unknown),if_neg unknown]
        rfl

variable {limit lower : Ty} {ctx ctx' : Context}

section Operands

variable {o : Operand} {position : Nat} {e : Expr} (limited : ctx.Limited limit ctx')
  (endures : o.Endures)
include limited endures

theorem readAt_same {type : Ty} (read : o.readAt ctx position (some type) = pure e)
    (position' : Nat) :
    ∃ e', o.readAt ctx' position' (some type) = pure e' ∧ e'.type = e.type := by
  have alike : (ctx.derive (.index position) (some type)).Limited .unknown
      (ctx'.derive (.index position') (some type)) := ⟨Ty.limited_self type, limited.scope⟩
  exact endures.same alike read

theorem readFreeAt_same (read : o.readFreeAt ctx position = pure e) (position' : Nat) :
    ∃ e', o.readFreeAt ctx' position' = pure e' ∧ e'.type = e.type := by
  have alike : (ctx.deriveUnconstrained (.index position)).Limited .unknown
      (ctx'.deriveUnconstrained (.index position')) := ⟨Ty.limited_self .unknown, limited.scope⟩
  exact endures.same alike read

theorem readInput_same {type? : Option Ty} (read : readInput ctx type? o = pure e) :
    ∃ e', readInput ctx' type? o = pure e' ∧ e'.type = e.type := by
  cases type? with
  | none => exact readFreeAt_same limited endures read 1
  | some type => exact readAt_same limited endures read 1

variable {common common' : Common} (within : lower ≤ limit) (admitted : e.Admitted limit)
  (shifts : limit.Shifts ctx.expectation common.type common'.type)
include within admitted shifts

theorem readAt_added {both : Ty} (below : lower ≤ both)
    (read : o.readAt ctx position common.expectation = pure e)
    (added : common.add e.type = .ok both) (position' : Nat) :
    ∃ e' both', o.readAt ctx' position' common'.expectation = pure e' ∧
      common'.add e'.type = .ok both' ∧ limit.Shifts ctx.expectation both both' := by
  have meets := Common.add_eq_ok.mp added
  have inner := shifts.orExpected limited.expectation
  rw [← Common.expectation_derive ctx (.index position),
    ← Common.expectation_derive ctx' (.index position')] at inner
  have shifted : ∃ e', o.readAt ctx' position' common'.expectation = pure e' ∧
      limit.Shifts (common.type.orExpected ctx.expectation) e.type e'.type := by
    rcases inner with same | limited'
    · have alike : (ctx.derive (.index position) common.expectation).Limited .unknown
          (ctx'.derive (.index position') common'.expectation) :=
        ⟨same ▸ Ty.limited_self _, limited.scope⟩
      obtain ⟨e', read', same⟩ := endures.same alike read
      exact ⟨e', read', .inl same⟩
    · rw [← Common.expectation_derive ctx (.index position)]
      exact endures limit lower _ _ e ⟨limited', limited.scope⟩ within
        (below.trans (Ty.meets_le meets).2) admitted read
  obtain ⟨e', read', output⟩ := shifted
  obtain ⟨both', meets', shifts'⟩ := shifts.meet output within below meets
  exact ⟨e', both', read', Common.add_eq_ok.mpr meets', shifts'⟩

theorem output_endures {final : Common} (below : lower ≤ final.type)
    (success : output ctx common position o = (final, pure e)) (position' : Nat) :
    ∃ final' e', output ctx' common' position' o = (final', pure e') ∧
      limit.Shifts ctx.expectation final.type final'.type := by
  obtain ⟨read, both, added, rfl⟩ := output_eq_pure.mp success
  obtain ⟨e', both', read', added', shifts'⟩ :=
    readAt_added limited endures within admitted shifts below read added position'
  exact ⟨some both', e', output_eq_pure.mpr ⟨read', both', added', rfl⟩, shifts'⟩

end Operands

theorem labels_elsewhere {position : Nat} {state final : LabelState} {js : List Json}
    {vs : List Value} (success : labels ctx position state js = (final, pure vs)) (ctx' : Context)
    (position' : Nat) : labels ctx' position' state js = (final, pure vs) := by
  induction js generalizing state vs with
  | nil => exact success
  | cons j rest ih =>
      obtain ⟨type, others, kind, shared, fresh, after, rfl⟩ := labels_cons_eq_pure.mp success
      exact labels_cons_eq_pure.mpr ⟨type, others, kind, shared, fresh, ih after, rfl⟩

theorem armLabels_elsewhere {position : Nat} {state final : LabelState} {data : Json}
    {vs : List Value} (success : armLabels ctx position state data = (final, pure vs))
    (ctx' : Context) (position' : Nat) :
    armLabels ctx' position' state data = (final, pure vs) := by
  cases data with
  | arr items =>
      cases items with
      | nil => exact absurd (Prod.mk.inj success).2 ctx.failAt_ne_pure
      | cons j js => exact labels_elsewhere success ctx' position'
  | _ => exact labels_elsewhere success ctx' position'

section Lists

variable {common common' final : Common} (limited : ctx.Limited limit ctx') (within : lower ≤ limit)
  (below : lower ≤ final.type) (shifts : limit.Shifts ctx.expectation common.type common'.type)
include limited within below shifts

theorem alternatives_endure {operands : List Operand} {position : Nat} {es : List Expr}
    (endures : ∀ o ∈ operands, o.Endures) (admitted : ∀ e ∈ es, e.Admitted limit)
    (success : alternatives ctx common position operands = (final, pure es)) (position' : Nat) :
    ∃ final' es', alternatives ctx' common' position' operands = (final', pure es') ∧
      limit.Shifts ctx.expectation final.type final'.type := by
  induction operands generalizing common common' position es position' with
  | nil =>
      obtain ⟨rfl, rfl⟩ := alternatives_nil_eq_pure.mp success
      exact ⟨common', [], rfl, shifts⟩
  | cons o rest ih =>
      obtain ⟨e, both, others, read, added, after, rfl⟩ := alternatives_cons_eq_pure.mp success
      obtain ⟨here, onward⟩ := List.forall_mem_cons.mp endures
      obtain ⟨own, theirs⟩ := List.forall_mem_cons.mp admitted
      have room : lower ≤ both := below.trans (Common.join_le (alternatives_joins after))
      obtain ⟨e', both', read', added', shifts'⟩ :=
        readAt_added limited here within own shifts room read added position'
      have next : limit.Shifts ctx.expectation (Common.type (some both)) (Common.type (some both')) :=
        shifts'
      obtain ⟨final', es', after', final⟩ := ih next onward theirs after (position' + 1)
      exact ⟨final', e' :: es',
        alternatives_cons_eq_pure.mpr ⟨e', both', es', read', added', after', rfl⟩, final⟩

theorem branches_endure {pairs : List (Operand × Operand)} {position : Nat}
    {bs : List (Branch Expr)} (endures : ∀ p ∈ pairs, p.1.Endures ∧ p.2.Endures)
    (admitted : ∀ b ∈ bs, b.output.Admitted limit)
    (success : branches ctx common position pairs = (final, pure bs)) (position' : Nat) :
    ∃ final' bs', branches ctx' common' position' pairs = (final', pure bs') ∧
      limit.Shifts ctx.expectation final.type final'.type := by
  induction pairs generalizing common common' position bs position' with
  | nil =>
      obtain rfl := (Prod.mk.inj success).1
      exact ⟨common', [], rfl, shifts⟩
  | cons p rest ih =>
      obtain ⟨c, r, both, others, read, made, after, rfl⟩ := branches_cons_eq_pure.mp success
      obtain ⟨⟨condition, result⟩, onward⟩ := List.forall_mem_cons.mp endures
      obtain ⟨own, theirs⟩ := List.forall_mem_cons.mp admitted
      have room : lower ≤ both.type := below.trans (Common.join_le (branches_join after))
      obtain ⟨c', read', _⟩ := readAt_same limited condition read position'
      obtain ⟨both', r', made', shifts'⟩ :=
        output_endures limited result within own shifts room made (position' + 1)
      obtain ⟨final', bs', after', final⟩ := ih shifts' onward theirs after (position' + 2)
      exact ⟨final', ⟨c', r'⟩ :: bs',
        branches_cons_eq_pure.mpr ⟨c', r', both', bs', read', made', after', rfl⟩, final⟩

theorem arms_endure {pairs : List (Operand × Operand)} {state final' : LabelState} {position : Nat}
    {as : List (Arm Expr)} (endures : ∀ p ∈ pairs, p.1.Endures ∧ p.2.Endures)
    (admitted : ∀ a ∈ as, a.output.Admitted limit)
    (success : arms ctx state common position pairs = (final', final, pure as)) :
    ∃ final'' as', arms ctx' state common' position pairs = (final', final'', pure as') ∧
      limit.Shifts ctx.expectation final.type final''.type := by
  induction pairs generalizing state common common' position as with
  | nil =>
      obtain ⟨rfl, rest⟩ := Prod.mk.inj success
      obtain rfl := (Prod.mk.inj rest).1
      exact ⟨common', [], rfl, shifts⟩
  | cons p rest ih =>
      obtain ⟨ls, r, middle, both, others, read, made, after, rfl⟩ := arms_cons_eq_pure.mp success
      obtain ⟨⟨_, result⟩, onward⟩ := List.forall_mem_cons.mp endures
      obtain ⟨own, theirs⟩ := List.forall_mem_cons.mp admitted
      have room : lower ≤ both.type := below.trans (Common.join_le (arms_join after))
      have read' := armLabels_elsewhere read ctx' position
      obtain ⟨both', r', made', shifts'⟩ :=
        output_endures limited result within own shifts room made (position + 1)
      obtain ⟨final'', as', after', final⟩ := ih shifts' onward theirs after
      exact ⟨final'', ⟨ls, r'⟩ :: as',
        arms_cons_eq_pure.mpr ⟨ls, r', middle, both', as', read', made', after', rfl⟩, final⟩

theorem stops_endure {pairs : List (Operand × Operand)} {last : Option Float} {position : Nat}
    {ss : List (Stop Expr)} (endures : ∀ p ∈ pairs, p.1.Endures ∧ p.2.Endures)
    (admitted : ∀ s ∈ ss, s.output.Admitted limit)
    (success : stops ctx common last position pairs = (final, pure ss)) :
    ∃ final' ss', stops ctx' common' last position pairs = (final', pure ss') ∧
      limit.Shifts ctx.expectation final.type final'.type := by
  induction pairs generalizing common common' last position ss with
  | nil =>
      obtain rfl := (Prod.mk.inj success).1
      exact ⟨common', [], rfl, shifts⟩
  | cons p rest ih =>
      obtain ⟨x, r, both, others, numeral, order, made, after, rfl⟩ := stops_cons_eq_pure.mp success
      obtain ⟨⟨_, result⟩, onward⟩ := List.forall_mem_cons.mp endures
      obtain ⟨own, theirs⟩ := List.forall_mem_cons.mp admitted
      have room : lower ≤ both.type := below.trans (Common.join_le (stops_join after))
      obtain ⟨both', r', made', shifts'⟩ :=
        output_endures limited result within own shifts room made (position + 1)
      obtain ⟨final', ss', after', final⟩ := ih shifts' onward theirs after
      exact ⟨final', ⟨x, r'⟩ :: ss',
        stops_cons_eq_pure.mpr ⟨x, r', both', ss', numeral, order, made', after', rfl⟩, final⟩

end Lists

theorem all_endure (limited : ctx.Limited limit ctx') {operands : List Operand} {es : List Expr}
    {first : Nat} (endures : ∀ o ∈ operands, o.Endures)
    (success : ((operands.zipIdx first).map fun p => p.1.readFreeAt ctx p.2) = es.map pure) :
    ∃ es' : List Expr,
      ((operands.zipIdx first).map fun p => p.1.readFreeAt ctx' p.2) = es'.map pure := by
  induction operands generalizing first es with
  | nil => exact ⟨[], rfl⟩
  | cons o rest ih =>
      cases es with
      | nil => cases success
      | cons e es =>
          obtain ⟨read, others⟩ := List.cons.inj success
          obtain ⟨here, onward⟩ := List.forall_mem_cons.mp endures
          obtain ⟨e', read', _⟩ := readFreeAt_same limited here read first
          obtain ⟨es', others'⟩ := ih onward others
          exact ⟨e' :: es', congrArg₂ List.cons read' others'⟩

theorem bindings_endure {pairs : List (Operand × Operand)} {body : Operand} {position : Nat}
    {bs : List (Binding Expr)} {e : Expr} (limited : ctx.Limited limit ctx') (within : lower ≤ limit)
    (below : lower ≤ e.type) (admitted : e.Admitted limit)
    (endures : ∀ p ∈ pairs, p.1.Endures ∧ p.2.Endures) (last : body.Endures)
    (success : bindingsThen ctx position body pairs = pure (bs, e)) :
    ∃ bs' e', bindingsThen ctx' position body pairs = pure (bs', e') ∧
      limit.Shifts ctx.expectation e.type e'.type := by
  induction pairs generalizing ctx ctx' position bs with
  | nil =>
      obtain ⟨rfl, read⟩ := bindingsThen_nil_eq_pure.mp success
      have inner : (ctx.derive (.index position) none).Limited limit
          (ctx'.derive (.index position) none) := ⟨limited.expectation, limited.scope⟩
      obtain ⟨e', read', shifts⟩ := last limit lower _ _ e inner within below admitted read
      exact ⟨[], e', bindingsThen_nil_eq_pure.mpr ⟨rfl, read'⟩, shifts⟩
  | cons p rest ih =>
      obtain ⟨n, v, others, named, valid, read, after, rfl⟩ := bindingsThen_cons_eq_pure.mp success
      obtain ⟨⟨_, value⟩, onward⟩ := List.forall_mem_cons.mp endures
      obtain ⟨v', read', same⟩ := readFreeAt_same limited value read (position + 1)
      have bound : (ctx.bind n v).Limited limit (ctx'.bind n v') :=
        ⟨limited.expectation, .cons ⟨rfl, same⟩ limited.scope⟩
      obtain ⟨bs', e', after', shifts⟩ := ih bound onward after
      exact ⟨⟨n, v'⟩ :: bs', e',
        bindingsThen_cons_eq_pure.mpr ⟨n, v', bs', named, valid, read', after', rfl⟩, shifts⟩

section Operators

variable {operands : List Operand} {e : Expr} (limited : ctx.Limited limit ctx')
  (within : lower ≤ limit) (below : lower ≤ e.type) (admitted : e.Admitted limit)
  (endures : ∀ o ∈ operands, o.Endures)
include limited

theorem constant_endures {data : Json} (admitted : (constant ctx data).Admitted limit) :
    limit.Shifts ctx.expectation (constant ctx data).type (constant ctx' data).type := by
  have expects : ∀ ctx : Context,
      (constant ctx data).type = constantType (some ctx.expectation) data := by
    intro ctx
    unfold Context.expectation
    show constantType ctx.expected data = _
    cases ctx.expected <;> rfl
  have own : ∀ item length, limit = .array item length →
      (constant ctx data).type = Ty.ofJson data ∨ limit.admits data = true := by
    intro item length array
    have known := admitted item length array _ _ (.self _) rfl
    rwa [show (Value.ofJson data).toJson = data.again from rfl,Ty.ofJson_again,
      Ty.admits_again] at known
  rw [expects] at own ⊢
  rw [expects]
  obtain ⟨meets, bare⟩ := limited.expectation
  generalize ctx.expectation = expected at own meets bare ⊢
  generalize ctx'.expectation = expected' at meets ⊢
  have splits := Ty.admits_splits data meets
  cases meets with
  | left =>
      rw [bare rfl]
      exact .inl rfl
  | right => exact .inl rfl
  | same => exact .inl rfl
  | @array item item' both length length' shared items lengths =>
      have taken : ∀ {item length}, constantType (some (.array item length)) data =
          if (Ty.array item length).admits data then .array item length else Ty.ofJson data := rfl
      rw [taken] at own ⊢
      rw [taken]
      by_cases both : (Ty.array item length).admits data = true ∧
          (Ty.array item' length').admits data = true
      · rw [if_pos both.1,if_pos (splits.mpr both)]
        exact .inr ⟨.array items lengths, nofun⟩
      · rw [if_neg (mt splits.mp both)]
        rcases own _ _ rfl with same | admits
        · exact .inl same.symm
        · rw [if_neg fun first => both ⟨first, admits⟩]
          exact .inl rfl

theorem error_endures {o : Operand} (success : Reading.error ctx o.raw = pure e) :
    ∃ e', Reading.error ctx' o.raw = pure e' ∧ limit.Shifts ctx.expectation e.type e'.type := by
  obtain ⟨message, said, rfl⟩ := error_eq_pure.mp success
  refine ⟨_, error_eq_pure.mpr ⟨message, said, rfl⟩, .inr ⟨limited.expectation.1, ?_⟩⟩
  intro unexpected
  exact unexpected.trans (limited.expectation.2 unexpected).symm

include endures

theorem has_endures (success : operator .has ctx operands = pure e) :
    ∃ e', operator .has ctx' operands = pure e' ∧ e'.type = e.type := by
  rcases operator_has_eq_pure.mp success with ⟨key, rfl, success⟩ | ⟨key, object, rfl, success⟩
  · obtain ⟨k, read, rfl⟩ := has_eq_pure.mp success
    obtain ⟨k', read', _⟩ := readAt_same limited (endures key List.mem_cons_self) read 1
    exact ⟨_, has_eq_pure.mpr ⟨k', read', rfl⟩, rfl⟩
  · obtain ⟨k, o, read, given, rfl⟩ := hasIn_eq_pure.mp success
    obtain ⟨first, others⟩ := List.forall_mem_cons.mp endures
    obtain ⟨k', read', _⟩ := readAt_same limited first read 1
    obtain ⟨o', given', _⟩ := readAt_same limited (others object List.mem_cons_self) given 2
    exact ⟨_, hasIn_eq_pure.mpr ⟨k', o', read', given', rfl⟩, rfl⟩

theorem assert_endures {type : Ty} (success : assert type ctx operands = pure e) :
    ∃ e', assert type ctx' operands = pure e' ∧ e'.type = e.type := by
  obtain ⟨args, read, rfl⟩ := assert_eq_pure.mp success
  obtain ⟨args', read'⟩ := all_endure limited endures read
  exact ⟨_, assert_eq_pure.mpr ⟨args', read', rfl⟩, rfl⟩

theorem array_endures (success : array ctx operands = pure e) :
    ∃ e', array ctx' operands = pure e' ∧ e'.type = e.type := by
  obtain ⟨item, length, position, input, i, form, read, rfl⟩ := array_eq_pure.mp success
  have member : input ∈ operands := by cases form <;> simp
  obtain ⟨i', read', _⟩ := readFreeAt_same limited (endures input member) read position
  exact ⟨_, array_eq_pure.mpr ⟨item, length, position, input, i', form, read', rfl⟩, rfl⟩

include within below admitted

theorem letIn_endures (success : letIn ctx operands = pure e) :
    ∃ e', letIn ctx' operands = pure e' ∧ limit.Shifts ctx.expectation e.type e'.type := by
  obtain ⟨pairs, last, bs, b, split, read, rfl⟩ := letIn_eq_pure.mp success
  obtain ⟨each, final⟩ := pairsAndLast?_each split endures
  have body : b.Admitted limit := fun item length array n v supplies =>
    admitted item length array n v (.body rfl supplies)
  obtain ⟨bs', b', read', shifts⟩ :=
    bindings_endure (e := b) limited within below body each final read
  exact ⟨_, letIn_eq_pure.mpr ⟨pairs, last, bs', b', split, read', rfl⟩, shifts⟩

theorem coalesce_endures (success : coalesce ctx operands = pure e) :
    ∃ e', coalesce ctx' operands = pure e' ∧ limit.Shifts ctx.expectation e.type e'.type := by
  obtain ⟨common, args, read, rfl⟩ := coalesce_eq_pure.mp success
  obtain ⟨common', args', read', shifts⟩ := alternatives_endure limited within below (.inl rfl)
    endures (fun a member => admitted.output member) read 1
  exact ⟨_, coalesce_eq_pure.mpr ⟨common', args', read', rfl⟩, shifts⟩

theorem case_endures (success : case ctx operands = pure e) :
    ∃ e', case ctx' operands = pure e' ∧ limit.Shifts ctx.expectation e.type e'.type := by
  obtain ⟨pairs, last, common, bs, final, o, split, read, made, rfl⟩ := case_eq_pure.mp success
  obtain ⟨each, otherwise⟩ := pairsAndLast?_each split endures
  have outputs : ∀ b ∈ bs, b.output.Admitted limit := fun b member =>
    admitted.output (List.mem_append_left _ (List.mem_map_of_mem member))
  have output : o.Admitted limit := admitted.output (List.mem_append_right _ List.mem_cons_self)
  have room : lower ≤ common.type := below.trans (Common.join_le (output_joins made))
  obtain ⟨common', bs', read', shifts⟩ :=
    branches_endure limited within room (.inl rfl) each outputs read 1
  obtain ⟨final', o', made', shifts'⟩ :=
    output_endures limited otherwise within output shifts below made operands.length
  exact ⟨_, case_eq_pure.mpr ⟨pairs, last, common', bs', final', o', split, read', made', rfl⟩,
    shifts'⟩

theorem select_endures (success : select ctx operands = pure e) :
    ∃ e', select ctx' operands = pure e' ∧ limit.Shifts ctx.expectation e.type e'.type := by
  obtain ⟨input, operands, rfl⟩ := select_operands success
  obtain ⟨pairs, last, state, common, as, final, o, i, split, read, made, given, rfl⟩ :=
    select_eq_pure.mp success
  obtain ⟨first, others⟩ := List.forall_mem_cons.mp endures
  obtain ⟨each, otherwise⟩ := pairsAndLast?_each split others
  have outputs : ∀ a ∈ as, a.output.Admitted limit := fun a member =>
    admitted.output (List.mem_append_left _ (List.mem_map_of_mem member))
  have output : o.Admitted limit := admitted.output (List.mem_append_right _ List.mem_cons_self)
  have room : lower ≤ common.type := below.trans (Common.join_le (output_joins made))
  obtain ⟨common', as', read', shifts⟩ :=
    arms_endure limited within room (.inl rfl) each outputs read
  obtain ⟨final', o', made', shifts'⟩ :=
    output_endures limited otherwise within output shifts below made (operands.length + 1)
  obtain ⟨i', given', _⟩ := readInput_same limited first given
  exact ⟨_, select_eq_pure.mpr ⟨pairs, last, state, common', as', final', o', i', split, read',
    made', given', rfl⟩, shifts'⟩

theorem curve_endures (success : curve ctx operands = pure e) :
    ∃ e', curve ctx' operands = pure e' ∧ limit.Shifts ctx.expectation e.type e'.type := by
  obtain ⟨kind, input, operands, rfl⟩ := curve_operands success
  obtain ⟨pairs, i, x, common, ss, split, known, given, read, blends, rfl⟩ :=
    curve_eq_pure.mp success
  obtain ⟨_, others⟩ := List.forall_mem_cons.mp endures
  obtain ⟨second, others⟩ := List.forall_mem_cons.mp others
  have each := pairs?_each split others
  have outputs : ∀ s ∈ ss, s.output.Admitted limit := fun s member =>
    admitted.output (List.mem_map_of_mem member)
  obtain ⟨x', given', _⟩ := readAt_same limited second given 2
  obtain ⟨common', ss', read', shifts⟩ :=
    stops_endure limited within below (.inl rfl) each outputs read
  have known' : interpolation ctx' kind.raw = pure i :=
    interpolation_eq_pure.mpr (interpolation_eq_pure.mp known)
  have blends' : (i.isStep || common'.type.blends) = true := by
    rw [Bool.or_eq_true] at blends ⊢
    exact blends.imp_right (Ty.blends_of_le shifts.le)
  exact ⟨_, curve_eq_pure.mpr ⟨pairs, i, x', common', ss', split, known', given', read',
    blends', rfl⟩, shifts⟩

theorem operator_endures {op : Operator} (success : operator op ctx operands = pure e) :
    ∃ e', operator op ctx' operands = pure e' ∧ limit.Shifts ctx.expectation e.type e'.type := by
  have unshifted : (∃ e', operator op ctx' operands = pure e' ∧ e'.type = e.type) →
      ∃ e', operator op ctx' operands = pure e' ∧ limit.Shifts ctx.expectation e.type e'.type :=
    fun given => given.imp fun e' read => ⟨read.1, .inl read.2⟩
  cases op with
  | literal =>
      obtain ⟨o, rfl, made⟩ := withOne_eq_pure.mp success
      obtain rfl := pure_eq_pure.mp made
      exact ⟨_, rfl, constant_endures limited admitted⟩
  | zoom =>
      obtain rfl := pure_eq_pure.mp success
      exact ⟨_, rfl, .inl rfl⟩
  | get =>
      obtain ⟨o, rfl, success⟩ := withOne_eq_pure.mp success
      obtain ⟨n, read, rfl⟩ := get_eq_pure.mp success
      obtain ⟨n', read', _⟩ := readAt_same limited (endures o List.mem_cons_self) read 1
      have made : get ctx' o = pure (ctx'.expr .unknown (.get n')) :=
        get_eq_pure.mpr ⟨n', read', rfl⟩
      exact ⟨_, made, .inl rfl⟩
  | has => exact unshifted (has_endures limited endures success)
  | var =>
      obtain ⟨o, rfl, success⟩ := withOne_eq_pure.mp success
      obtain ⟨name, bound, named, found, rfl⟩ := var_eq_pure.mp success
      have like : ctx.Like { ctx' with expected := ctx.expected } := ⟨rfl, limited.scope⟩
      obtain ⟨bound', found', same⟩ := like.lookup? found
      have made : var ctx' o.raw = pure (ctx'.expr bound'.type (.var name)) :=
        var_eq_pure.mpr ⟨name, bound', named, found', rfl⟩
      exact ⟨_, made, .inl same⟩
  | letIn => exact letIn_endures limited within below admitted endures success
  | coalesce => exact coalesce_endures limited within below admitted endures success
  | error =>
      obtain ⟨o, rfl, success⟩ := withOne_eq_pure.mp success
      exact error_endures limited success
  | string => exact unshifted (assert_endures limited endures success)
  | number => exact unshifted (assert_endures limited endures success)
  | boolean => exact unshifted (assert_endures limited endures success)
  | object => exact unshifted (assert_endures limited endures success)
  | array => exact unshifted (array_endures limited endures success)
  | parseColor =>
      obtain ⟨o, rfl, success⟩ := withOne_eq_pure.mp success
      obtain ⟨i, read, rfl⟩ := parseColor_eq_pure.mp success
      obtain ⟨i', read', _⟩ := readAt_same limited (endures o List.mem_cons_self) read 1
      have made : parseColor ctx' o = pure (ctx'.expr .color (.parseColor i')) :=
        parseColor_eq_pure.mpr ⟨i', read', rfl⟩
      exact ⟨_, made, .inl rfl⟩
  | not =>
      obtain ⟨o, rfl, success⟩ := withOne_eq_pure.mp success
      obtain ⟨i, read, rfl⟩ := not_eq_pure.mp success
      obtain ⟨i', read', _⟩ := readAt_same limited (endures o List.mem_cons_self) read 1
      have made : Reading.not ctx' o = pure (ctx'.expr .boolean (.not i')) :=
        not_eq_pure.mpr ⟨i', read', rfl⟩
      exact ⟨_, made, .inl rfl⟩
  | case => exact case_endures limited within below admitted endures success
  | select => exact select_endures limited within below admitted endures success
  | curve => exact curve_endures limited within below admitted endures success

end Operators

end Reading

open Reading Attempt

theorem Expr.readAny_endures {limit lower : Ty} {ctx ctx' : Context} {head : Json} {args : List Json}
    {e : Expr} (limited : ctx.Limited limit ctx') (within : lower ≤ limit) (below : lower ≤ e.type)
    (admitted : e.Admitted limit) (endures : ∀ o ∈ Expr.operands args, o.Endures)
    (success : Expr.readAny (.arr (head :: args)) ctx = pure e) :
    ∃ e', Expr.readAny (.arr (head :: args)) ctx' = pure e' ∧
      limit.Shifts ctx.expectation e.type e'.type := by
  obtain ⟨op, tag, counted, applied⟩ := application_eq_pure.mp success
  obtain ⟨e', applied', shifts⟩ := operator_endures limited within below admitted endures applied
  exact ⟨e', application_eq_pure.mpr ⟨op, tag, counted, applied'⟩, shifts⟩

theorem Expr.read_passed {data : Json} {ctx : Context} {e : Expr}
    (success : Expr.read data ctx = pure e) : ctx.expectation.accepts e.type = true := by
  unfold Context.expectation
  cases expected : ctx.expected with
  | none => exact Ty.unknown_accepts e.type
  | some type => exact (Expr.read_eq_pure.mp success).2 type expected

theorem Expr.read_passes {limit lower : Ty} {ctx ctx' : Context} {data : Json} {e : Expr}
    (limited : ctx.Limited limit ctx') (within : lower ≤ limit) (below : lower ≤ e.type)
    (endures : Expr.readAny data ctx = pure e → ∃ e', Expr.readAny data ctx' = pure e' ∧
      limit.Shifts ctx.expectation e.type e'.type)
    (success : Expr.read data ctx = pure e) :
    ∃ e', Expr.read data ctx' = pure e' ∧ limit.Shifts ctx.expectation e.type e'.type := by
  obtain ⟨e', read', shifts⟩ := endures (Expr.read_eq_pure.mp success).1
  have passes := shifts.accepts limited.expectation within below (Expr.read_passed success)
  refine ⟨e', Expr.read_eq_pure.mpr ⟨read', ?_⟩, shifts⟩
  intro type found
  rwa [show ctx'.expectation = type by rw [Context.expectation,found]; rfl] at passes

theorem Expr.read_endures (data : Json) : Operand.Endures ⟨data, Expr.read data⟩ := by
  induction data using Json.induction with
  | arr items ih =>
      intro limit lower ctx ctx' e limited within below admitted success
      cases items with
      | nil => exact absurd (Expr.read_eq_pure.mp success).1 ctx.fail_ne_pure
      | cons head args =>
          have endures : ∀ o ∈ Expr.operands args, o.Endures :=
            Expr.operands_each fun j member => ih j (List.mem_cons_of_mem _ member)
          exact Expr.read_passes limited within below
            (Expr.readAny_endures limited within below admitted endures) success
  | obj members _ =>
      intro limit lower ctx ctx' e _ _ _ _ success
      exact absurd (Expr.read_eq_pure.mp success).1 ctx.fail_ne_pure
  | _ =>
      intro limit lower ctx ctx' e limited within below admitted success
      refine Expr.read_passes limited within below ?_ success
      intro read
      obtain rfl := pure_eq_pure.mp read
      exact ⟨_, rfl, constant_endures limited admitted⟩

theorem Expr.operands_endure (args : List Json) : ∀ o ∈ Expr.operands args, o.Endures :=
  Expr.operands_each fun j _ => Expr.read_endures j

end MapStyle
