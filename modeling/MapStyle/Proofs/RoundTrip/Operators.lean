import MapStyle.Proofs.RoundTrip.Readers

namespace MapStyle.Reading

open List (Forall₂)
open Attempt

def Returned (op : Operator) (ctx' : Context) (e : Expr) : Prop :=
  ∃ args e', e.written = .arr (.str op.tag :: args) ∧ op.arity.fault? (args.length + 1) = none ∧
    operator op ctx' (Expr.operands args) = pure e' ∧ e.Alike e'

variable {ctx ctx' : Context} (like : ctx.Like ctx') {e : Expr} {operands : List Operand}
  (genuine : ∀ o ∈ operands, o.Genuine) (returns : ∀ c ∈ e.node.children, c.Returns)
include like genuine returns

theorem get_returns (success : withOne ctx operands (get ctx) = pure e) :
    Returned .get ctx' e := by
  obtain ⟨o, rfl, success⟩ := withOne_eq_pure.mp success
  obtain ⟨n, read, rfl⟩ := get_eq_pure.mp success
  obtain ⟨n', read', alike⟩ := readAt_returns like (genuine o List.mem_cons_self)
    (returns n List.mem_cons_self) read 1
  exact ⟨[n.written], _, Expr.written_eq _, rfl, get_eq_pure.mpr ⟨n', read', rfl⟩,
    Expr.alike_of_node rfl (.get _ _ alike)⟩

theorem has_returns (success : operator .has ctx operands = pure e) : Returned .has ctx' e := by
  rcases operator_has_eq_pure.mp success with ⟨key, rfl, success⟩ | ⟨key, object, rfl, success⟩
  · obtain ⟨k, read, rfl⟩ := has_eq_pure.mp success
    obtain ⟨k', read', alike⟩ := readAt_returns like (genuine key List.mem_cons_self)
      (returns k List.mem_cons_self) read 1
    exact ⟨[k.written], _, Expr.written_eq _, rfl, has_eq_pure.mpr ⟨k', read', rfl⟩,
      Expr.alike_of_node rfl (.has _ _ alike)⟩
  · obtain ⟨k, o, read, inside, rfl⟩ := hasIn_eq_pure.mp success
    obtain ⟨k', read', alike⟩ := readAt_returns like (genuine key (by simp))
      (returns k (by simp [Context.expr,Node.children])) read 1
    obtain ⟨o', inside', alike'⟩ := readAt_returns like (genuine object (by simp))
      (returns o (by simp [Context.expr,Node.children])) inside 2
    exact ⟨[k.written, o.written], _, Expr.written_eq _, rfl,
      hasIn_eq_pure.mpr ⟨k', o', read', inside', rfl⟩,
      Expr.alike_of_node rfl (.hasIn _ _ _ _ alike alike')⟩

omit genuine returns in
theorem var_returns (success : withOne ctx operands (fun o => var ctx o.raw) = pure e) :
    Returned .var ctx' e := by
  obtain ⟨o, rfl, success⟩ := withOne_eq_pure.mp success
  obtain ⟨name, bound, _, found, rfl⟩ := var_eq_pure.mp success
  obtain ⟨bound', found', same⟩ := like.lookup? found
  exact ⟨[.str name], _, Expr.written_eq _, rfl, var_eq_pure.mpr ⟨name, bound', rfl, found', rfl⟩,
    Expr.alike_of_node same (.var name)⟩

theorem letIn_returns (counted : Operator.letIn.arity.fault? (operands.length + 1) = none)
    (success : letIn ctx operands = pure e) : Returned .letIn ctx' e := by
  obtain ⟨pairs, last, bs, b, taken, read, rfl⟩ := letIn_eq_pure.mp success
  rw [pairsAndLast?_eq_some] at taken
  subst taken
  have length := bindingsThen_length read
  have belongs : ∀ c ∈ bs, c.value.Returns := fun c member =>
    returns _ (List.mem_append_left _ (List.mem_map_of_mem member))
  obtain ⟨bs', b', read', alikes, alike⟩ := bindings_return like
    (fun p member => genuine p.2 (by simp; exact .inl ⟨_, _, member, .inr rfl⟩))
    (genuine last (by simp)) belongs (returns b (by simp [Context.expr,Node.children])) read 1
  refine ⟨(bs.flatMap fun c => [.str c.name, c.value.written]) ++ [b.written],
    ctx'.expr b'.type (.letIn bs' b'), ?_, ?_, ?_,
    Expr.alike_of_node alike.type (.letIn _ _ _ _ alikes alike)⟩
  · rw [Expr.written_eq]
    simp only [Context.expr,Node.map,Node.written,List.flatMap_map,List.cons_append]
    rfl
  · rw [← counted]
    simp [length]
  · refine letIn_eq_pure.mpr ⟨_, _, bs', b', pairsAndLast?_eq_some.mpr ?_, read', rfl⟩
    simp [Expr.operands_eq,List.map_flatMap,List.flatMap_map]

theorem coalesce_returns (counted : Operator.coalesce.arity.fault? (operands.length + 1) = none)
    (success : coalesce ctx operands = pure e) : Returned .coalesce ctx' e := by
  obtain ⟨common, args, read, rfl⟩ := coalesce_eq_pure.mp success
  have length := alternatives_length read
  obtain ⟨args', read', alikes⟩ := alternatives_return like genuine returns read 1
  refine ⟨args.map Expr.written, ctx'.expr (common.getD .unknown) (.coalesce args'),
    Expr.written_eq _, ?_, ?_, Expr.alike_of_node rfl (.coalesce _ _ alikes)⟩
  · rw [List.length_map,length,counted]
  · refine coalesce_eq_pure.mpr ⟨common, args', ?_, rfl⟩
    rw [Expr.operands_eq,List.map_map]
    exact read'

omit like genuine returns in
theorem error_returns (like : ctx.Like ctx')
    (success : withOne ctx operands (fun o => Reading.error ctx o.raw) = pure e) :
    Returned .error ctx' e := by
  obtain ⟨o, rfl, success⟩ := withOne_eq_pure.mp success
  obtain ⟨message, _, rfl⟩ := error_eq_pure.mp success
  refine ⟨[.str message], _, Expr.written_eq _, rfl, error_eq_pure.mpr ⟨message, rfl, rfl⟩,
    Expr.alike_of_node ?_ (.throw message)⟩
  show ctx'.expected.getD .unknown = ctx.expected.getD .unknown
  rw [like.expected]

theorem assert_returns {op : Operator} {type : Ty} (named : op.tag = type.text)
    (asserts : ∀ ctx operands, operator op ctx operands = assert type ctx operands)
    (counted : op.arity.fault? (operands.length + 1) = none)
    (success : assert type ctx operands = pure e) : Returned op ctx' e := by
  obtain ⟨args, read, rfl⟩ := assert_eq_pure.mp success
  have length : args.length = operands.length := by
    simpa using (congrArg List.length read).symm
  obtain ⟨args', read', alikes⟩ := all_returns like genuine returns read
  refine ⟨args.map Expr.written, ctx'.expr type (.assert type args'), ?_, ?_, ?_,
    Expr.alike_of_node rfl (.assert _ _ _ alikes)⟩
  · rw [Expr.written_eq,named]
    rfl
  · rw [List.length_map,length,counted]
  · rw [asserts]
    refine assert_eq_pure.mpr ⟨args', ?_, rfl⟩
    rw [Expr.operands_eq,List.map_map]
    exact read'

theorem parseColor_returns (success : withOne ctx operands (parseColor ctx) = pure e) :
    Returned .parseColor ctx' e := by
  obtain ⟨o, rfl, success⟩ := withOne_eq_pure.mp success
  obtain ⟨i, read, rfl⟩ := parseColor_eq_pure.mp success
  obtain ⟨i', read', alike⟩ := readAt_returns like (genuine o List.mem_cons_self)
    (returns i List.mem_cons_self) read 1
  exact ⟨[i.written], _, Expr.written_eq _, rfl, parseColor_eq_pure.mpr ⟨i', read', rfl⟩,
    Expr.alike_of_node rfl (.parseColor _ _ alike)⟩

theorem not_returns (success : withOne ctx operands (Reading.not ctx) = pure e) :
    Returned .not ctx' e := by
  obtain ⟨o, rfl, success⟩ := withOne_eq_pure.mp success
  obtain ⟨i, read, rfl⟩ := not_eq_pure.mp success
  obtain ⟨i', read', alike⟩ := readAt_returns like (genuine o List.mem_cons_self)
    (returns i List.mem_cons_self) read 1
  exact ⟨[i.written], _, Expr.written_eq _, rfl, not_eq_pure.mpr ⟨i', read', rfl⟩,
    Expr.alike_of_node rfl (.not _ _ alike)⟩

theorem case_returns (counted : Operator.case.arity.fault? (operands.length + 1) = none)
    (success : case ctx operands = pure e) : Returned .case ctx' e := by
  obtain ⟨pairs, last, common, bs, final, o, taken, read, inside, rfl⟩ := case_eq_pure.mp success
  rw [pairsAndLast?_eq_some] at taken
  subst taken
  have length := branches_length read
  have pair : ∀ p ∈ pairs, p.1.Genuine ∧ p.2.Genuine := fun p member =>
    ⟨genuine _ (by simp; exact .inl ⟨_, _, member, .inl rfl⟩),
      genuine _ (by simp; exact .inl ⟨_, _, member, .inr rfl⟩)⟩
  have belongs : ∀ b ∈ bs, b.condition.Returns ∧ b.output.Returns := fun b member =>
    ⟨returns _ (List.mem_append_left _ (List.mem_flatMap.mpr ⟨b, member, by simp⟩)),
      returns _ (List.mem_append_left _ (List.mem_flatMap.mpr ⟨b, member, by simp⟩))⟩
  obtain ⟨bs', read', alikes⟩ := branches_return like pair belongs read 1
  let args := (bs.flatMap fun b => [b.condition.written, b.output.written]) ++ [o.written]
  obtain ⟨o', inside', alike⟩ := output_returns like (genuine last (by simp))
    (returns o (by simp [Context.expr,Node.children])) inside (Expr.operands args).length
  refine ⟨args, ctx'.expr (final.getD .unknown) (.case bs' o'), ?_, ?_, ?_,
    Expr.alike_of_node rfl (.case _ _ _ _ alikes alike)⟩
  · rw [Expr.written_eq]
    simp only [Context.expr,Node.map,Node.written,List.flatMap_map,List.cons_append]
    rfl
  · rw [← counted]
    simp [args,length]
  · refine case_eq_pure.mpr ⟨_, _, common, bs', final, o', pairsAndLast?_eq_some.mpr ?_, read',
      inside', rfl⟩
    simp [args,Expr.operands_eq,List.map_flatMap,List.flatMap_map]

theorem select_returns (counted : Operator.select.arity.fault? (operands.length + 1) = none)
    (success : select ctx operands = pure e) : Returned .select ctx' e := by
  obtain ⟨input, operands, rfl⟩ := select_operands success
  obtain ⟨pairs, last, state, common, as, final, o, i, taken, read, inside, first, rfl⟩ :=
    select_eq_pure.mp success
  rw [pairsAndLast?_eq_some] at taken
  subst taken
  have length := arms_length read
  have belongs : ∀ a ∈ as, a.output.Returns := fun a member =>
    returns _ (by simp [Context.expr,Node.children]; exact .inr (.inl ⟨a, member, rfl⟩))
  obtain ⟨state', as', read', states, alikes⟩ := arms_return like ⟨rfl, .nil⟩
    (fun p member => genuine p.2 (by simp; exact .inr (.inl ⟨_, _, member, .inr rfl⟩)))
    belongs read 2
  let args := (as.flatMap fun a =>
    [Arm.writtenLabels ⟨a.labels, a.output.written⟩, a.output.written]) ++ [o.written]
  obtain ⟨o', inside', alike⟩ := output_returns like (genuine last (by simp))
    (returns o (by simp [Context.expr,Node.children])) inside ((Expr.operands args).length + 1)
  obtain ⟨i', first', alike'⟩ := readInput_returns like (genuine input List.mem_cons_self)
    (returns i (by simp [Context.expr,Node.children])) first
  refine ⟨i.written :: args, ctx'.expr (final.getD .unknown) (.select i' as' o'), ?_, ?_, ?_,
    Expr.alike_of_node rfl (.select _ _ _ _ _ _ alike' alikes alike)⟩
  · rw [Expr.written_eq]
    simp only [Context.expr,Node.map,Node.written,List.flatMap_map,List.cons_append]
    rfl
  · rw [← counted]
    simp [args,length]
  · refine select_eq_pure.mpr ⟨_, _, state', common, as', final, o', i',
      pairsAndLast?_eq_some.mpr ?_, read', inside', ?_, rfl⟩
    · simp [args,Expr.operands_eq,List.map_flatMap,List.flatMap_map]
    · rw [states.type]
      exact first'

omit like genuine returns in
theorem interpolation_returns {data : Json} {i : Interpolation}
    (success : interpolation ctx data = pure i) :
    ∃ i', interpolation ctx' i.toJson = pure i' ∧ i.Alike i' := by
  obtain ⟨found, valid⟩ := interpolation_eq_pure.mp success
  cases i with
  | step => exact ⟨.step, rfl, rfl, rfl, rfl⟩
  | linear => exact ⟨.linear, rfl, rfl, rfl, rfl⟩
  | exponential base =>
      obtain ⟨finite, positive⟩ := valid base rfl
      have numeral : ∃ j : Json, j.float? = some base := by
        unfold Interpolation.ofJson? at found
        split at found
        · cases found
        · cases found
        · rename_i j
          cases h : j.float? with
          | none => rw [h] at found; cases found
          | some x =>
              rw [h] at found
              cases found
              exact ⟨j, h⟩
        · cases found
      obtain ⟨j, numeral⟩ := numeral
      obtain ⟨base', again, same, stable⟩ := Json.ofFloat_of_float? numeral
      refine ⟨.exponential base', interpolation_eq_pure.mpr ⟨?_, ?_⟩, same, ?_, ?_⟩
      · show ((Json.ofFloat base).float?).map Interpolation.exponential = _
        rw [again]
        rfl
      · intro b equal
        cases equal
        rw [Double.isFinite_congr same]
        exact ⟨finite, (Double.lt_congr rfl same).mpr positive⟩
      · show Json.arr [.str "exponential", .ofFloat base'] = .arr [.str "exponential", .ofFloat base]
        rw [stable]
      · exact congrArg _ (Double.again_eq again)

theorem curve_returns (counted : Operator.curve.arity.fault? (operands.length + 1) = none)
    (success : curve ctx operands = pure e) : Returned .curve ctx' e := by
  obtain ⟨kind, input, operands, rfl⟩ := curve_operands success
  obtain ⟨pairs, i, x, common, ss, taken, known, read, inside, blends, rfl⟩ :=
    curve_eq_pure.mp success
  rw [pairs?_eq_some] at taken
  subst taken
  have length := stops_length inside
  have belongs : ∀ s ∈ ss, s.output.Returns := fun s member =>
    returns _ (List.mem_cons_of_mem _ (List.mem_map_of_mem member))
  obtain ⟨i', known', alike⟩ : ∃ i', interpolation ctx' i.toJson = pure i' ∧ i.Alike i' :=
    interpolation_returns known
  obtain ⟨x', read', alike'⟩ := readAt_returns like (genuine input (by simp))
    (returns x List.mem_cons_self) read 2
  have lasts : ∀ y' : Float, none = some y' → ∃ y : Float, none = some y ∧ (y' == y) = true :=
    fun _ absent => by cases absent
  obtain ⟨ss', inside', alikes⟩ := stops_return like
    (fun p member => genuine p.2 (by simp; exact .inr (.inr ⟨_, _, member, .inr rfl⟩)))
    belongs lasts inside 3
  refine ⟨i.toJson :: x.written :: ss.flatMap fun s => [.ofFloat s.input, s.output.written],
    ctx'.expr (common.getD .unknown) (.curve i' x' ss'), ?_, ?_, ?_,
    Expr.alike_of_node rfl (.curve _ _ _ _ _ _ alike alike' alikes)⟩
  · rw [Expr.written_eq]
    simp only [Context.expr,Node.map,Node.written,List.flatMap_map]
    rfl
  · rw [← counted]
    simp [length]
  · rw [← alike.isStep] at blends
    refine curve_eq_pure.mpr ⟨_, i', x', common, ss', pairs?_eq_some.mpr ?_, known', read',
      inside', blends, rfl⟩
    simp [Expr.operands_eq,List.map_flatMap,List.flatMap_map]

omit like genuine returns in
theorem itemType?_text {data : Json} {type : Ty} (known : itemType? data = some type) :
    itemType? (.str type.text) = some type := by
  unfold itemType? at known
  split at known <;> cases known <;> rfl

omit like genuine returns in
theorem written_array (ctx : Context) (item : Ty) (n : Nat) (i : Expr) :
    (ctx.expr (.array item (some n)) (.assertArray item (some n) i)).written =
      .arr [.str "array", .str item.text, .ofNat n, i.written] := by
  rw [Expr.written_eq]
  cases item <;> rfl

omit like genuine returns in
theorem array_of_length {item counter input : Json} {type : Ty} {n : Nat}
    (known : itemType? item = some type) (counted : counter.nat? = some (n + 1))
    (read : (Operand.of input).readFreeAt ctx 3 = pure e) :
    operator .array ctx (Expr.operands [item, counter, input]) =
      pure (ctx.expr (.array type (some (n + 1))) (.assertArray type (some (n + 1)) e)) :=
  array_eq_pure.mpr ⟨_, _, _, _, e, .length (.of item) (.of counter) (.of input) _ n known counted,
    read, rfl⟩

-- An item type that is any type need not be written when there is no length.
theorem array_returns (success : array ctx operands = pure e) : Returned .array ctx' e := by
  obtain ⟨item, length, position, input, i, form, read, rfl⟩ := array_eq_pure.mp success
  have member : input ∈ operands := by cases form <;> simp
  have back := readFreeAt_returns like (genuine input member) (returns i List.mem_cons_self) read
  cases form with
  | input =>
      obtain ⟨i', read', alike⟩ := back 1
      exact ⟨[i.written], _, Expr.written_eq _, rfl,
        array_eq_pure.mpr ⟨_, _, _, _, i', .input _, read', rfl⟩,
        Expr.alike_of_node rfl (.assertArray _ _ _ _ alike)⟩
  | item _ _ _ known =>
      have known' := itemType?_text known
      by_cases any : item = .unknown
      · subst any
        obtain ⟨i', read', alike⟩ := back 1
        exact ⟨[i.written], _, Expr.written_eq _, rfl,
          array_eq_pure.mpr ⟨_, _, _, _, i', .input _, read', rfl⟩,
          Expr.alike_of_node rfl (.assertArray _ _ _ _ alike)⟩
      · obtain ⟨i', read', alike⟩ := back 2
        refine ⟨[.str item.text, i.written], _, ?_, rfl,
          array_eq_pure.mpr ⟨_, _, _, _, i', .item (.of (.str item.text)) _ _ known', read', rfl⟩,
          Expr.alike_of_node rfl (.assertArray _ _ _ _ alike)⟩
        rw [Expr.written_eq]
        cases item <;> first | rfl | exact absurd rfl any
  | length _ number _ _ n known counted =>
      have known' := itemType?_text known
      have counted' := Json.nat?_ofNat counted
      obtain ⟨i', read', alike⟩ := back 3
      exact ⟨[.str item.text, .ofNat (n + 1), i.written], _, written_array _ _ _ _, rfl,
        array_of_length known' counted' read', Expr.alike_of_node rfl (.assertArray _ _ _ _ alike)⟩

end MapStyle.Reading
