import MapStyle.Proofs.Reading.Success

namespace MapStyle

theorem pairs?_eq_some {α : Type} {xs : List α} {pairs : List (α × α)} :
    pairs? xs = some pairs ↔ xs = pairs.flatMap fun p => [p.1, p.2] := by
  fun_induction pairs? xs generalizing pairs with
  | case1 => cases pairs <;> simp
  | case2 a => cases pairs <;> simp
  | case3 a b rest ih =>
      cases pairs with
      | nil => simp
      | cons p ps =>
          obtain ⟨c, d⟩ := p
          simp [ih,and_assoc,and_left_comm]

theorem pairsAndLast?_eq_some {α : Type} {xs : List α} {pairs : List (α × α)} {last : α} :
    pairsAndLast? xs = some (pairs, last) ↔ xs = (pairs.flatMap fun p => [p.1, p.2]) ++ [last] := by
  fun_induction pairsAndLast? xs generalizing pairs with
  | case1 => simp
  | case2 a => cases pairs <;> simp
  | case3 a b rest ih =>
      cases pairs with
      | nil => simp
      | cons p ps =>
          obtain ⟨c, d⟩ := p
          simp [ih,and_assoc,and_left_comm]

theorem pairs_length {α : Type} (pairs : List (α × α)) :
    (pairs.flatMap fun p => [p.1, p.2]).length = 2 * pairs.length := by
  induction pairs with
  | nil => rfl
  | cons p rest ih =>
      rw [List.flatMap_cons,List.length_append,ih,List.length_cons]
      simp only [List.length_cons,List.length_nil]
      omega

theorem pairs_place {α : Type} {pairs : List (α × α)} {k : Nat} {x : α}
    (place : (pairs.flatMap fun p => [p.1, p.2])[k]? = some x) :
    ∃ j p, pairs[j]? = some p ∧ ((k = 2 * j ∧ x = p.1) ∨ (k = 2 * j + 1 ∧ x = p.2)) := by
  induction pairs generalizing k with
  | nil => cases place
  | cons p rest ih =>
      match k, place with
      | 0, place =>
          cases place
          exact ⟨0, p, rfl, .inl ⟨rfl, rfl⟩⟩
      | 1, place =>
          cases place
          exact ⟨0, p, rfl, .inr ⟨rfl, rfl⟩⟩
      | k + 2, place =>
          obtain ⟨j, q, there, parity⟩ := ih place
          refine ⟨j + 1, q, there, ?_⟩
          rcases parity with ⟨even, its⟩ | ⟨odd, its⟩
          · exact .inl ⟨by omega, its⟩
          · exact .inr ⟨by omega, its⟩

theorem pairsAndLast?_length {α : Type} {xs : List α} {pairs : List (α × α)} {last : α}
    (taken : pairsAndLast? xs = some (pairs, last)) : xs.length = 2 * pairs.length + 1 := by
  rw [pairsAndLast?_eq_some.mp taken,List.length_append,pairs_length]
  rfl

theorem pairs_or_last_place {α : Type} {xs : List α} {pairs : List (α × α)} {last x : α} {k : Nat}
    (taken : pairsAndLast? xs = some (pairs, last)) (place : xs[k]? = some x) :
    (∃ j p, pairs[j]? = some p ∧ ((k = 2 * j ∧ x = p.1) ∨ (k = 2 * j + 1 ∧ x = p.2))) ∨
      (k = 2 * pairs.length ∧ x = last) := by
  rw [pairsAndLast?_eq_some.mp taken,List.getElem?_append] at place
  split at place
  · exact .inl (pairs_place place)
  · rename_i after
    rw [pairs_length] at after
    rw [List.getElem?_singleton,pairs_length] at place
    split at place
    · cases place
      exact .inr ⟨by omega, rfl⟩
    · cases place

theorem pairs?_each {α : Type} {P : α → Prop} {xs : List α} {pairs : List (α × α)}
    (taken : pairs? xs = some pairs) (each : ∀ x ∈ xs, P x) : ∀ p ∈ pairs, P p.1 ∧ P p.2 := by
  rw [pairs?_eq_some.mp taken] at each
  intro p member
  constructor
  · exact each _ (List.mem_flatMap.mpr ⟨p, member, by simp⟩)
  · exact each _ (List.mem_flatMap.mpr ⟨p, member, by simp⟩)

theorem pairsAndLast?_each {α : Type} {P : α → Prop} {xs : List α} {pairs : List (α × α)} {last : α}
    (taken : pairsAndLast? xs = some (pairs, last)) (each : ∀ x ∈ xs, P x) :
    (∀ p ∈ pairs, P p.1 ∧ P p.2) ∧ P last := by
  rw [pairsAndLast?_eq_some.mp taken,List.forall_mem_append] at each
  exact ⟨pairs?_each (pairs?_eq_some.mpr rfl) each.1, each.2 last (List.mem_singleton_self _)⟩

def Along {α : Type} (P : Nat → α → Prop) (position : Nat) (xs : List α) : Prop :=
  ∀ p ∈ xs.zipIdx position, P p.2 p.1

namespace Along

variable {α : Type} {P : Nat → α → Prop} {position : Nat} {x : α} {xs ys : List α}

theorem cons_iff : Along P position (x :: xs) ↔ P position x ∧ Along P (position + 1) xs := by
  simp only [Along,List.zipIdx_cons,List.forall_mem_cons]

theorem append_iff :
    Along P position (xs ++ ys) ↔ Along P position xs ∧ Along P (position + xs.length) ys := by
  simp only [Along,List.zipIdx_append,List.mem_append,or_imp,forall_and]

theorem of_getElem? (each : ∀ i x, xs[i]? = some x → P (position + i) x) :
    Along P position xs := by
  intro p member
  obtain ⟨x, n⟩ := p
  rw [List.mem_zipIdx_iff_le_and_getElem?_sub] at member
  obtain ⟨after, place⟩ := member
  have holds := each (n - position) x place
  rwa [Nat.add_sub_cancel' after] at holds

theorem pairs_and_last {pairs : List (α × α)} {last : α}
    (taken : pairsAndLast? xs = some (pairs, last)) (each : Along P position xs) :
    Along P position (pairs.flatMap fun p => [p.1, p.2]) ∧ P (position + 2 * pairs.length) last := by
  rw [pairsAndLast?_eq_some.mp taken] at each
  obtain ⟨parts, final⟩ := append_iff.mp each
  rw [pairs_length] at final
  exact ⟨parts, (cons_iff.mp final).1⟩

end Along

namespace Reading

open Attempt

variable {ctx : Context}

theorem output_eq_pure {common final : Common} {position : Nat} {operand : Operand} {e : Expr} :
    output ctx common position operand = (final, pure e) ↔
      operand.readAt ctx position common.expectation = pure e ∧
        ∃ both, common.add e.type = .ok both ∧ final = some both := by
  unfold output
  constructor
  · intro success
    cases h : (operand.readAt ctx position common.expectation).value? with
    | none =>
        simp only [h] at success
        obtain ⟨rfl, read⟩ := Prod.mk.inj success
        rw [read] at h
        cases h
    | some x =>
        simp only [h] at success
        cases added : common.add x.type with
        | error types =>
            obtain ⟨known, found⟩ := types
            simp only [added] at success
            obtain ⟨_, _, failed⟩ := andThen_eq_pure.mp (Prod.mk.inj success).2
            exact absurd failed ctx.failAt_ne_pure
        | ok both =>
            simp only [added] at success
            obtain ⟨rfl, read⟩ := Prod.mk.inj success
            rw [read] at h
            cases h
            exact ⟨read, both, added, rfl⟩
  · intro given
    obtain ⟨read, both, added, rfl⟩ := given
    simp [read,added]

theorem Common.add_some_eq_ok {known type both : Ty} :
    Common.add (some known) type = .ok both ↔ known.meet? type = some both := by
  simp only [Common.add]
  cases known.meet? type with
  | none => exact ⟨nofun, nofun⟩
  | some met => exact ⟨fun same => by cases same; rfl, fun same => by cases same; rfl⟩

theorem alternatives_nil_eq_pure {common final : Common} {position : Nat} {es : List Expr} :
    alternatives ctx common position [] = (final, pure es) ↔ final = common ∧ es = [] := by
  rw [alternatives,Prod.mk.injEq,pure_eq_pure,eq_comm,eq_comm (a := [])]

theorem alternatives_cons_eq_pure {common final : Common} {position : Nat} {operand : Operand}
    {rest : List Operand} {es : List Expr} :
    alternatives ctx common position (operand :: rest) = (final, pure es) ↔
      ∃ e both others, operand.readAt ctx position common.expectation = pure e ∧
        common.add e.type = .ok both ∧
        alternatives ctx (some both) (position + 1) rest = (final, pure others) ∧
        es = e :: others := by
  rw [alternatives]
  constructor
  · intro success
    cases h : (operand.readAt ctx position common.expectation).value? with
    | none =>
        simp only [h] at success
        obtain ⟨_, _, read, _⟩ := cons_eq_pure.mp (Prod.mk.inj success).2
        rw [read] at h
        cases h
    | some x =>
        simp only [h] at success
        cases added : common.add x.type with
        | error types =>
            obtain ⟨known, found⟩ := types
            simp only [added] at success
            obtain ⟨_, _, failed⟩ := andThen_eq_pure.mp (Prod.mk.inj success).2
            exact absurd failed ctx.failAt_ne_pure
        | ok both =>
            simp only [added] at success
            obtain ⟨e, others, read, after, same⟩ := cons_eq_pure.mp (Prod.mk.inj success).2
            rw [read] at h
            cases h
            exact ⟨x, both, others, read, added, Prod.ext (Prod.mk.inj success).1 after, same⟩
  · intro given
    obtain ⟨e, both, others, read, added, after, rfl⟩ := given
    simp [read,added,after]

theorem branches_cons_eq_pure {common final : Common} {position : Nat}
    {condition result : Operand} {rest : List (Operand × Operand)} {bs : List (Branch Expr)} :
    branches ctx common position ((condition, result) :: rest) = (final, pure bs) ↔
      ∃ c r both others, condition.readAt ctx position (some .boolean) = pure c ∧
        output ctx common (position + 1) result = (both, pure r) ∧
        branches ctx both (position + 2) rest = (final, pure others) ∧
        bs = ⟨c, r⟩ :: others := by
  rw [branches]
  constructor
  · intro success
    obtain ⟨final', parts⟩ := Prod.mk.inj success
    obtain ⟨b, others, branch, after, same⟩ := cons_eq_pure.mp parts
    obtain ⟨p, both, made⟩ := andThen_eq_pure.mp branch
    obtain ⟨read, read'⟩ := both_eq_pure.mp both
    rw [pure_eq_pure] at made
    subst made
    exact ⟨p.1, p.2, _, others, read, Prod.ext rfl read', Prod.ext final' after, same⟩
  · intro given
    obtain ⟨c, r, both, others, read, read', after, rfl⟩ := given
    simp only [read,read',after]
    rfl

theorem arms_cons_eq_pure {state final : LabelState} {common final' : Common} {position : Nat}
    {label result : Operand} {rest : List (Operand × Operand)} {as : List (Arm Expr)} :
    arms ctx state common position ((label, result) :: rest) = (final, final', pure as) ↔
      ∃ ls r middle both others, armLabels ctx position state label.raw = (middle, pure ls) ∧
        output ctx common (position + 1) result = (both, pure r) ∧
        arms ctx middle both (position + 2) rest = (final, final', pure others) ∧
        as = ⟨ls, r⟩ :: others := by
  rw [arms]
  constructor
  · intro success
    obtain ⟨seen, success⟩ := Prod.mk.inj success
    obtain ⟨types, parts⟩ := Prod.mk.inj success
    obtain ⟨a, others, arm, after, same⟩ := cons_eq_pure.mp parts
    obtain ⟨p, both, made⟩ := andThen_eq_pure.mp arm
    obtain ⟨read, read'⟩ := both_eq_pure.mp both
    rw [pure_eq_pure] at made
    subst made
    exact ⟨p.1, p.2, _, _, others, Prod.ext rfl read, Prod.ext rfl read',
      Prod.ext seen (Prod.ext types after), same⟩
  · intro given
    obtain ⟨ls, r, middle, both, others, read, read', after, rfl⟩ := given
    simp only [read,read',after]
    rfl

theorem stops_cons_eq_pure {common final : Common} {last : Option Float} {position : Nat}
    {number result : Operand} {rest : List (Operand × Operand)} {ss : List (Stop Expr)} :
    stops ctx common last position ((number, result) :: rest) = (final, pure ss) ↔
      ∃ x r both others, number.raw.float? = some x ∧ (last.any fun y => x ≤ y) = false ∧
        output ctx common (position + 1) result = (both, pure r) ∧
        stops ctx both (some x) (position + 2) rest = (final, pure others) ∧
        ss = ⟨x, r⟩ :: others := by
  rw [stops]
  constructor
  · intro success
    cases numeral : number.raw.float? with
    | none =>
        simp only [numeral] at success
        exact absurd (Prod.mk.inj success).2 ctx.failAt_ne_pure
    | some x =>
        simp only [numeral] at success
        cases order : last.any fun y => x ≤ y with
        | true =>
            rw [order,if_pos rfl] at success
            exact absurd (Prod.mk.inj success).2 ctx.failAt_ne_pure
        | false =>
            rw [order,if_neg Bool.false_ne_true] at success
            obtain ⟨final', parts⟩ := Prod.mk.inj success
            obtain ⟨stop, others, made, after, same⟩ := cons_eq_pure.mp parts
            obtain ⟨r, read, made⟩ := andThen_eq_pure.mp made
            rw [pure_eq_pure] at made
            subst made
            rw [read] at final' after
            exact ⟨x, r, _, others, rfl, order, Prod.ext rfl read, Prod.ext final' after, same⟩
  · intro given
    obtain ⟨x, r, both, others, numeral, order, read, after, rfl⟩ := given
    simp [numeral,order,read,after]

theorem labels_cons_eq_pure {position : Nat} {state final : LabelState} {label : Json}
    {rest : List Json} {vs : List Value} :
    labels ctx position state (label :: rest) = (final, pure vs) ↔
      ∃ type others, labelType? label = some type ∧ state.type?.getD type = type ∧
        state.seen.contains (Value.ofJson label) = false ∧
        labels ctx position ⟨some type, Value.ofJson label :: state.seen⟩ rest =
          (final, pure others) ∧
        vs = Value.ofJson label :: others := by
  rw [labels]
  constructor
  · intro success
    cases kind : labelType? label with
    | none =>
        simp only [kind] at success
        exact absurd (Prod.mk.inj success).2 ctx.failAt_ne_pure
    | some type =>
        simp only [kind] at success
        by_cases shared : state.type?.getD type = type
        · rw [if_pos shared] at success
          cases repeated : state.seen.contains (Value.ofJson label) with
          | true =>
              rw [repeated,if_pos rfl] at success
              exact absurd (Prod.mk.inj success).2 ctx.failAt_ne_pure
          | false =>
              rw [repeated,if_neg Bool.false_ne_true] at success
              obtain ⟨final', parts⟩ := Prod.mk.inj success
              obtain ⟨others, after, made⟩ := andThen_eq_pure.mp parts
              exact ⟨type, others, rfl, shared, rfl, Prod.ext final' after,
                (pure_eq_pure.mp made).symm⟩
        · rw [if_neg shared] at success
          exact absurd (Prod.mk.inj success).2 ctx.failAt_ne_pure
  · intro given
    obtain ⟨type, others, kind, shared, fresh, after, rfl⟩ := given
    simp only [kind,shared,fresh,Bool.false_eq_true,if_false,if_true]
    rw [after]
    rfl

theorem armLabels_eq_pure {position : Nat} {state final : LabelState} {data : Json}
    {vs : List Value} (success : armLabels ctx position state data = (final, pure vs)) :
    ∃ j js, labels ctx position state (j :: js) = (final, pure vs) := by
  unfold armLabels at success
  split at success
  · exact absurd (Prod.mk.inj success).2 ctx.failAt_ne_pure
  · rename_i several notEmpty
    cases several with
    | nil => exact absurd rfl notEmpty
    | cons j js => exact ⟨j, js, success⟩
  · exact ⟨data, [], success⟩

theorem bindingName_eq_pure {position : Nat} {data : Json} {name : String} :
    bindingName ctx position data = pure name ↔ data = .str name ∧ isName name = true := by
  constructor
  · intro success
    unfold bindingName at success
    split at success
    · split at success
      · rename_i valid
        obtain rfl := pure_eq_pure.mp success
        exact ⟨rfl, valid⟩
      · exact absurd success ctx.failAt_ne_pure
    · exact absurd success ctx.failAt_ne_pure
  · intro given
    obtain ⟨rfl, valid⟩ := given
    simp only [bindingName,valid,if_true]

theorem bindingsThen_cons_eq_pure {position : Nat} {body name value : Operand}
    {rest : List (Operand × Operand)} {bs : List (Binding Expr)} {e : Expr} :
    bindingsThen ctx position body ((name, value) :: rest) = pure (bs, e) ↔
      ∃ n v others, name.raw = .str n ∧ isName n = true ∧
        value.readFreeAt ctx (position + 1) = pure v ∧
        bindingsThen (ctx.bind n v) (position + 2) body rest = pure (others, e) ∧
        bs = ⟨n, v⟩ :: others := by
  rw [bindingsThen]
  constructor
  · intro success
    obtain ⟨⟨⟨n, v⟩, others, e'⟩, parts, made⟩ := andThen_eq_pure.mp success
    obtain ⟨heads, after⟩ := both_eq_pure.mp parts
    obtain ⟨named, read⟩ := both_eq_pure.mp heads
    rw [named,read] at after
    obtain ⟨data, valid⟩ := bindingName_eq_pure.mp named
    rw [pure_eq_pure] at made
    obtain ⟨rfl, rfl⟩ := Prod.mk.inj made
    exact ⟨n, v, others, data, valid, read, after, rfl⟩
  · intro given
    obtain ⟨n, v, others, data, valid, read, after, rfl⟩ := given
    have named : bindingName ctx position name.raw = pure n := bindingName_eq_pure.mpr ⟨data, valid⟩
    have inner : bindName ctx position (pure n) (pure v) = ctx.bind n v := rfl
    simp only [named,read,inner,after]
    rfl

theorem bindingsThen_nil_eq_pure {position : Nat} {body : Operand} {bs : List (Binding Expr)}
    {e : Expr} :
    bindingsThen ctx position body [] = pure (bs, e) ↔
      bs = [] ∧ body.readAt ctx position none = pure e := by
  rw [bindingsThen,bind_eq_pure]
  constructor
  · intro given
    obtain ⟨x, read, made⟩ := given
    rw [pure_eq_pure] at made
    obtain ⟨rfl, rfl⟩ := Prod.mk.inj made
    exact ⟨rfl, read⟩
  · intro given
    obtain ⟨rfl, read⟩ := given
    exact ⟨e, read, rfl⟩

theorem alternatives_length {common final : Common} {position : Nat} {operands : List Operand}
    {es : List Expr} (success : alternatives ctx common position operands = (final, pure es)) :
    es.length = operands.length := by
  induction operands generalizing common position es with
  | nil =>
      obtain rfl := pure_eq_pure.mp (Prod.mk.inj success).2
      rfl
  | cons o rest ih =>
      obtain ⟨_, _, others, _, _, after, rfl⟩ := alternatives_cons_eq_pure.mp success
      rw [List.length_cons,List.length_cons,ih after]

theorem branches_length {common final : Common} {position : Nat}
    {pairs : List (Operand × Operand)} {bs : List (Branch Expr)}
    (success : branches ctx common position pairs = (final, pure bs)) :
    bs.length = pairs.length := by
  induction pairs generalizing common position bs with
  | nil =>
      obtain rfl := pure_eq_pure.mp (Prod.mk.inj success).2
      rfl
  | cons p rest ih =>
      obtain ⟨_, _, _, others, _, _, after, rfl⟩ := branches_cons_eq_pure.mp success
      rw [List.length_cons,List.length_cons,ih after]

theorem arms_length {state final : LabelState} {common final' : Common} {position : Nat}
    {pairs : List (Operand × Operand)} {as : List (Arm Expr)}
    (success : arms ctx state common position pairs = (final, final', pure as)) :
    as.length = pairs.length := by
  induction pairs generalizing state common position as with
  | nil =>
      obtain rfl := pure_eq_pure.mp (Prod.mk.inj (Prod.mk.inj success).2).2
      rfl
  | cons p rest ih =>
      obtain ⟨_, _, _, _, others, _, _, after, rfl⟩ := arms_cons_eq_pure.mp success
      rw [List.length_cons,List.length_cons,ih after]

theorem stops_length {common final : Common} {last : Option Float} {position : Nat}
    {pairs : List (Operand × Operand)} {ss : List (Stop Expr)}
    (success : stops ctx common last position pairs = (final, pure ss)) :
    ss.length = pairs.length := by
  induction pairs generalizing common last position ss with
  | nil =>
      obtain rfl := pure_eq_pure.mp (Prod.mk.inj success).2
      rfl
  | cons p rest ih =>
      obtain ⟨_, _, _, others, _, _, _, after, rfl⟩ := stops_cons_eq_pure.mp success
      rw [List.length_cons,List.length_cons,ih after]

theorem bindingsThen_length {position : Nat} {body : Operand} {pairs : List (Operand × Operand)}
    {bs : List (Binding Expr)} {e : Expr}
    (success : bindingsThen ctx position body pairs = pure (bs, e)) : bs.length = pairs.length := by
  induction pairs generalizing ctx position bs with
  | nil =>
      obtain ⟨rfl, _⟩ := bindingsThen_nil_eq_pure.mp success
      rfl
  | cons p rest ih =>
      obtain ⟨_, _, others, _, _, _, after, rfl⟩ := bindingsThen_cons_eq_pure.mp success
      rw [List.length_cons,List.length_cons,ih after]

end Reading

end MapStyle
