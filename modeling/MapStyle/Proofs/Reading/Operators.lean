import MapStyle.Proofs.Reading.Parts

namespace MapStyle

theorem Operator.ofTag?_eq_some {tag : String} {op : Operator} :
    Operator.ofTag? tag = some op ↔ tag = op.tag := by
  constructor
  · intro found
    have named := List.find?_some found
    exact (of_decide_eq_true named).symm
  · intro same
    subst same
    exact Operator.ofTag?_tag op

theorem Arity.fault?_exactly {count found : Nat} :
    (Arity.exactly count).fault? (found + 1) = none ↔ found = count := by
  simp only [fault?,Nat.add_sub_cancel]
  split
  · exact iff_of_true rfl ‹_›
  · exact iff_of_false nofun ‹_›

theorem Arity.fault?_between {least found : Nat} {most : Option Nat} :
    (Arity.between least most).fault? (found + 1) = none ↔
      least ≤ found ∧ ∀ n, most = some n → found ≤ n := by
  simp only [fault?,Nat.add_sub_cancel]
  split
  · simp; omega
  · cases most with
    | none => simp; omega
    | some n => simp; omega

namespace Reading

open Attempt

variable {ctx : Context} {operands : List Operand} {e : Expr}

theorem withOne_eq_pure {read : Operand → Attempt Expr} :
    withOne ctx operands read = pure e ↔ ∃ o, operands = [o] ∧ read o = pure e := by
  unfold withOne
  split
  · simp
  · rename_i notOne
    constructor
    · intro success
      exact absurd success ctx.fail_ne_pure
    · intro given
      obtain ⟨o, one, _⟩ := given
      exact absurd one (notOne o)

theorem get_eq_pure {name : Operand} :
    get ctx name = pure e ↔
      ∃ n, name.readAt ctx 1 (some .string) = pure n ∧ ctx.expr .unknown (.get n) = e := by
  simp [get]

theorem has_eq_pure {key : Operand} :
    has ctx key = pure e ↔
      ∃ k, key.readAt ctx 1 (some .string) = pure k ∧ ctx.expr .boolean (.has k) = e := by
  simp [has]

theorem hasIn_eq_pure {key object : Operand} :
    hasIn ctx key object = pure e ↔
      ∃ k o, key.readAt ctx 1 (some .string) = pure k ∧
        object.readAt ctx 2 (some .object) = pure o ∧ ctx.expr .boolean (.hasIn k o) = e := by
  simp [hasIn,and_assoc]

theorem operator_has_eq_pure :
    operator .has ctx operands = pure e ↔
      (∃ key, operands = [key] ∧ has ctx key = pure e) ∨
        ∃ key object, operands = [key, object] ∧ hasIn ctx key object = pure e := by
  constructor
  · intro success
    cases operands with
    | nil => exact absurd success ctx.fail_ne_pure
    | cons key rest =>
        cases rest with
        | nil => exact .inl ⟨key, rfl, success⟩
        | cons object rest =>
            cases rest with
            | nil => exact .inr ⟨key, object, rfl, success⟩
            | cons _ _ => exact absurd success ctx.fail_ne_pure
  · intro given
    rcases given with ⟨key, rfl, success⟩ | ⟨key, object, rfl, success⟩
    · exact success
    · exact success

theorem var_eq_pure {data : Json} :
    var ctx data = pure e ↔
      ∃ name bound, data = .str name ∧ ctx.lookup? name = some bound ∧
        ctx.expr bound.type (.var name) = e := by
  constructor
  · intro success
    unfold var at success
    split at success
    · rename_i name
      split at success
      · rename_i bound found
        exact ⟨name, bound, rfl, found, pure_eq_pure.mp success⟩
      · exact absurd success ctx.failAt_ne_pure
    · exact absurd success ctx.failAt_ne_pure
  · intro given
    obtain ⟨name, bound, rfl, found, rfl⟩ := given
    simp only [var,found]

theorem letIn_eq_pure :
    letIn ctx operands = pure e ↔
      ∃ pairs last bs b, pairsAndLast? operands = some (pairs, last) ∧
        bindingsThen ctx 1 last pairs = pure (bs, b) ∧ ctx.expr b.type (.letIn bs b) = e := by
  unfold letIn
  cases split : pairsAndLast? operands with
  | none => simp
  | some parts =>
      obtain ⟨pairs, last⟩ := parts
      simp only [bind_eq_pure,pure_eq_pure,Prod.exists,Option.some.injEq,Prod.mk.injEq]
      constructor
      · intro given
        obtain ⟨bs, b, read, made⟩ := given
        exact ⟨pairs, last, bs, b, ⟨rfl, rfl⟩, read, made⟩
      · intro given
        obtain ⟨_, _, bs, b, ⟨rfl, rfl⟩, read, made⟩ := given
        exact ⟨bs, b, read, made⟩

theorem coalesce_eq_pure :
    coalesce ctx operands = pure e ↔
      ∃ common args, alternatives ctx none 1 operands = (common, pure args) ∧
        ctx.expr (common.getD .unknown) (.coalesce args) = e := by
  unfold coalesce
  obtain ⟨common, attempt⟩ := alternatives ctx none 1 operands
  simp only [andThen_eq_pure,pure_eq_pure,Prod.mk.injEq]
  constructor
  · intro given
    obtain ⟨args, read, made⟩ := given
    exact ⟨common, args, ⟨rfl, read⟩, made⟩
  · intro given
    obtain ⟨_, args, ⟨rfl, read⟩, made⟩ := given
    exact ⟨args, read, made⟩

theorem assert_eq_pure {type : Ty} :
    assert type ctx operands = pure e ↔
      ∃ args, ((operands.zipIdx 1).map fun p => p.1.readFreeAt ctx p.2) = args.map pure ∧
        ctx.expr type (.assert type args) = e := by
  simp [assert]

-- What stands where in an array assertion: the item type and then the length
-- may be left out.
inductive ArrayOperands : List Operand → Ty → Option Nat → Nat → Operand → Prop
  | input (input : Operand) : ArrayOperands [input] .unknown none 1 input
  | item (item input : Operand) (type : Ty) : itemType? item.raw = some type →
      ArrayOperands [item, input] type none 2 input
  | length (item length input : Operand) (type : Ty) (n : Nat) : itemType? item.raw = some type →
      length.raw.nat? = some (n + 1) →
      ArrayOperands [item, length, input] type (some (n + 1)) 3 input

theorem itemType_eq_pure {data : Json} {type : Ty} :
    itemType ctx data = pure type ↔ itemType? data = some type := by
  unfold itemType
  cases itemType? data with
  | none => simp
  | some other => simp

theorem arrayLength_eq_pure {data : Json} {length : Nat} :
    arrayLength ctx data = pure length ↔ ∃ n, data.nat? = some (n + 1) ∧ length = n + 1 := by
  unfold arrayLength
  split
  · rename_i n found
    simp [found,eq_comm]
  · rename_i notLong
    simpa using fun n found => absurd found (notLong n)

theorem arrayOf_eq_pure {item : Ty} {length : Option Nat} {position : Nat} {input : Operand} :
    arrayOf ctx item length position input = pure e ↔
      ∃ i, input.readFreeAt ctx position = pure i ∧
        ctx.expr (.array item length) (.assertArray item length i) = e := by
  simp [arrayOf]

theorem array_eq_pure :
    array ctx operands = pure e ↔
      ∃ item length position input i, ArrayOperands operands item length position input ∧
        input.readFreeAt ctx position = pure i ∧
        ctx.expr (.array item length) (.assertArray item length i) = e := by
  constructor
  · intro success
    unfold array at success
    split at success
    · obtain ⟨i, read, made⟩ := arrayOf_eq_pure.mp success
      exact ⟨_, _, _, _, i, .input _, read, made⟩
    · obtain ⟨type, item, success⟩ := bind_eq_pure.mp success
      obtain ⟨i, read, made⟩ := arrayOf_eq_pure.mp success
      exact ⟨_, _, _, _, i, .item _ _ _ (itemType_eq_pure.mp item), read, made⟩
    · obtain ⟨type, item, success⟩ := bind_eq_pure.mp success
      obtain ⟨length, counted, success⟩ := bind_eq_pure.mp success
      obtain ⟨n, number, rfl⟩ := arrayLength_eq_pure.mp counted
      obtain ⟨i, read, made⟩ := arrayOf_eq_pure.mp success
      exact ⟨_, _, _, _, i, .length _ _ _ _ n (itemType_eq_pure.mp item) number, read, made⟩
    · exact absurd success ctx.fail_ne_pure
  · intro given
    obtain ⟨_, _, _, _, i, form, read, made⟩ := given
    cases form with
    | input => exact arrayOf_eq_pure.mpr ⟨i, read, made⟩
    | item _ _ _ item =>
        exact bind_eq_pure.mpr ⟨_, itemType_eq_pure.mpr item, arrayOf_eq_pure.mpr ⟨i, read, made⟩⟩
    | length _ _ _ _ n item number =>
        exact bind_eq_pure.mpr ⟨_, itemType_eq_pure.mpr item,
          bind_eq_pure.mpr ⟨_, arrayLength_eq_pure.mpr ⟨n, number, rfl⟩,
            arrayOf_eq_pure.mpr ⟨i, read, made⟩⟩⟩

theorem parseColor_eq_pure {input : Operand} :
    parseColor ctx input = pure e ↔
      ∃ i, input.readAt ctx 1 (some .string) = pure i ∧ ctx.expr .color (.parseColor i) = e := by
  simp [parseColor]

theorem not_eq_pure {input : Operand} :
    Reading.not ctx input = pure e ↔
      ∃ i, input.readAt ctx 1 (some .boolean) = pure i ∧ ctx.expr .boolean (.not i) = e := by
  simp [Reading.not]

theorem error_eq_pure {data : Json} :
    Reading.error ctx data = pure e ↔
      ∃ message, data = .str message ∧
        ctx.expr (ctx.expected.getD .unknown) (.throw message) = e := by
  constructor
  · intro success
    unfold Reading.error at success
    split at success
    · rename_i message
      exact ⟨message, rfl, pure_eq_pure.mp success⟩
    · exact absurd success ctx.failAt_ne_pure
  · intro given
    obtain ⟨message, rfl, rfl⟩ := given
    rfl

theorem case_eq_pure :
    case ctx operands = pure e ↔
      ∃ pairs last common bs final o, pairsAndLast? operands = some (pairs, last) ∧
        branches ctx none 1 pairs = (common, pure bs) ∧
        output ctx common operands.length last = (final, pure o) ∧
        ctx.expr (final.getD .unknown) (.case bs o) = e := by
  constructor
  · intro success
    unfold case at success
    cases split : pairsAndLast? operands with
    | none =>
        simp only [split] at success
        exact absurd success ctx.fail_ne_pure
    | some parts =>
        obtain ⟨pairs, last⟩ := parts
        simp only [split] at success
        obtain ⟨⟨bs, o⟩, both, made⟩ := andThen_eq_pure.mp success
        obtain ⟨read, read'⟩ := both_eq_pure.mp both
        exact ⟨pairs, last, _, bs, _, o, rfl, Prod.ext rfl read, Prod.ext rfl read',
          pure_eq_pure.mp made⟩
  · intro given
    obtain ⟨pairs, last, common, bs, final, o, split, read, read', rfl⟩ := given
    simp only [case,split,read,read']
    rfl

def readInput (ctx : Context) (type? : Option Ty) (input : Operand) : Attempt Expr :=
  match type? with
  | some type => input.readAt ctx 1 (some type)
  | none => input.readFreeAt ctx 1

theorem select_eq_pure {input : Operand} :
    select ctx (input :: operands) = pure e ↔
      ∃ pairs last state common as final o i, pairsAndLast? operands = some (pairs, last) ∧
        arms ctx ⟨none, []⟩ none 2 pairs = (state, common, pure as) ∧
        output ctx common (operands.length + 1) last = (final, pure o) ∧
        readInput ctx state.type? input = pure i ∧
        ctx.expr (final.getD .unknown) (.select i as o) = e := by
  constructor
  · intro success
    unfold select at success
    cases split : pairsAndLast? operands with
    | none =>
        simp only [split] at success
        exact absurd success ctx.fail_ne_pure
    | some parts =>
        obtain ⟨pairs, last⟩ := parts
        simp only [split] at success
        obtain ⟨⟨⟨as, o⟩, i⟩, all, made⟩ := andThen_eq_pure.mp success
        obtain ⟨both, read''⟩ := both_eq_pure.mp all
        obtain ⟨read, read'⟩ := both_eq_pure.mp both
        exact ⟨pairs, last, _, _, as, _, o, i, rfl, Prod.ext rfl (Prod.ext rfl read),
          Prod.ext rfl read', read'', pure_eq_pure.mp made⟩
  · intro given
    obtain ⟨pairs, last, state, common, as, final, o, i, split, read, read', read'', rfl⟩ := given
    simp only [select,split,read,read']
    exact andThen_eq_pure.mpr ⟨((as, o), i), both_eq_pure.mpr ⟨rfl, read''⟩, rfl⟩

theorem select_operands (success : select ctx operands = pure e) :
    ∃ input rest, operands = input :: rest := by
  cases operands with
  | nil => exact absurd success ctx.fail_ne_pure
  | cons input rest => exact ⟨input, rest, rfl⟩

theorem curve_operands (success : curve ctx operands = pure e) :
    ∃ kind input rest, operands = kind :: input :: rest := by
  match operands, success with
  | [], success | [_], success => exact absurd success ctx.fail_ne_pure
  | kind :: input :: rest, _ => exact ⟨kind, input, rest, rfl⟩

theorem interpolation_eq_pure {data : Json} {i : Interpolation} :
    interpolation ctx data = pure i ↔
      Interpolation.ofJson? data = some i ∧
        ∀ base, i = .exponential base → base.isFinite = true ∧ 0 < base := by
  constructor
  · intro success
    unfold interpolation at success
    split at success
    · exact absurd success ctx.failAt_ne_pure
    · rename_i base found
      split at success
      · rename_i valid
        rw [Bool.and_eq_true,decide_eq_true_iff] at valid
        obtain rfl := pure_eq_pure.mp success
        refine ⟨found, ?_⟩
        intro base' same
        cases same
        exact valid
      · exact absurd success ctx.failAt_ne_pure
    · rename_i other notExponential found
      obtain rfl := pure_eq_pure.mp success
      exact ⟨found, fun base same => absurd same (notExponential base)⟩
  · intro given
    obtain ⟨found, valid⟩ := given
    cases i with
    | exponential base =>
        obtain ⟨finite, positive⟩ := valid base rfl
        simp only [interpolation,found,finite,positive,Bool.true_and,decide_true,if_true]
    | _ => simp only [interpolation,found]

theorem curve_eq_pure {kind input : Operand} :
    curve ctx (kind :: input :: operands) = pure e ↔
      ∃ pairs i x common ss, pairs? operands = some pairs ∧
        interpolation ctx kind.raw = pure i ∧
        input.readAt ctx 2 (some .number) = pure x ∧
        stops ctx none none 3 pairs = (common, pure ss) ∧
        (i.isStep || (common.getD .unknown).blends) = true ∧
        ctx.expr (common.getD .unknown) (.curve i x ss) = e := by
  constructor
  · intro success
    unfold curve at success
    cases split : pairs? operands with
    | none =>
        simp only [split] at success
        exact absurd success ctx.fail_ne_pure
    | some pairs =>
        simp only [split] at success
        obtain ⟨i, kind, success⟩ := bind_eq_pure.mp success
        unfold curveOf at success
        obtain ⟨⟨x, ss⟩, both, made⟩ := andThen_eq_pure.mp success
        obtain ⟨read, read'⟩ := both_eq_pure.mp both
        simp only at made
        split at made
        · rename_i blends
          exact ⟨pairs, i, x, _, ss, rfl, kind, read, Prod.ext rfl read', blends,
            pure_eq_pure.mp made⟩
        · exact absurd made ctx.fail_ne_pure
  · intro given
    obtain ⟨pairs, i, x, common, ss, split, kind, read, read', blends, rfl⟩ := given
    simp only [curve,split]
    refine bind_eq_pure.mpr ⟨i, kind, ?_⟩
    simp only [curveOf,read,read']
    refine andThen_eq_pure.mpr ⟨(x, ss), rfl, ?_⟩
    simp only [blends,if_true]

theorem application_eq_pure {head : Json} :
    application ctx head operands = pure e ↔
      ∃ op : Operator, head = .str op.tag ∧ op.arity.fault? (operands.length + 1) = none ∧
        operator op ctx operands = pure e := by
  constructor
  · intro success
    unfold application at success
    split at success
    · rename_i tag
      split at success
      · exact absurd success ctx.failAt_ne_pure
      · rename_i op known
        split at success
        · exact absurd success ctx.fail_ne_pure
        · rename_i counted
          rw [Operator.ofTag?_eq_some] at known
          exact ⟨op, congrArg Json.str known, counted, success⟩
    · exact absurd success ctx.failAt_ne_pure
  · intro given
    obtain ⟨op, rfl, counted, success⟩ := given
    simpa [application,counted] using success

end Reading

open Reading Attempt

def Expr.readAny (data : Json) (ctx : Context) : Attempt Expr :=
  match data with
  | .arr [] => ctx.fail .emptyArray
  | .arr (head :: args) => application ctx head (Expr.operands args)
  | .obj _ => ctx.fail .bareObject
  | scalar => pure (constant ctx scalar)

def Json.isScalar : Json → Bool
  | .arr _ | .obj _ => false
  | _ => true

theorem Expr.readAny_eq_pure {data : Json} {ctx : Context} {e : Expr} :
    Expr.readAny data ctx = pure e ↔
      (∃ op args, data = .arr (.str op.tag :: args) ∧
        op.arity.fault? ((Expr.operands args).length + 1) = none ∧
        operator op ctx (Expr.operands args) = pure e) ∨
      data.isScalar = true ∧ constant ctx data = e := by
  cases data with
  | arr items =>
      cases items with
      | nil => simp [Expr.readAny,Json.isScalar]
      | cons head args =>
          constructor
          · intro success
            obtain ⟨op, rfl, counted, applied⟩ := application_eq_pure.mp success
            exact .inl ⟨op, args, rfl, counted, applied⟩
          · intro given
            rcases given with ⟨op, _, same, counted, applied⟩ | ⟨scalar, _⟩
            · cases same
              exact application_eq_pure.mpr ⟨op, rfl, counted, applied⟩
            · cases scalar
  | obj members => simp [Expr.readAny,Json.isScalar]
  | _ => simp [Expr.readAny,Json.isScalar]

theorem Expr.read_eq_pure {data : Json} {ctx : Context} {e : Expr} :
    Expr.read data ctx = pure e ↔
      Expr.readAny data ctx = pure e ∧
        ∀ type, ctx.expected = some type → type.accepts e.type = true := by
  have checked : ∀ attempt : Attempt Expr, attempt.andThen ctx.check = pure e ↔
      attempt = pure e ∧ ∀ type, ctx.expected = some type → type.accepts e.type = true := by
    intro attempt
    simp only [andThen_eq_pure,ctx.check_eq_pure]
    constructor
    · intro given
      obtain ⟨_, read, rfl, fits⟩ := given
      exact ⟨read, fits⟩
    · intro given
      obtain ⟨read, fits⟩ := given
      exact ⟨e, read, rfl, fits⟩
  cases data with
  | arr items =>
      cases items with
      | nil => simp [Expr.read,Expr.readAny]
      | cons head args =>
          rw [Expr.read]
          exact checked _
  | obj members => simp [Expr.read,Expr.readAny]
  | null => exact checked (pure (constant ctx .null))
  | bool b => exact checked (pure (constant ctx (.bool b)))
  | num n => exact checked (pure (constant ctx (.num n)))
  | str s => exact checked (pure (constant ctx (.str s)))

theorem Expr.read_operator_eq_pure (op : Operator) (args : List Json) {ctx : Context} {e : Expr}
    (counted : op.arity.fault? (args.length + 1) = none) :
    Expr.read (.arr (.str op.tag :: args)) ctx = pure e ↔
      operator op ctx (Expr.operands args) = pure e ∧
        ∀ type, ctx.expected = some type → type.accepts e.type = true := by
  rw [Expr.read_eq_pure]
  refine and_congr_left fun _ => ?_
  show application ctx (.str op.tag) (Expr.operands args) = pure e ↔ _
  simp [application,counted]

theorem Expr.read_operator_of_expected (op : Operator) (args : List Json) {ctx : Context} {e : Expr}
    {type : Ty} (counted : op.arity.fault? (args.length + 1) = none)
    (expected : ctx.expected = some type) (accepts : type.accepts e.type = true)
    (applied : operator op ctx (Expr.operands args) = pure e) :
    Expr.read (.arr (.str op.tag :: args)) ctx = pure e := by
  refine (Expr.read_operator_eq_pure op args counted).mpr ⟨applied, ?_⟩
  intro type' found
  rw [expected,Option.some.injEq] at found
  rw [← found]
  exact accepts

theorem Expr.operator_of_read (op : Operator) (args : List Json) {ctx : Context} {e : Expr}
    (success : Expr.read (.arr (.str op.tag :: args)) ctx = pure e) :
    operator op ctx (Expr.operands args) = pure e := by
  have read : application ctx (.str op.tag) (Expr.operands args) = pure e :=
    (Expr.read_eq_pure.mp success).1
  obtain ⟨op', tag, _, applied⟩ := application_eq_pure.mp read
  rwa [Operator.tag_injective (Json.str.inj tag)]

end MapStyle
