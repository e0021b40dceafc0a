import MapStyle.Proofs.Reading.Limited

-- An expression that only fails is of the type that is expected of it. In front of other
-- outputs it makes that type a limit to them, where it would have been no more than an
-- expectation. They can still be read, if their own type leaves room for it.

namespace MapStyle

open Reading Attempt

variable {ctx : Context} {e : Expr}

theorem Context.limited_self (ctx : Context) : ctx.Limited ctx.expectation ctx :=
  ⟨⟨.same _, id⟩, List.forall₂_same.mpr fun _ _ => ⟨rfl, rfl⟩⟩

theorem Context.shifts_first (ctx : Context) :
    ctx.expectation.Shifts ctx.expectation (Common.type none) (Common.type (some ctx.expectation)) :=
  .inr ⟨.left _, fun _ => rfl⟩

theorem Context.meets_expectation (passed : ctx.expectation.accepts e.type = true)
    (names : ∀ type, ctx.expected = some type → type.hasNames = true →
      (type.meet? e.type).isSome = true) :
    ∃ both, Ty.Meets ctx.expectation e.type both := by
  unfold Context.expectation at passed ⊢
  cases expected : ctx.expected with
  | none => exact ⟨e.type, .left e.type⟩
  | some type =>
      rw [expected] at passed
      cases named : type.hasNames with
      | true =>
          obtain ⟨both, meets⟩ := Option.isSome_iff_exists.mp (names type expected named)
          exact ⟨both, Ty.meets_iff.mpr meets⟩
      | false => exact Ty.meets_of_accepts named passed

theorem Context.admitted_expectation
    (constants : ∀ item length, ctx.expected = some (.array item length) →
      ∀ n v, e.Supplies n → n.node = .literal v →
        n.type = Ty.ofJson v.toJson ∨ (Ty.array item length).admits v.toJson = true) :
    e.Admitted ctx.expectation := by
  intro item length array
  rw [array]
  refine constants item length ?_
  unfold Context.expectation at array
  cases expected : ctx.expected with
  | none =>
      rw [expected] at array
      cases array
  | some type =>
      rw [expected] at array
      exact congrArg some array

def Expr.failing (message : String) (ctx : Context) : Expr :=
  ctx.expr ctx.expectation (.throw message)

theorem Expr.read_error (message : String) (ctx : Context) :
    Expr.read (.arr [.str "error", .str message]) ctx = pure (Expr.failing message ctx) := by
  refine (Expr.read_operator_eq_pure .error [.str message] rfl).mpr ⟨rfl, ?_⟩
  intro type expected
  show type.accepts ctx.expectation = true
  rw [Context.expectation,expected]
  exact Ty.accepts_self type

section Outputs

variable {lower : Ty} (within : lower ≤ ctx.expectation) (below : lower ≤ e.type)
  (admitted : e.Admitted ctx.expectation) (message : String) {args : List Json}
include within below

theorem Expr.read_shifted {op : Operator} {data : List Json} {e' : Expr}
    (counted : op.arity.fault? (data.length + 1) = none)
    (passed : ctx.expectation.accepts e.type = true)
    (shifts : ctx.expectation.Shifts ctx.expectation e.type e'.type)
    (applied : operator op ctx (Expr.operands data) = pure e') :
    Expr.read (.arr (.str op.tag :: data)) ctx = pure e' := by
  refine (Expr.read_operator_eq_pure op data counted).mpr ⟨applied, ?_⟩
  have passes := shifts.accepts ctx.limited_self.expectation within below passed
  intro type expected
  rwa [Context.expectation,expected] at passes

include admitted

theorem Expr.read_coalesce_error (success : Expr.read (.arr (.str "coalesce" :: args)) ctx = pure e) :
    ∃ e', Expr.read (.arr (.str "coalesce" :: .arr [.str "error", .str message] :: args)) ctx =
      pure e' := by
  have passed := Expr.read_passed success
  obtain ⟨common, es, read, rfl⟩ := coalesce_eq_pure.mp (Expr.operator_of_read .coalesce args success)
  obtain ⟨final, es', after, shifts⟩ := alternatives_endure ctx.limited_self within below
    ctx.shifts_first (Expr.operands_endure args) (fun a member => admitted.output member) read 2
  let first := Expr.failing message (ctx.derive (.index 1) none)
  let whole := ctx.expr final.type (.coalesce (first :: es'))
  let error : Json := .arr [.str "error", .str message]
  have applied : operator .coalesce ctx (Expr.operands (error :: args)) = pure whole := by
    refine coalesce_eq_pure.mpr ⟨final, first :: es', alternatives_cons_eq_pure.mpr ?_, rfl⟩
    exact ⟨first, ctx.expectation, es', Expr.read_error message _, rfl, after, rfl⟩
  have counted : Operator.coalesce.arity.fault? ((error :: args).length + 1) = none :=
    Arity.fault?_between.mpr ⟨Nat.le_add_left 1 args.length, nofun⟩
  exact ⟨whole, Expr.read_shifted within below counted passed shifts applied⟩

theorem Expr.read_case_error {condition : Json} {c : Expr}
    (success : Expr.read (.arr (.str "case" :: args)) ctx = pure e)
    (given : Expr.read condition (ctx.derive (.index 1) (some .boolean)) = pure c) :
    ∃ e', Expr.read (.arr (.str "case" :: condition :: .arr [.str "error", .str message] :: args))
      ctx = pure e' := by
  have passed := Expr.read_passed success
  obtain ⟨pairs, last, common, bs, final, o, split, read, made, rfl⟩ :=
    case_eq_pure.mp (Expr.operator_of_read .case args success)
  obtain ⟨each, otherwise⟩ := pairsAndLast?_each split (Expr.operands_endure args)
  have outputs : ∀ b ∈ bs, b.output.Admitted ctx.expectation := fun b member =>
    admitted.output (List.mem_append_left _ (List.mem_map_of_mem member))
  have output : o.Admitted ctx.expectation :=
    admitted.output (List.mem_append_right _ List.mem_cons_self)
  have room : lower ≤ common.type := below.trans (Common.join_le (output_joins made))
  obtain ⟨common', bs', after, shifts⟩ :=
    branches_endure ctx.limited_self within room ctx.shifts_first each outputs read 3
  obtain ⟨final', o', made', shifts'⟩ := output_endures ctx.limited_self otherwise within output
    shifts below made ((Expr.operands args).length + 2)
  let first := Expr.failing message (ctx.derive (.index 2) none)
  let error : Json := .arr [.str "error", .str message]
  let whole := ctx.expr final'.type (.case (⟨c, first⟩ :: bs') o')
  have applied : operator .case ctx (Expr.operands (condition :: error :: args)) = pure whole := by
    refine case_eq_pure.mpr ⟨(⟨condition, Expr.read condition⟩, ⟨error, Expr.read error⟩) :: pairs,
      last, common', ⟨c, first⟩ :: bs', final', o', ?_, branches_cons_eq_pure.mpr ?_, made', rfl⟩
    · rw [pairsAndLast?_eq_some] at split ⊢
      exact congrArg (fun rest => (⟨condition, Expr.read condition⟩ : Operand) ::
        ⟨error, Expr.read error⟩ :: rest) split
    · have alone : Reading.output ctx none 2 ⟨error, Expr.read error⟩ =
          (some ctx.expectation, pure first) :=
        output_eq_pure.mpr ⟨Expr.read_error message _, ctx.expectation, rfl, rfl⟩
      exact ⟨c, first, _, bs', given, alone, after, rfl⟩
  have counted : Operator.case.arity.fault? ((condition :: error :: args).length + 1) = none := by
    have nonempty : args ≠ [] := by
      rintro rfl
      cases split
    refine Arity.fault?_between.mpr ⟨?_, nofun⟩
    have filled := List.length_pos_iff.mpr nonempty
    rw [List.length_cons,List.length_cons]
    omega
  exact ⟨whole, Expr.read_shifted within below counted passed shifts' applied⟩

end Outputs

theorem Expr.read_error_first (message : String)
    (names : ∀ type, ctx.expected = some type → type.hasNames = true →
      (type.meet? e.type).isSome = true)
    (constants : ∀ item length, ctx.expected = some (.array item length) →
      ∀ n v, e.Supplies n → n.node = .literal v →
        n.type = Ty.ofJson v.toJson ∨ (Ty.array item length).admits v.toJson = true) :
    (∀ args, Expr.read (.arr (.str "coalesce" :: args)) ctx = pure e →
      ∃ e', Expr.read (.arr (.str "coalesce" :: .arr [.str "error", .str message] :: args)) ctx =
        pure e') ∧
      ∀ args condition c, Expr.read (.arr (.str "case" :: args)) ctx = pure e →
        Expr.read condition (ctx.derive (.index 1) (some .boolean)) = pure c →
        ∃ e', Expr.read
          (.arr (.str "case" :: condition :: .arr [.str "error", .str message] :: args)) ctx =
            pure e' := by
  have admitted := Context.admitted_expectation constants
  constructor
  · intro args success
    obtain ⟨both, meets⟩ := Context.meets_expectation (Expr.read_passed success) names
    obtain ⟨within, below⟩ := Ty.meets_le meets
    exact Expr.read_coalesce_error within below admitted message success
  · intro args condition c success given
    obtain ⟨both, meets⟩ := Context.meets_expectation (Expr.read_passed success) names
    obtain ⟨within, below⟩ := Ty.meets_le meets
    exact Expr.read_case_error within below admitted message success given

theorem Expr.read_error_first_names :
    let names : Ty := .array (.enum ["butt", "round"]) none
    let ctx := Context.root (some names) none
    let free := Context.root none none
    let caps : Json := .arr [.str "literal", .arr [.str "butt"]]
    let get : Json := .arr [.str "get", .str "caps"]
    let error : Json := .arr [.str "error", .str "none"]
    let has : Json := .arr [.str "has", .str "caps"]
    (∃ e, Expr.read (.arr [.str "coalesce", caps, get]) ctx = pure e ∧
      (names.meet? e.type).isSome = true ∧
      (∀ n v, e.Supplies n → n.node = .literal v →
        n.type = Ty.ofJson v.toJson ∨ names.admits v.toJson = true) ∧
      ∃ e', Expr.read (.arr [.str "coalesce", error, caps, get]) ctx = pure e') ∧
      ∃ e c, Expr.read (.arr [.str "case", has, get, caps]) free = pure e ∧
        Expr.read has (free.derive (.index 1) (some .boolean)) = pure c ∧
        ∃ e', Expr.read (.arr [.str "case", has, error, has, get, caps]) free = pure e' := by
  intro names ctx free caps get error has
  let name (k : Nat) : Expr := ⟨[.index k, .index 1], .string, .literal (.str "caps")⟩
  let literal : Expr := ⟨[.index 1], names, .literal (Value.ofJson (.arr [.str "butt"]))⟩
  let e : Expr := ⟨[], names, .coalesce [literal, ⟨[.index 2], .unknown, .get (name 2)⟩]⟩
  have read : Expr.read (.arr [.str "coalesce", caps, get]) ctx = pure e := rfl
  have constants : ∀ n v, e.Supplies n → n.node = .literal v →
      n.type = Ty.ofJson v.toJson ∨ names.admits v.toJson = true := by
    intro n v supplies constant
    cases supplies with
    | self => cases constant
    | body other _ => cases other
    | output member inner =>
        rcases List.mem_cons.mp member with rfl | member
        · cases inner with
          | self =>
              cases constant
              exact .inr (by decide)
          | output missing _ => cases missing
          | body other _ => cases other
        · obtain rfl := List.mem_singleton.mp member
          cases inner with
          | self => cases constant
          | output missing _ => cases missing
          | body other _ => cases other
  have meets : (names.meet? e.type).isSome = true := by decide
  have expected : ∀ type, ctx.expected = some type → type = names := by
    intro type found
    exact (Option.some.inj found).symm
  have first := (read_error_first "none" (fun type found _ => expected type found ▸ meets)
    fun item length found => expected _ found ▸ constants).1 [caps, get] read
  refine ⟨⟨e, read, meets, constants, first⟩, ?_⟩
  have nothing : ∀ type, free.expected = some type → False := nofun
  have second := (read_error_first "none" (fun type found => (nothing type found).elim)
    fun item length found => (nothing _ found).elim).2 [has, get, caps] has _ rfl rfl
  exact ⟨_, _, rfl, rfl, second⟩

-- A name where a list of names is expected, and a constant of three numbers where two are
-- expected, after an array of numbers for which it has been taken.
theorem Expr.read_error_first_refused :
    let names : Ty := .enum ["butt", "round"]
    let cap : Json := .str "butt"
    let pair : Ty := .array .unknown (some 2)
    let some : Json := .arr [.str "array", .str "number", .arr [.str "get", .str "p"]]
    let three : Json := .arr [.str "literal", .arr [.num (.int 1 (by decide)),
      .num (.int 2 (by decide)), .num (.int 3 (by decide))]]
    let error : Json := .arr [.str "error", .str "none"]
    let accepted (args : List Json) (type : Ty) : Bool :=
      (Expr.parse (.arr (.str "coalesce" :: args)) ⟨type, none⟩).isOk
    accepted [cap] names = true ∧ accepted [error, cap] names = false ∧
      accepted [some, three] pair = true ∧ accepted [error, some, three] pair = false :=
  ⟨rfl, rfl, rfl, rfl⟩

end MapStyle
