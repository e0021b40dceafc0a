import MapStyle.Proofs.RoundTrip.Operators

namespace MapStyle

open Reading Attempt

theorem Value.written_ofJson (j : Json) :
    (Value.ofJson j).written = match j with
      | .arr _ | .obj _ => .arr [.str "literal", j.again]
      | _ => j.again := by
  cases j <;> rfl

theorem Value.written_again (j : Json) :
    (Value.ofJson j.again).written = (Value.ofJson j).written := by
  rw [written_ofJson,written_ofJson,Json.again_again]
  cases j with
  | num n =>
      obtain ⟨m, written, _⟩ := Json.again_num n
      rw [written]
  | arr items => rw [Json.again_arr]
  | obj members => rw [Json.again_obj]
  | _ => rfl

theorem constant_returns {ctx ctx' : Context} (like : ctx.Like ctx') (data : Json) :
    Expr.readAny (constant ctx data).written ctx' = pure (constant ctx' data.again) ∧
      (constant ctx data).Alike (constant ctx' data.again) := by
  constructor
  · rw [Expr.written_eq]
    show Expr.readAny (Value.ofJson data).written ctx' = _
    rw [Value.written_ofJson]
    cases data with
    | num n =>
        obtain ⟨m, written, _⟩ := Json.again_num n
        rw [written]
        rfl
    | arr items => rfl
    | obj members => rfl
    | _ => rfl
  · refine Expr.alike_of_node ?_
      (.literal _ _ (Json.ofJson_again data) (Value.written_again data) rfl)
    show constantType ctx'.expected data.again = constantType ctx.expected data
    rw [like.expected,constantType_again]

theorem operator_returns {op : Operator} {ctx ctx' : Context} (like : ctx.Like ctx') {e : Expr}
    {args : List Json} (notLiteral : op ≠ .literal)
    (counted : op.arity.fault? ((Expr.operands args).length + 1) = none)
    (returns : ∀ c ∈ e.node.children, c.Returns)
    (success : operator op ctx (Expr.operands args) = pure e) : Returned op ctx' e := by
  have genuine : ∀ o ∈ Expr.operands args, o.Genuine := fun o => Operand.genuine_of_mem
  cases op with
  | literal => exact absurd rfl notLiteral
  | zoom =>
      obtain rfl := pure_eq_pure.mp success
      exact ⟨[], _, Expr.written_eq _, rfl, rfl, Expr.alike_of_node rfl .zoom⟩
  | get => exact get_returns like genuine returns success
  | has => exact has_returns like genuine returns success
  | var => exact var_returns like success
  | letIn => exact letIn_returns like genuine returns counted success
  | coalesce => exact coalesce_returns like genuine returns counted success
  | error => exact error_returns like success
  | string => exact assert_returns like genuine returns rfl (fun _ _ => rfl) counted success
  | number => exact assert_returns like genuine returns rfl (fun _ _ => rfl) counted success
  | boolean => exact assert_returns like genuine returns rfl (fun _ _ => rfl) counted success
  | object => exact assert_returns like genuine returns rfl (fun _ _ => rfl) counted success
  | array => exact array_returns like genuine returns success
  | parseColor => exact parseColor_returns like genuine returns success
  | not => exact not_returns like genuine returns success
  | case => exact case_returns like genuine returns counted success
  | select => exact select_returns like genuine returns counted success
  | curve => exact curve_returns like genuine returns counted success

theorem Expr.readAny_returns {ctx ctx' : Context} (like : ctx.Like ctx') {data : Json} {e : Expr}
    (returns : ∀ c ∈ e.node.children, c.Returns) (success : Expr.readAny data ctx = pure e) :
    ∃ e', Expr.readAny e.written ctx' = pure e' ∧ e.Alike e' := by
  rcases Expr.readAny_eq_pure.mp success with ⟨op, args, rfl, counted, applied⟩ | ⟨_, rfl⟩
  · by_cases literal : op = .literal
    · subst literal
      obtain ⟨o, _, made⟩ := withOne_eq_pure.mp applied
      obtain rfl := pure_eq_pure.mp made
      exact ⟨_, constant_returns like o.raw⟩
    · obtain ⟨args', e', written, counted', applied', alike⟩ :=
        operator_returns like literal counted returns applied
      refine ⟨e', ?_, alike⟩
      rw [written]
      refine application_eq_pure.mpr ⟨op, rfl, ?_, applied'⟩
      rw [Expr.length_operands]
      exact counted'
  · exact ⟨_, constant_returns like data⟩

-- From the sub-expressions to the whole: a type that fitted a place once fits a
-- place like it.
theorem Expr.returns (e : Expr) : e.Returns := by
  induction e using Expr.induct with
  | step e ih =>
      intro data ctx ctx' like success
      obtain ⟨read, fits⟩ := Expr.read_eq_pure.mp success
      obtain ⟨e', read', alike⟩ := Expr.readAny_returns like ih read
      refine ⟨e', Expr.read_eq_pure.mpr ⟨read', ?_⟩, alike⟩
      intro type expected
      rw [alike.type]
      exact fits type (like.expected ▸ expected)

theorem Expr.parse_written (data : Json) (options : ParseOptions) (e : Expr)
    (parsed : Expr.parse data options = .ok e) :
    ∃ e', Expr.parse e.written options = .ok e' ∧ (e'.unplaced == e.unplaced) = true ∧
      e'.written = e.written := by
  have like : (Context.root options.expected options.key).Like
      (Context.root options.expected options.key) := ⟨rfl, .nil⟩
  obtain ⟨e', read, alike⟩ := e.returns _ _ _ like (Expr.parse_eq_ok.mp parsed)
  exact ⟨e', Expr.parse_eq_ok.mpr read, alike.same, alike.written⟩

theorem parse_written_rewrites :
    let data : Json := .arr [.str "match", .arr [.str "get", .str "kind"], .arr [.str "bus"],
      .arr [.str "literal", .num (.float 1 rfl)], .num (.int 2 (by decide))]
    let options : ParseOptions := ⟨some .number, some "width"⟩
    let e : Expr := ⟨[.key "width"], .number, .select
      ⟨[.key "width", .index 1], .unknown,
        .get ⟨[.key "width", .index 1, .index 1], .string, .literal (.str "kind")⟩⟩
      [⟨[.str "bus"], ⟨[.key "width", .index 3], .number, .literal (.num 1)⟩⟩]
      ⟨[.key "width", .index 4], .number, .literal (.num 2)⟩⟩
    Expr.parse data options = .ok e ∧
      e.written = .arr [.str "match", .arr [.str "get", .str "kind"], .str "bus",
        .num (.int 1 (by decide)), .num (.int 2 (by decide))] ∧
      ∃ e', Expr.parse e.written options = .ok e' ∧ (e'.unplaced == e.unplaced) = true ∧
        e'.written = e.written := by
  intro data options e
  have parsed : Expr.parse data options = .ok e := rfl
  exact ⟨parsed, rfl, Expr.parse_written data options e parsed⟩

end MapStyle
