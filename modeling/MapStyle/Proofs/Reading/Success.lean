import MapStyle.Reading.Expression

namespace MapStyle

namespace Attempt

-- An attempt succeeds with a value when it is `pure` of it, without a problem
-- on the way. Each way of combining attempts succeeds exactly where its parts
-- do.
variable {α β : Type}

@[simp] theorem pure_eq_pure {x y : α} : (pure x : Attempt α) = pure y ↔ x = y := by
  constructor
  · intro same
    exact Option.some.inj (congrArg Attempt.value? same)
  · intro same
    rw [same]

@[simp] theorem andThen_eq_pure {a : Attempt α} {next : α → Attempt β} {y : β} :
    a.andThen next = pure y ↔ ∃ x, a = pure x ∧ next x = pure y := by
  constructor
  · intro success
    obtain ⟨value?, errors⟩ := a
    cases value? with
    | none => cases congrArg Attempt.value? success
    | some x =>
        have clean : errors ++ (next x).errors = [] := congrArg Attempt.errors success
        have value : (next x).value? = some y := congrArg Attempt.value? success
        obtain ⟨rfl, after⟩ := List.append_eq_nil_iff.mp clean
        refine ⟨x, rfl, ?_⟩
        cases h : next x with
        | mk value?' errors' =>
            rw [h] at value after
            cases value
            cases after
            rfl
  · intro given
    obtain ⟨x, rfl, success⟩ := given
    exact success

@[simp] theorem bind_eq_pure {a : Attempt α} {next : α → Attempt β} {y : β} :
    a >>= next = pure y ↔ ∃ x, a = pure x ∧ next x = pure y :=
  andThen_eq_pure

@[simp] theorem both_eq_pure {a : Attempt α} {b : Attempt β} {p : α × β} :
    a.both b = pure p ↔ a = pure p.1 ∧ b = pure p.2 := by
  constructor
  · intro success
    obtain ⟨value?, errors⟩ := a
    obtain ⟨value?', errors'⟩ := b
    have clean : errors ++ errors' = [] := congrArg Attempt.errors success
    have value : (value?.bind fun x => value?'.map fun y => (x, y)) = some p :=
      congrArg Attempt.value? success
    obtain ⟨rfl, rfl⟩ := List.append_eq_nil_iff.mp clean
    cases value? with
    | none => cases value
    | some x =>
        cases value?' with
        | none => cases value
        | some y =>
            cases value
            exact ⟨rfl, rfl⟩
  · obtain ⟨x, y⟩ := p
    intro given
    obtain ⟨rfl, rfl⟩ := given
    rfl

@[simp] theorem cons_eq_pure {a : Attempt α} {rest : Attempt (List α)} {ys : List α} :
    a.cons rest = pure ys ↔ ∃ x xs, a = pure x ∧ rest = pure xs ∧ ys = x :: xs := by
  unfold cons
  rw [andThen_eq_pure]
  constructor
  · intro given
    obtain ⟨⟨x, xs⟩, parts, rest⟩ := given
    obtain ⟨first, others⟩ := both_eq_pure.mp parts
    exact ⟨x, xs, first, others, (pure_eq_pure.mp rest).symm⟩
  · intro given
    obtain ⟨x, xs, rfl, rfl, rfl⟩ := given
    exact ⟨(x, xs), rfl, rfl⟩

@[simp] theorem all_eq_pure {as : List (Attempt α)} {xs : List α} :
    all as = pure xs ↔ as = xs.map pure := by
  induction as generalizing xs with
  | nil => cases xs <;> simp [all]
  | cons a as ih =>
      rw [all,cons_eq_pure]
      constructor
      · intro given
        obtain ⟨x, rest, rfl, success, rfl⟩ := given
        rw [ih.mp success]
        rfl
      · intro same
        cases xs with
        | nil => cases same
        | cons x rest =>
            obtain ⟨first, others⟩ := List.cons.inj same
            exact ⟨x, rest, first, ih.mpr others, rfl⟩

end Attempt

namespace Context

variable {α : Type} (ctx : Context)

@[simp] theorem fail_ne_pure {problem : Problem} {x : α} : ctx.fail problem ≠ pure x := by
  intro success
  cases congrArg Attempt.value? success

@[simp] theorem failAt_ne_pure {position : Nat} {problem : Problem} {x : α} :
    ctx.failAt position problem ≠ pure x := by
  intro success
  cases congrArg Attempt.value? success

@[simp] theorem check_eq_pure {e e' : Expr} :
    ctx.check e = pure e' ↔ e = e' ∧ ∀ type, ctx.expected = some type → type.accepts e.type = true := by
  unfold check
  cases h : ctx.expected with
  | none => simp
  | some type =>
      cases fits : type.accepts e.type with
      | true => simp [fits]
      | false => simp [fits]

end Context

theorem Expr.parse_eq_ok {data : Json} {options : ParseOptions} {e : Expr} :
    Expr.parse data options = .ok e ↔
      Expr.read data (Context.root options.expected options.key) = pure e := by
  unfold Expr.parse
  cases Expr.read data (Context.root options.expected options.key) with
  | mk value? errors =>
      constructor
      · intro success
        cases value? with
        | none => cases success
        | some x =>
            cases errors with
            | nil =>
                cases success
                rfl
            | cons first rest => cases success
      · intro success
        cases success
        rfl

theorem Expr.parse_errors {data : Json} {options : ParseOptions} {errors : List ParseError}
    (failed : Expr.parse data options = .error errors) :
    errors = (Expr.read data (Context.root options.expected options.key)).errors := by
  unfold Expr.parse at failed
  dsimp only at failed
  split at failed
  · cases failed
  · cases failed
    rfl

theorem Expr.parse_failed {data : Json} {options : ParseOptions} {err : ParseError}
    (reported : err ∈ (Expr.read data (Context.root options.expected options.key)).errors) :
    Expr.parse data options =
      .error (Expr.read data (Context.root options.expected options.key)).errors := by
  cases result : Expr.parse data options with
  | error errors => rw [Expr.parse_errors result]
  | ok e =>
      rw [Expr.parse_eq_ok.mp result] at reported
      cases reported

end MapStyle
