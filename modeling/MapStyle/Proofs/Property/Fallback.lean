import MapStyle.Proofs.Evaluation.Folding
import MapStyle.Proofs.Evaluation.Sequence
import MapStyle.Proofs.Property.Constants
import MapStyle.Proofs.Reading.Settled
import MapStyle.Property.Expression

namespace MapStyle

open Eval Reading Attempt

def Value.fallback (default : Value) : Except EvalError Value → Value
  | .ok v => if v.isNull then default else v
  | .error _ => default

theorem Value.fallback_isNull {default : Value} (present : default.isNull = false)
    (result : Except EvalError Value) : (Value.fallback default result).isNull = false := by
  cases result with
  | error e => exact present
  | ok v =>
      cases null : v.isNull with
      | true => simp only [fallback,null,if_true,present]
      | false => simp only [fallback,null,Bool.false_eq_true,if_false]

theorem Eval.firstValue_value (last : Option EvalError) {v : Value} (present : v.isNull = false)
    (s : Session) : firstValue last [pure v] s = (.ok v, s) := by
  show (if v.isNull = true then _ else ((.ok v, s) : Except EvalError Value × Session)) = _
  rw [present,if_neg Bool.false_ne_true]

theorem Eval.firstValue_default (a : Eval Value) {default : Value} (present : default.isNull = false)
    (s : Session) :
    (firstValue none [a, pure default] s).1 = .ok (Value.fallback default (a s).1) := by
  rw [firstValue_cons,settle]
  cases a s with
  | mk result s' =>
      cases result with
      | error e => exact congrArg Prod.fst (firstValue_value (some e) present s')
      | ok v =>
          cases null : v.isNull with
          | true =>
              simp only [afterValue,Value.fallback,null,if_true]
              exact congrArg Prod.fst (firstValue_value none present s')
          | false =>
              simp only [afterValue,Value.fallback,null,Bool.false_eq_true,if_false]
              rfl

theorem Expr.read_coalesce {a b : Json} {ctx : Context} {e : Expr} :
    Expr.read (.arr [.str "coalesce", a, b]) ctx = pure e ↔
      ∃ c d type, Expr.read a (ctx.derive (.index 1) none) = pure c ∧
        Expr.read b (ctx.derive (.index 2) (Common.expectation (some c.type))) = pure d ∧
        c.type.meet? d.type = some type ∧ e = ctx.expr type (.coalesce [c, d]) ∧
        ∀ expected, ctx.expected = some expected → expected.accepts type = true := by
  refine (Expr.read_operator_eq_pure .coalesce [a, b] rfl).trans ?_
  show coalesce ctx (Expr.operands [a, b]) = pure e ∧ _ ↔ _
  constructor
  · intro given
    obtain ⟨applied, fits⟩ := given
    obtain ⟨common, args, parts, rfl⟩ := coalesce_eq_pure.mp applied
    obtain ⟨c, type, others, first, added, more, rfl⟩ := alternatives_cons_eq_pure.mp parts
    obtain ⟨d, type', joined, second, added', last, rfl⟩ := alternatives_cons_eq_pure.mp more
    obtain ⟨rfl, rfl⟩ := alternatives_nil_eq_pure.mp last
    cases added
    exact ⟨c, d, type', first, second, Common.add_some_eq_ok.mp added', rfl, fits⟩
  · intro given
    obtain ⟨c, d, type, first, second, meets, rfl, fits⟩ := given
    refine ⟨coalesce_eq_pure.mpr ⟨some type, [c, d], ?_, rfl⟩, fits⟩
    refine alternatives_cons_eq_pure.mpr ⟨c, c.type, [d], first, rfl, ?_, rfl⟩
    refine alternatives_cons_eq_pure.mpr
      ⟨d, type, [], second, Common.add_some_eq_ok.mpr meets, ?_, rfl⟩
    exact alternatives_nil_eq_pure.mpr ⟨rfl, rfl⟩

namespace PropertyExpression

variable {raw : Json} {schema : Schema} {key : Option String} {f : StopFunction}

theorem evaluate_compile (e : Expr) (zoom : Option Float) (feature : Option Feature) :
    (PropertyExpression.evaluate ⟨e.compile⟩ zoom feature).1 =
      (e.eval (Session.start zoom feature)).1 := by
  show (e.compile.expr.eval (Session.start zoom feature)).1 = _
  unfold Expr.compile
  cases zoomless : e.asksZoom with
  | true => rfl
  | false =>
      cases featureless : e.asksFeature with
      | true => rfl
      | false =>
          have same := (e.eval_constant zoomless featureless zoom none feature none).1
          cases alone : (e.eval (Session.start none none)).1 with
          | error _ => rfl
          | ok v =>
              rw [same,alone,Expr.eval_eq]
              rfl

theorem create_iff_read {p : PropertyExpression} :
    create raw schema key = .ok p ↔
      ∃ data e, dataOf raw schema = .ok data ∧
        Expr.read data (Context.root (some schema.valueType) key) = pure e ∧ p = ⟨e.compile⟩ := by
  constructor
  · intro success
    unfold create at success
    split at success
    · cases success
    · rename_i data taken
      split at success
      · cases success
      · rename_i e parsed
        cases success
        exact ⟨data, e, taken, Expr.parse_eq_ok.mp parsed, rfl⟩
  · intro given
    obtain ⟨data, e, taken, read, rfl⟩ := given
    have parsed : Expr.parse data ⟨some schema.valueType, key⟩ = .ok e := Expr.parse_eq_ok.mpr read
    simp only [create,taken,parsed]

theorem dataOf_expression (expression : raw.isObject = false) : dataOf raw schema = .ok raw := by
  rw [dataOf,expression,if_neg Bool.false_ne_true]

theorem create_eq_ok {p : PropertyExpression} (object : raw.isObject = true)
    (function : StopFunction.ofJson? raw = some f) :
    create raw schema key = .ok p ↔
      ∃ converted e, Conversion.body f schema = .ok converted ∧
        Expr.read (.arr [.str "coalesce", converted, Conversion.defaultOf f schema])
          (Context.root (some schema.valueType) key) = pure e ∧
        p = ⟨e.compile⟩ := by
  have data : dataOf raw schema = Conversion.ofFunction f schema := by
    simp only [dataOf,object,if_true,Conversion.convert,function]
  rw [create_iff_read,data,Conversion.ofFunction]
  cases Conversion.body f schema with
  | error e =>
      constructor
      · intro given
        obtain ⟨_, _, made, _⟩ := given
        cases made
      · intro given
        obtain ⟨_, _, made, _⟩ := given
        cases made
  | ok converted =>
      constructor
      · intro given
        obtain ⟨_, e, made, read, rfl⟩ := given
        cases made
        exact ⟨converted, e, rfl, read, rfl⟩
      · intro given
        obtain ⟨_, e, made, read, rfl⟩ := given
        cases made
        exact ⟨_, e, rfl, read, rfl⟩

-- A legacy function for a property of the style, whose default is a value that the
-- property can have.
structure Defaulted (raw : Json) (schema : Schema) (f : StopFunction) (default : Json) : Prop where
  known : schema.Known
  object : raw.isObject = true
  function : StopFunction.ofJson? raw = some f
  given : f.default.or schema.default = some default
  admits : schema.valueType.admits default = true

namespace Defaulted

variable {default : Json} (defaulted : Defaulted raw schema f default)
include defaulted

theorem form : schema.Form default (Conversion.defaultOf f schema) (schema.valueOf default) := by
  have written : Conversion.defaultOf f schema = Conversion.constant schema default := by
    simp only [Conversion.defaultOf,defaulted.given]
  rw [written]
  exact Schema.form_of_admits defaulted.known defaulted.admits

theorem present : (schema.valueOf default).isNull = false :=
  defaulted.form.isNull

theorem evaluate {p : PropertyExpression} (created : create raw schema key = .ok p) :
    ∃ converted ctx c, Conversion.body f schema = .ok converted ∧ Expr.read converted ctx = pure c ∧
      ∀ zoom feature, (p.evaluate zoom feature).1 =
        .ok (Value.fallback (schema.valueOf default) (c.eval (Session.start zoom feature)).1) := by
  obtain ⟨converted, e, made, read, rfl⟩ :=
    (create_eq_ok defaulted.object defaulted.function).mp created
  obtain ⟨c, d, type, first, second, _, rfl, _⟩ := Expr.read_coalesce.mp read
  -- The default may have been read in another context than its form tells of.
  have expects : (Context.root (some schema.valueType) key).expected = some schema.valueType := rfl
  obtain ⟨d', read', _, value⟩ := defaulted.form.read (.inl expects)
  have same : d.eval = pure (schema.valueOf default) := (Expr.read_eval second read').trans value
  refine ⟨converted, _, c, made, first, ?_⟩
  intro zoom feature
  rw [evaluate_compile,Expr.eval_eq]
  show (firstValue none [c.eval, d.eval] _).1 = _
  rw [same]
  exact firstValue_default c.eval defaulted.present _

theorem create {converted : Json} {a : Eval Value}
    (made : Conversion.body f schema = .ok converted)
    (read : ∀ ctx : Context, ctx.expected = some schema.valueType →
      ∃ c, Expr.read converted ctx = pure c ∧ c.type = schema.outputType ∧ c.eval = a) :
    ∃ p, PropertyExpression.create raw schema key = .ok p ∧
      ∀ zoom feature, (p.evaluate zoom feature).1 =
        .ok (Value.fallback (schema.valueOf default) (a (Session.start zoom feature)).1) := by
  let ctx := Context.root (some schema.valueType) key
  obtain ⟨c, first, type, rfl⟩ := read (ctx.derive (.index 1) none) rfl
  have expects : (ctx.derive (.index 2) (Common.expectation (some c.type))).expected =
      some schema.outputType := by
    rw [type,defaulted.form.expectation]
    rfl
  obtain ⟨d, second, type', value⟩ := defaulted.form.read (.inr expects)
  have whole : Expr.read (.arr [.str "coalesce", converted, Conversion.defaultOf f schema]) ctx =
      pure (ctx.expr schema.outputType (.coalesce [c, d])) := by
    refine Expr.read_coalesce.mpr ⟨c, d, schema.outputType, first, second, ?_, rfl, ?_⟩
    · rw [type,type']
      exact Ty.meet?_self _
    · intro expected found
      cases found
      exact schema.accepts_outputType
  refine ⟨⟨_⟩, (create_eq_ok defaulted.object defaulted.function).mpr
    ⟨converted, _, made, whole, rfl⟩, ?_⟩
  intro zoom feature
  rw [evaluate_compile,Expr.eval_eq]
  show (firstValue none [c.eval, d.eval] _).1 = _
  rw [value]
  exact firstValue_default c.eval defaulted.present _

end Defaulted

theorem evaluate_present {default : Json} {p : PropertyExpression}
    (defaulted : Defaulted raw schema f default) (created : create raw schema key = .ok p)
    (zoom : Option Float) (feature : Option Feature) :
    ∃ v, (p.evaluate zoom feature).1 = .ok v ∧ v.isNull = false := by
  obtain ⟨converted, ctx, c, _, _, value⟩ := defaulted.evaluate created
  exact ⟨_, value zoom feature, Value.fallback_isNull defaulted.present _⟩

theorem evaluate_present_missing :
    let raw : Json := .obj [("property", .str "kind")]
    let schema := (Schema.ofTypeName "string").withDefault (.str "bus")
    ∃ p, Defaulted raw schema ⟨some "kind", none, none, none, none, none⟩ (.str "bus") ∧
      create raw schema none = .ok p ∧
      ∃ v, (p.evaluate (some 3) none).1 = .ok v ∧ v.isNull = false := by
  intro raw schema
  have defaulted : Defaulted raw schema ⟨some "kind", none, none, none, none, none⟩ (.str "bus") :=
    ⟨by decide, rfl, rfl, rfl, rfl⟩
  let get : Expr := ⟨[.index 1, .index 1], .unknown,
    .get ⟨[.index 1, .index 1, .index 1], .string, .literal (.str "kind")⟩⟩
  let e : Expr := ⟨[], .string, .coalesce [⟨[.index 1], .string, .assert .string [get]⟩,
    ⟨[.index 2], .string, .literal (.str "bus")⟩]⟩
  have created : create raw schema none = .ok ⟨e.compile⟩ :=
    (create_eq_ok rfl rfl).mpr ⟨_, e, rfl, rfl, rfl⟩
  exact ⟨_, defaulted, created, evaluate_present defaulted created (some 3) none⟩

end PropertyExpression

end MapStyle
