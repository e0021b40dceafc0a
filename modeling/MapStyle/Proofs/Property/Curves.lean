import MapStyle.Proofs.Evaluation.Blending
import MapStyle.Proofs.Evaluation.Curve
import MapStyle.Proofs.Property.Operands

namespace MapStyle

open Reading Attempt

-- How a curve function goes from one stop to the next: it stays where it is, or it
-- eases between values that blend.
inductive Conversion.Eases (f : StopFunction) (schema : Schema) : Interpolation → Prop
  | interval : kindOf f schema = .ok .interval → Eases f schema .step
  | exponential : kindOf f schema = .ok .exponential → schema.valueType.blends = true →
      (∀ base, f.base = some base → base.isFinite = true ∧ 0 < base) →
      Eases f schema (.exponential (f.base.getD 1))

namespace Conversion.Eases

variable {f : StopFunction} {schema : Schema} {interpolation : Interpolation}

theorem base_valid (valid : ∀ base, f.base = some base → base.isFinite = true ∧ 0 < base) :
    (f.base.getD 1).isFinite = true ∧ 0 < f.base.getD 1 := by
  cases given : f.base with
  | none => exact ⟨by decide, by decide⟩
  | some base => exact valid base given

theorem blends (eases : Eases f schema interpolation) :
    (interpolation.isStep || schema.outputType.blends) = true := by
  cases eases with
  | interval => rfl
  | exponential kind blends valid =>
      have notEnum : schema.typeName ≠ "enum" := by
        intro enum
        rw [Schema.valueType,if_pos enum] at blends
        cases blends
      rw [Schema.outputType,if_neg notEnum,blends]
      rfl

end Conversion.Eases

theorem Json.ofFloat_float? {x : Float} (finite : x.isFinite = true) (positive : 0 < x) :
    (Json.ofFloat x).float? = some x := by
  obtain ⟨n, written, same, _⟩ := Number.ofFloat?_finite finite
  rw [Json.ofFloat,written]
  obtain ⟨_, _, one | ⟨_, zero⟩ | ⟨_, zero⟩⟩ := Float.beq_iff_ne_nan_and_eq.mp same
  · exact congrArg some one
  · rw [zero] at positive
    exact absurd positive (by decide)
  · rw [zero] at positive
    exact absurd positive (by decide)

theorem Conversion.Eases.read {f : StopFunction} {schema : Schema} {i : Interpolation}
    (eases : Eases f schema i) (ctx : Context) : interpolation ctx i.toJson = pure i := by
  rw [interpolation_eq_pure]
  cases eases with
  | interval => exact ⟨rfl, nofun⟩
  | exponential kind blends valid =>
      obtain ⟨finite, positive⟩ := base_valid valid
      refine ⟨?_, ?_⟩
      · rw [Interpolation.toJson,Interpolation.ofJson?,Json.ofFloat_float? finite positive]
        rfl
      · intro base same
        cases same
        exact ⟨finite, positive⟩

def Conversion.Ascending (points : List (Number × Json)) : Prop :=
  points.Pairwise fun p q => p.1.toFloat < q.1.toFloat

namespace Conversion

def pointStops (points : List (Number × Json)) : List (Json × Json) :=
  points.map fun p => (.num p.1, p.2)

def valueStops (schema : Schema) (points : List (Number × Json)) : List (Stop Value) :=
  points.map fun p => ⟨p.1.toFloat, schema.valueOf p.2⟩

theorem valueStops_ascending (schema : Schema) {points : List (Number × Json)}
    (ascending : Ascending points) : Stop.Ascending (valueStops schema points) := by
  constructor
  · intro s member
    obtain ⟨p, _, rfl⟩ := List.mem_map.mp member
    exact Double.isNaN_of_isFinite p.1.toFloat_isFinite
  · exact List.pairwise_map.mpr ascending

end Conversion

namespace Reading

open Conversion

variable {schema : Schema} {ctx : Context}

-- The last stop read lies below all that are still to be read.
theorem stops_constants (known : schema.Known) (expected : ctx.expected = some schema.valueType)
    {points : List (Number × Json)} {common : Common} (last : Option Float) (position : Nat)
    (shared : common = none ∨ common = some schema.outputType)
    (above : ∀ y, last = some y → ∀ p ∈ points, y < p.1.toFloat) (ascending : Ascending points)
    (outputs : ∀ p ∈ points, schema.valueType.admits p.2 = true) :
    ∃ final ss, stops ctx common last position
        (operandPairs (withConstants schema (pointStops points))) = (final, pure ss) ∧
      (ss.map fun s => (⟨s.input, s.output.eval⟩ : Stop (Eval Value))) =
        (valueStops schema points).map (fun s => ⟨s.input, pure s.output⟩) ∧
      final = if points = [] then common else some schema.outputType := by
  induction points generalizing common last position with
  | nil => exact ⟨common, [], rfl, rfl, rfl⟩
  | cons p rest ih =>
      obtain ⟨below, ascending⟩ := List.pairwise_cons.mp ascending
      have form := Schema.form_of_admits known (outputs p List.mem_cons_self)
      obtain ⟨e, made, evaluates⟩ := form.output (position + 1) expected shared
      have order : (last.any fun y => p.1.toFloat ≤ y) = false := by
        rw [Option.any_eq_false]
        intro y given
        exact decide_eq_false (Double.not_le_of_lt (above y given p List.mem_cons_self))
      have above' : ∀ y, some p.1.toFloat = some y → ∀ q ∈ rest, y < q.1.toFloat := by
        intro y same q member
        cases same
        exact below q member
      obtain ⟨final, ss, others, same, common⟩ := ih (some p.1.toFloat) (position + 2) (.inr rfl)
        above' ascending fun q member => outputs q (List.mem_cons_of_mem _ member)
      refine ⟨final, ⟨p.1.toFloat, e⟩ :: ss, ?_, ?_, ?_⟩
      · exact stops_cons_eq_pure.mpr ⟨p.1.toFloat, e, _, ss, rfl, order, made, others, rfl⟩
      · rw [List.map_cons,same,evaluates]
        rfl
      · rw [common]
        split <;> rfl

end Reading

theorem Expr.read_curve {schema : Schema} {f : StopFunction} {i : Interpolation}
    {points : List (Number × Json)} {input : Json} {a : Eval Value} {ctx : Context}
    (known : schema.Known) (expected : ctx.expected = some schema.valueType)
    (eases : Conversion.Eases f schema i) (filled : points ≠ [])
    (ascending : Conversion.Ascending points)
    (outputs : ∀ p ∈ points, schema.valueType.admits p.2 = true)
    (given : ∀ ctx : Context, ctx.expected = some .number →
      ∃ e, Expr.read input ctx = pure e ∧ e.eval = a) :
    ∃ e, Expr.read (.arr (.str "curve" :: i.toJson :: input :: Conversion.flatStops
        (Conversion.withConstants schema (Conversion.pointStops points)))) ctx = pure e ∧
      e.type = schema.outputType ∧
      e.eval = (do
        Eval.along i ((Conversion.valueStops schema points).map fun s => ⟨s.input, pure s.output⟩)
          (← Eval.number (← a))) := by
  obtain ⟨common, ss, made, stops, shared⟩ := stops_constants known expected none 3 (.inl rfl)
    nofun ascending outputs
  rw [if_neg filled] at shared
  obtain ⟨x, read, evaluates⟩ := given (ctx.derive (.index 2) (some .number)) rfl
  let args := Conversion.flatStops (Conversion.withConstants schema (Conversion.pointStops points))
  have length : args.length = 2 * points.length := by
    simp [args,Conversion.withConstants,Conversion.pointStops]
  refine ⟨ctx.expr schema.outputType (.curve i x ss), ?_, rfl, ?_⟩
  · refine Expr.read_operator_of_expected .curve (i.toJson :: input :: args) ?_ expected
      schema.accepts_outputType ?_
    · have several := List.length_pos_iff.mpr filled
      simp only [Operator.arity,Arity.fault?,List.length_cons,length]
      rw [if_neg (by omega)]
    · show curve ctx (⟨i.toJson, Expr.read i.toJson⟩ :: ⟨input, Expr.read input⟩ ::
        Expr.operands args) = _
      refine curve_eq_pure.mpr ⟨_, i, x, common, ss, pairs?_eq_some.mpr
        (Expr.operands_flatStops _), eases.read ctx, read, made, ?_, ?_⟩
      · rw [shared]
        exact eases.blends
      · rw [shared]
        rfl
  · rw [Expr.eval_eq]
    show (x.eval >>= fun v => Eval.number v >>= Eval.along i
      (ss.map fun s => (⟨s.input, s.output.eval⟩ : Stop (Eval Value)))) = _
    rw [evaluates,stops]

namespace Value

inductive Blendable : Ty → Value → Prop
  | number (x : Float) : Blendable .number (.num x)
  | color (c : Color) : Blendable .color (.color c)
  | numbers (xs : List Float) (n : Nat) : xs.length = n →
      Blendable (.array .number (some n)) (.arr (xs.map .num))

theorem Blendable.sameShape {type : Ty} {v w : Value} (first : Blendable type v)
    (second : Blendable type w) : v.SameShape w := by
  cases first with
  | number x =>
      cases second with
      | number y => exact .num x y
  | color c =>
      cases second with
      | color d => exact .color c d
  | numbers xs n length =>
      cases second with
      | numbers ys _ length' =>
          refine .arr ?_ ?_
          · rw [List.length_map,List.length_map,length,length']
          · intro i a b here there
            rw [List.getElem?_map,Option.map_eq_some_iff] at here there
            obtain ⟨x, _, rfl⟩ := here
            obtain ⟨y, _, rfl⟩ := there
            exact .num x y

theorem Blendable.blend {type : Ty} {v w : Value} (first : Blendable type v)
    (second : Blendable type w) (t : Float) :
    ∃ blended, Value.blend t v w = .ok blended ∧ blended.isNull = false := by
  obtain ⟨blended, done⟩ := (first.sameShape second).blends t
  refine ⟨blended, done, ?_⟩
  cases blended_of_ok done <;> rfl

theorem ofItems_numbers {items : List Json}
    (admits : items.all (fun j => Ty.number.admits j) = true) :
    ∃ xs : List Float, xs.length = items.length ∧ ofItems items = xs.map .num := by
  induction items with
  | nil => exact ⟨[], rfl, rfl⟩
  | cons j rest ih =>
      rw [List.all_cons,Bool.and_eq_true] at admits
      obtain ⟨here, others⟩ := admits
      obtain ⟨xs, length, same⟩ := ih others
      cases j with
      | num n =>
          refine ⟨n.toFloat :: xs, ?_, ?_⟩
          · rw [List.length_cons,List.length_cons,length]
          · rw [ofItems,ofJson,same,List.map_cons]
      | _ => cases here

end Value

theorem Schema.Form.blendable {schema : Schema} {data written : Json} {v : Value}
    (form : schema.Form data written v) (blends : schema.outputType.blends = true) :
    Value.Blendable schema.outputType v := by
  cases form with
  | scalar data label =>
      cases data with
      | num n =>
          rw [← Option.some.inj label]
          exact .number _
      | str s => rw [← Option.some.inj label] at blends; cases blends
      | bool b => rw [← Option.some.inj label] at blends; cases blends
      | _ => cases label
  | color s c output parsed =>
      rw [output]
      exact .color c
  | array items item length type output admits =>
      rw [output] at blends ⊢
      cases item <;> cases length <;> try cases blends
      rename_i n
      rw [Ty.admits,Bool.and_eq_true] at admits
      obtain ⟨counted, numbers⟩ := admits
      obtain ⟨xs, same, values⟩ := Value.ofItems_numbers numbers
      rw [Value.ofJson,values]
      refine .numbers xs n ?_
      rw [same]
      exact (beq_iff_eq.mp counted).symm

def StopFunction.input (f : StopFunction) (zoom : Option Float) (feature : Option Feature) :
    Option Float :=
  match f.property with
  | none => zoom
  | some name => (feature.bind (· name)).bind Json.float?

namespace Conversion

variable {f : StopFunction} {schema : Schema}

def curveInput (f : StopFunction) : Json :=
  match f.property with
  | none => .arr [.str "zoom"]
  | some name => .arr [.str "number", property name]

theorem body_curve {i : Interpolation} {n : Number} {output : Json} {rest : List (Json × Json)}
    (eases : Eases f schema i) (space : f.colorSpace.getD "rgb" = "rgb")
    (stops : f.stops = some ((.num n, output) :: rest)) :
    body f schema = .ok (.arr (.str "curve" :: i.toJson :: curveInput f ::
      flatStops (withConstants schema ((.num n, output) :: rest)))) := by
  have kind : ∃ k, kindOf f schema = .ok k ∧ (k = .interval ∧ i = .step ∨
      k = .exponential ∧ i = .exponential (f.base.getD 1)) := by
    cases eases with
    | interval kind => exact ⟨_, kind, .inl ⟨rfl, rfl⟩⟩
    | exponential kind blends valid => exact ⟨_, kind, .inr ⟨rfl, rfl⟩⟩
  obtain ⟨k, kind, ⟨rfl, rfl⟩ | ⟨rfl, rfl⟩⟩ := kind
  all_goals
    cases named : f.property with
    | none =>
        simp only [body,stops,named,space,ne_eq,not_true_eq_false,if_false,Json.isObject,
          Bool.false_eq_true,Option.isSome_none,ofZoom,kind,List.map_cons,curveInput]
        rfl
    | some name =>
        simp only [body,stops,named,space,ne_eq,not_true_eq_false,if_false,Json.isObject,
          Bool.false_eq_true,Option.isSome_some,if_true,ofProperty,kind,inputType?,List.map_cons,
          curveInput,Option.getD_some]
        rfl

end Conversion

namespace Eval

theorem along_result (i : Interpolation) {stops : List (Stop Value)}
    (ascending : Stop.Ascending stops) (v : Value) (s : Session) :
    ((do along i (stops.map fun s => ⟨s.input, pure s.output⟩) (← number v) : Eval Value) s).1 =
      match v with
      | .num x => i.valueAt stops x
      | other => .error (.typeMismatch .number other.typeOf) := by
  cases v with
  | num x =>
      show (along i _ x s).1 = _
      rw [along_pure i ascending]
      rfl
  | _ => rfl

def curveInput (f : StopFunction) : Eval Value :=
  match f.property with
  | none => do
      let z ← zoom
      pure (.num z)
  | some name => propertyOf .number name

theorem curveInput_fallback (f : StopFunction) (default : Value) {next : Value → Eval Value}
    {result : Value → Except EvalError Value} (settled : ∀ v s, (next v s).1 = result v)
    (zoom : Option Float) (feature : Option Feature) :
    Value.fallback default ((do next (← curveInput f)) (Session.start zoom feature)).1 =
      match f.input zoom feature with
      | some x => Value.fallback default (result (.num x))
      | none => default := by
  unfold curveInput StopFunction.input
  cases f.property with
  | none =>
      cases zoom with
      | none => rfl
      | some z => exact congrArg _ (settled (.num z) _)
  | some name =>
      simp only [propertyOf_fallback _ name default settled,Session.start]
      cases feature.bind (· name) with
      | none => rfl
      | some j =>
          cases j with
          | num n => rfl
          | arr items => cases items <;> rfl
          | _ => rfl

end Eval

theorem Expr.read_curveInput (f : StopFunction) {ctx : Context}
    (expected : ctx.expected = some .number) :
    ∃ e, Expr.read (Conversion.curveInput f) ctx = pure e ∧ e.eval = Eval.curveInput f := by
  unfold Conversion.curveInput Eval.curveInput
  cases f.property with
  | some name => exact Expr.read_expected .number rfl (fun _ _ => rfl) name expected
  | none =>
      refine ⟨ctx.expr .number .zoom, ?_, Expr.eval_eq _⟩
      exact Expr.read_operator_of_expected .zoom [] rfl expected rfl rfl

theorem Conversion.Eases.between {f : StopFunction} {schema : Schema} {i : Interpolation}
    {points : List (Number × Json)} {x : Float} {chosen : Stop Value × Option (Stop Value)}
    (eases : Eases f schema i) (known : schema.Known)
    (outputs : ∀ p ∈ points, schema.valueType.admits p.2 = true)
    (found : Stop.around x (valueStops schema points) = some chosen) :
    ∃ v, i.between x chosen = .ok v ∧ v.isNull = false := by
  have form : ∀ s ∈ valueStops schema points, ∃ data written, schema.Form data written s.output := by
    intro s member
    obtain ⟨p, belongs, rfl⟩ := List.mem_map.mp member
    exact ⟨_, _, Schema.form_of_admits known (outputs p belongs)⟩
  obtain ⟨lower, next⟩ := chosen
  obtain ⟨here, ahead⟩ := Stop.around_mem found
  obtain ⟨_, _, first⟩ := form lower here
  cases next with
  | none => exact ⟨_, rfl, first.isNull⟩
  | some upper =>
      obtain ⟨_, _, second⟩ := form upper (ahead upper rfl)
      have blends := eases.blends
      unfold Interpolation.between
      cases step : i.isStep with
      | true => exact ⟨_, rfl, first.isNull⟩
      | false =>
          rw [step,Bool.false_or] at blends
          exact (first.blendable blends).blend (second.blendable blends) _

namespace PropertyExpression

variable {raw : Json} {schema : Schema} {f : StopFunction} {default : Json}

theorem evaluate_curve (defaulted : Defaulted raw schema f default) {i : Interpolation}
    (eases : Conversion.Eases f schema i) (space : ∀ s, f.colorSpace = some s → s = "rgb")
    {points : List (Number × Json)} (stops : f.stops = some (Conversion.pointStops points))
    (filled : points ≠ []) (ascending : Conversion.Ascending points)
    (outputs : ∀ p ∈ points, schema.valueType.admits p.2 = true) (key : Option String) :
    ∃ p, create raw schema key = .ok p ∧ ∀ (zoom : Option Float) (feature : Option Feature),
      ((∀ x, f.input zoom feature = some x → x.isNaN = true) →
        (p.evaluate zoom feature).1 = .ok (schema.valueOf default)) ∧
      ∀ x, f.input zoom feature = some x → x.isNaN = false →
        ∃ chosen, Stop.around x (Conversion.valueStops schema points) = some chosen ∧
          (p.evaluate zoom feature).1 = i.between x chosen := by
  have made : Conversion.body f schema = .ok (.arr (.str "curve" :: i.toJson ::
      Conversion.curveInput f ::
      Conversion.flatStops (Conversion.withConstants schema (Conversion.pointStops points)))) := by
    obtain ⟨first, rest, rfl⟩ := List.exists_cons_of_ne_nil filled
    exact Conversion.body_curve eases (Conversion.colorSpace_getD space) stops
  obtain ⟨p, created, value⟩ := defaulted.create made fun ctx expected =>
    Expr.read_curve defaulted.known expected eases filled ascending outputs fun ctx expected =>
      Expr.read_curveInput f expected
  refine ⟨p, created, ?_⟩
  intro zoom feature
  have sorted := Conversion.valueStops_ascending schema ascending
  have whole := (value zoom feature).trans (congrArg Except.ok
    (Eval.curveInput_fallback f (schema.valueOf default) (Eval.along_result i sorted) zoom feature))
  constructor
  · intro missing
    rw [whole]
    cases given : f.input zoom feature with
    | none => rfl
    | some x => simp only [Interpolation.valueAt,missing x given,if_true,Value.fallback]
  · intro x given number
    have stop : Conversion.valueStops schema points ≠ [] := by
      rw [Conversion.valueStops,ne_eq,List.map_eq_nil_iff]
      exact filled
    obtain ⟨chosen, found⟩ := Stop.around_some sorted number stop
    obtain ⟨v, between, present⟩ := eases.between defaulted.known outputs found
    refine ⟨chosen, found, ?_⟩
    rw [whole,given]
    simp only [Interpolation.valueAt,number,Bool.false_eq_true,if_false,found,between,
      Value.fallback,present]

theorem evaluate_curve_width :
    let zero : Number := .int 0 (by decide)
    let ten : Number := .int 10 (by decide)
    let points : List (Number × Json) := [(zero, .num zero), (ten, .num ten)]
    let raw : Json := .obj [("base", .num (.float 1.5 (by decide))),
      ("stops", .arr [.arr [.num zero, .num zero], .arr [.num ten, .num ten]])]
    let f : StopFunction :=
      ⟨none, none, some 1.5, none, none, some (Conversion.pointStops points)⟩
    let schema := ((Schema.ofTypeName "number").withDefault (.num ten)).interpolated
    let lower : Stop Value := ⟨zero.toFloat, .num zero.toFloat⟩
    let upper : Stop Value := ⟨ten.toFloat, .num ten.toFloat⟩
    Defaulted raw schema f (.num ten) ∧ Conversion.Eases f schema (.exponential 1.5) ∧
      Conversion.Ascending points ∧
      ∃ p, create raw schema none = .ok p ∧
        (p.evaluate none none).1 = .ok (.num ten.toFloat) ∧
        (p.evaluate (some 4) none).1 =
          (Interpolation.exponential 1.5).between 4 (lower, some upper) := by
  intro zero ten points raw f schema lower upper
  have defaulted : Defaulted raw schema f (.num ten) := ⟨by decide, rfl, rfl, rfl, rfl⟩
  have valid : ∀ base, f.base = some base → base.isFinite = true ∧ 0 < base := by
    intro base given
    cases given
    decide
  have eases : Conversion.Eases f schema (.exponential 1.5) := .exponential rfl rfl valid
  have ascending : Conversion.Ascending points :=
    List.pairwise_pair.mpr (by decide)
  have outputs : ∀ p ∈ points, schema.valueType.admits p.2 = true := by decide
  obtain ⟨p, created, value⟩ := evaluate_curve defaulted eases (fun _ named => by cases named)
    rfl (by simp [points]) ascending outputs none
  refine ⟨defaulted, eases, ascending, p, created, ?_, ?_⟩
  · exact (value none none).1 fun _ given => by cases given
  · obtain ⟨chosen, found, evaluated⟩ := (value (some 4) none).2 4 rfl (by decide)
    have passed : ∀ s ∈ [lower], s.input ≤ 4 := by
      intro s member
      rw [List.mem_singleton.mp member]
      decide
    have ahead : ∀ s ∈ [upper], 4 < s.input := by
      intro s member
      rw [List.mem_singleton.mp member]
      decide
    have beyond : ¬ (4 : Float) ≤ lower.input := by decide
    have around : Stop.around 4 (lower :: [] ++ [upper]) = some (lower, some upper) :=
      Stop.around_past beyond passed ahead
    have stops : Conversion.valueStops schema points = lower :: [] ++ [upper] := rfl
    rw [stops,around] at found
    rw [evaluated,← Option.some.inj found]

end PropertyExpression

end MapStyle
