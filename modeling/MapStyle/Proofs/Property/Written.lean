import MapStyle.Proofs.Property.Fallback
import MapStyle.Proofs.RoundTrip.Expression

-- The written form of a property expression is expression data, and a property
-- expression can be created from that. It comes to the same results where compiling has
-- left the expression as it was. Where compiling has put a value in its place, that
-- depends on the value: the form written for a color rounds its channels, an infinity has
-- no numeral, and an array is only read where an array like it may stand.

namespace MapStyle

open Reading Attempt

namespace Expr

theorem eval_unplaced (e : Expr) : e.unplaced.eval = e.eval := by
  induction e using Expr.induct with
  | step e ih => rw [unplaced_eq,eval_eq,eval_eq e,Node.map_map,Node.map_congr_left ih]

theorem read_again {data : Json} {ctx ctx' : Context} {e : Expr} (like : ctx.Like ctx')
    (read : Expr.read data ctx = pure e) (steady : e.again = e.unplaced) :
    ∃ e', Expr.read e.written ctx' = pure e' ∧ e'.eval = e.eval := by
  obtain ⟨e', read', alike⟩ := e.returns data ctx ctx' like read
  refine ⟨e', read', ?_⟩
  rw [← eval_unplaced e',alike.again,steady,eval_unplaced]

theorem written_isObject (e : Expr) : e.written.isObject = false := by
  rw [written_eq]
  cases e.node with
  | literal v =>
      cases v with
      | num x =>
          show (Json.ofFloat x).isObject = false
          unfold Json.ofFloat
          split <;> rfl
      | _ => rfl
  | assertArray item length input => cases item <;> cases length <;> rfl
  | _ => rfl

end Expr

inductive Schema.Restores (schema : Schema) : Value → Prop
  | data (v : Value) : v.again = v →
      schema.valueType.accepts (constantType (some schema.valueType) v.toJson) = true →
      Restores schema v
  | color (c : Color) : Color.ofCss? c.css = some c → schema.valueType.accepts .color = true →
      Restores schema (.color c)

theorem Schema.Restores.read {schema : Schema} {v : Value} (restores : schema.Restores v)
    (key : Option String) :
    ∃ e, Expr.read v.written (Context.root (some schema.valueType) key) = pure e ∧
      e.eval = pure v := by
  cases restores with
  | color c parsed fits =>
      refine ⟨_, Expr.read_colorText c.css ?_, Expr.eval_colorText parsed _⟩
      rintro type ⟨⟩
      exact fits
  | data v same fits =>
      let ctx := Context.root (some schema.valueType) key
      have like : ctx.Like ctx := ⟨rfl, .nil⟩
      obtain ⟨read, _⟩ := constant_returns like v.toJson
      have written : (constant ctx v.toJson).written = v.written := by
        rw [Expr.written_eq]
        exact congrArg Value.written same
      have stable : v.toJson.again = v.toJson := congrArg Value.toJson same
      rw [written,stable] at read
      refine ⟨constant ctx v.toJson, Expr.read_eq_pure.mpr ⟨read, ?_⟩, ?_⟩
      · rintro type ⟨⟩
        exact fits
      · rw [Expr.eval_eq]
        exact congrArg pure same

-- Numbers are such values, but for the negative zero and those without a numeral.
theorem Schema.restores_number {schema : Schema} {x : Float} (finite : x.isFinite = true)
    (signed : x ≠ -0) (fits : schema.valueType.accepts .number = true) :
    schema.Restores (.num x) := by
  obtain ⟨n, numeral, _⟩ := Number.ofFloat?_finite finite
  have written : Json.ofFloat x = .num n := by rw [Json.ofFloat,numeral]
  have read : (Json.ofFloat x).float? = some n.toFloat := by
    rw [written]
    rfl
  have same : n.toFloat = x := (Double.again_eq read).trans (Double.again_of_finite finite signed)
  refine .data _ ?_ ?_
  · show Value.ofJson (Json.ofFloat x) = .num x
    rw [written,← same]
    rfl
  · show schema.valueType.accepts (constantType _ (Json.ofFloat x)) = true
    rwa [written,Schema.Form.constantType_scalar rfl]

namespace PropertyExpression

variable {raw : Json} {schema : Schema} {key key' : Option String}

-- What is written for the property expression stands for it: a value for itself, and in
-- any other expression each constant for itself.
def Steady (schema : Schema) (p : PropertyExpression) : Prop :=
  match p.compiled.expr.node with
  | .literal v => schema.Restores v
  | _ => p.compiled.expr.again = p.compiled.expr.unplaced

theorem read_written {p : PropertyExpression} (created : create raw schema key = .ok p)
    (steady : p.Steady schema) (key' : Option String) :
    ∃ e, Expr.read p.written (Context.root (some schema.valueType) key') = pure e ∧
      e.eval = p.compiled.expr.eval := by
  obtain ⟨data, e, _, read, rfl⟩ := create_iff_read.mp created
  unfold Steady at steady
  split at steady
  · rename_i v folded
    obtain ⟨e', read', value⟩ := steady.read key'
    have written : e.compile.expr.written = v.written := by
      rw [Expr.written_eq,folded]
      rfl
    refine ⟨e', ?_, ?_⟩
    · rw [PropertyExpression.written,written]
      exact read'
    · rw [value,Expr.eval_eq e.compile.expr,folded]
      rfl
  · rename_i unfolded
    obtain same | ⟨v, folded⟩ := e.compile_expr
    · have like : (Context.root (some schema.valueType) key).Like
          (Context.root (some schema.valueType) key') := ⟨rfl, .nil⟩
      rw [PropertyExpression.written]
      rw [same] at steady ⊢
      exact Expr.read_again like read steady
    · exact absurd folded (unfolded v)

theorem create_colorText (colored : schema.valueType = .color) {s : String} {c : Color}
    (parsed : Color.ofCss? s = some c) :
    ∃ p, create (.arr [.str "parse-color", .str s]) schema key = .ok p ∧
      p.written = .arr [.str "parse-color", .str c.css] ∧
      ∀ zoom feature, (p.evaluate zoom feature).1 = .ok (.color c) := by
  let ctx := Context.root (some schema.valueType) key
  let e := Expr.ofColorText ctx s
  have read : Expr.read (.arr [.str "parse-color", .str s]) ctx = pure e := by
    refine Expr.read_colorText s ?_
    rintro type ⟨⟩
    rw [colored]
    rfl
  have value : e.eval = pure (.color c) := Expr.eval_colorText parsed ctx
  have folded : e.compile.expr = ⟨e.path, e.type, .literal (.color c)⟩ := by
    unfold Expr.compile
    rw [value]
    rfl
  refine ⟨⟨e.compile⟩, create_iff_read.mpr ⟨_, e, dataOf_expression rfl, read, rfl⟩, ?_, ?_⟩
  · rw [PropertyExpression.written,folded,Expr.written_eq]
    rfl
  · intro zoom feature
    rw [evaluate_compile,value]
    rfl

theorem create_written {p : PropertyExpression} (created : create raw schema key = .ok p)
    (steady : p.Steady schema) :
    ∃ q, create p.written schema key' = .ok q ∧
      ∀ zoom feature, (q.evaluate zoom feature).1 = (p.evaluate zoom feature).1 := by
  obtain ⟨e, read, value⟩ := read_written created steady key'
  have expression : dataOf p.written schema = .ok p.written :=
    dataOf_expression p.compiled.expr.written_isObject
  refine ⟨⟨e.compile⟩, create_iff_read.mpr ⟨_, e, expression, read, rfl⟩, ?_⟩
  intro zoom feature
  rw [evaluate_compile,value]
  rfl

theorem create_written_width :
    let raw : Json := .arr [.str "curve", .arr [.str "linear"], .arr [.str "zoom"],
      .num (.int 0 (by decide)), .num (.float 1 rfl),
      .num (.int 10 (by decide)), .num (.int 5 (by decide))]
    let schema := Schema.ofTypeName "number"
    ∃ p, create raw schema (some "width") = .ok p ∧ p.Steady schema ∧
      ∃ q, create p.written schema none = .ok q ∧
        ∀ zoom feature, (q.evaluate zoom feature).1 = (p.evaluate zoom feature).1 := by
  intro raw schema
  let e : Expr := ⟨[.key "width"], .number, .curve .linear
    ⟨[.key "width", .index 2], .number, .zoom⟩
    [⟨0, ⟨[.key "width", .index 4], .number, .literal (.num 1)⟩⟩,
      ⟨10, ⟨[.key "width", .index 6], .number, .literal (.num 5)⟩⟩]⟩
  have created : create raw schema (some "width") = .ok ⟨e.compile⟩ := rfl
  have steady : Steady schema ⟨e.compile⟩ := (rfl : e.again = e.unplaced)
  exact ⟨_, created, steady, create_written created steady⟩

-- A color whose red is 0.165. It is written as the byte 42, which stands for less than that.
theorem create_written_rounds :
    let raw : Json := .arr [.str "parse-color", .str "hsl(120, 50%, 33%)"]
    let schema := Schema.ofTypeName "color"
    ∃ p, create raw schema none = .ok p ∧
      ¬ ∃ q, create p.written schema none = .ok q ∧
        ∀ zoom feature, (q.evaluate zoom feature).1 = (p.evaluate zoom feature).1 := by
  intro raw schema
  obtain ⟨c, parsed⟩ : ∃ c, Color.ofCss? "hsl(120, 50%, 33%)" = some c :=
    Option.isSome_iff_exists.mp (by decide +kernel)
  obtain ⟨c', parsed'⟩ : ∃ c', Color.ofCss? "rgba(42,126,42,1)" = some c' :=
    Option.isSome_iff_exists.mp (by decide +kernel)
  have css : (Color.ofCss? "hsl(120, 50%, 33%)").map Color.css = some "rgba(42,126,42,1)" := by
    decide +kernel
  have apart : (Color.ofCss? "hsl(120, 50%, 33%)").map (·.red.toBits) ≠
      (Color.ofCss? "rgba(42,126,42,1)").map (·.red.toBits) := by
    decide +kernel
  have colored : schema.valueType = .color := rfl
  obtain ⟨p, created, written, value⟩ := create_colorText colored parsed
  obtain ⟨q, created', _, value'⟩ := create_colorText colored parsed'
  refine ⟨p, created, ?_⟩
  rintro ⟨other, again, same⟩
  rw [parsed] at css
  rw [written,Option.some.inj css,created'] at again
  cases again
  have results := (value' none none).symm.trans ((same none none).trans (value none none))
  have one : c' = c := Value.color.inj (Except.ok.inj results)
  rw [parsed,parsed',one] at apart
  exact apart rfl

end PropertyExpression

end MapStyle
