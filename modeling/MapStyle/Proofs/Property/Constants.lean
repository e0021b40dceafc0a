import MapStyle.Evaluation.Run
import MapStyle.Proofs.Types.Expectation
import MapStyle.Property.Conversion

namespace MapStyle

open Reading Attempt

theorem Expr.read_parseColor {data : Json} {text : Expr} {ctx : Context}
    (read : Expr.read data (ctx.derive (.index 1) (some .string)) = pure text)
    (fits : ∀ type, ctx.expected = some type → type.accepts .color = true) :
    Expr.read (.arr [.str "parse-color", data]) ctx = pure (ctx.expr .color (.parseColor text)) := by
  refine (Expr.read_operator_eq_pure .parseColor [data] rfl).mpr ⟨?_, fits⟩
  show parseColor ctx ⟨data, Expr.read data⟩ = _
  exact parseColor_eq_pure.mpr ⟨text, read, rfl⟩

theorem Expr.eval_parseColor (ctx : Context) (text : Expr) :
    (ctx.expr .color (.parseColor text)).eval = (do Eval.color (← text.eval)) :=
  Expr.eval_eq _

def Expr.ofColorText (ctx : Context) (s : String) : Expr :=
  ctx.expr .color (.parseColor (constant (ctx.derive (.index 1) (some .string)) (.str s)))

theorem Expr.read_colorText (s : String) {ctx : Context}
    (fits : ∀ type, ctx.expected = some type → type.accepts .color = true) :
    Expr.read (.arr [.str "parse-color", .str s]) ctx = pure (ofColorText ctx s) :=
  Expr.read_parseColor rfl fits

theorem Expr.eval_colorText {s : String} {c : Color} (parsed : Color.ofCss? s = some c)
    (ctx : Context) : (ofColorText ctx s).eval = pure (.color c) := by
  have said : (constant (ctx.derive (.index 1) (some .string)) (.str s)).eval = pure (.str s) :=
    Expr.eval_eq _
  rw [ofColorText,Expr.eval_parseColor,said]
  show Eval.color (.str s) = _
  simp only [Eval.color,parsed]

namespace Schema

def Known (schema : Schema) : Prop :=
  schema.typeName ∈ ["number", "string", "boolean", "color", "enum", "array"]

instance (schema : Schema) : Decidable schema.Known :=
  inferInstanceAs (Decidable (_ ∈ _))

-- The value that a constant of the schema stands for: text is parsed for a color, any
-- other data is a value as it is.
def valueOf (schema : Schema) (data : Json) : Value :=
  if schema.typeName = "color" then ((data.string?.bind Color.ofCss?).map Value.color).getD .null
  else Value.ofJson data

def outputType (schema : Schema) : Ty :=
  if schema.typeName = "enum" then .string else schema.valueType

theorem accepts_outputType (schema : Schema) :
    schema.valueType.accepts schema.outputType = true := by
  unfold outputType valueType
  split
  · rfl
  · exact Ty.accepts_self _

-- The forms of constant data: what it is written as for the reader, and what it stands
-- for.
inductive Form (schema : Schema) : Json → Json → Value → Prop
  | scalar (data : Json) : Reading.labelType? data = some schema.outputType →
      Form schema data data (Value.ofJson data)
  | color (s : String) (c : Color) : schema.outputType = .color → Color.ofCss? s = some c →
      Form schema (.str s) (.arr [.str "parse-color", .str s]) (.color c)
  | array (items : List Json) (item : Ty) (length : Option Nat) :
      schema.valueType = .array item length → schema.outputType = .array item length →
      (Ty.array item length).admits (.arr items) = true →
      Form schema (.arr items) (.arr [.str "literal", .arr items]) (Value.ofJson (.arr items))

theorem valueType_named (schema : Schema) (type : Ty) (named : Ty.ofName? schema.typeName = some type)
    (notEnum : schema.typeName ≠ "enum") (notArray : schema.typeName ≠ "array") :
    schema.valueType = type ∧ schema.outputType = type := by
  unfold outputType valueType
  rw [if_neg notEnum,if_neg notEnum,if_neg notArray,named]
  exact ⟨rfl, rfl⟩

theorem form_of_scalar {schema : Schema} {data : Json} (notColor : schema.typeName ≠ "color")
    (scalar : Reading.labelType? data = some schema.outputType) :
    schema.Form data (Conversion.constant schema data) (schema.valueOf data) := by
  have written : Conversion.constant schema data = data := by
    unfold Conversion.constant
    split
    · rename_i color
      exact absurd color notColor
    · cases scalar
    · rfl
  rw [written,valueOf,if_neg notColor]
  exact .scalar data scalar

theorem form_of_named {schema : Schema} {data : Json} (type : Ty)
    (named : Ty.ofName? schema.typeName = some type) (scalar : type ∈ [Ty.number, .string, .boolean])
    (notEnum : schema.typeName ≠ "enum") (notArray : schema.typeName ≠ "array")
    (admits : schema.valueType.admits data = true) :
    schema.Form data (Conversion.constant schema data) (schema.valueOf data) := by
  obtain ⟨value, output⟩ := valueType_named schema type named notEnum notArray
  have notColor : schema.typeName ≠ "color" := by
    intro color
    rw [color] at named
    cases named
    simp at scalar
  refine form_of_scalar notColor ?_
  rw [value] at admits
  rw [output]
  simp only [List.mem_cons,List.not_mem_nil,or_false] at scalar
  rcases scalar with rfl | rfl | rfl <;> cases data <;> first | rfl | cases admits

theorem form_of_admits {schema : Schema} {data : Json} (known : schema.Known)
    (admits : schema.valueType.admits data = true) :
    schema.Form data (Conversion.constant schema data) (schema.valueOf data) := by
  simp only [Known,List.mem_cons,List.not_mem_nil,or_false] at known
  rcases known with number | string | boolean | color | enum | array
  · exact form_of_named .number (by rw [number]; rfl) (by simp) (by simp [number])
      (by simp [number]) admits
  · exact form_of_named .string (by rw [string]; rfl) (by simp) (by simp [string])
      (by simp [string]) admits
  · exact form_of_named .boolean (by rw [boolean]; rfl) (by simp) (by simp [boolean])
      (by simp [boolean]) admits
  · obtain ⟨value, output⟩ := valueType_named schema .color
      (by rw [color]; rfl) (by simp [color]) (by simp [color])
    rw [value] at admits
    cases data with
    | str s =>
        obtain ⟨c, parsed⟩ := Option.isSome_iff_exists.mp admits
        have written : Conversion.constant schema (.str s) = .arr [.str "parse-color", .str s] := by
          simp only [Conversion.constant,color]
        have value : schema.valueOf (.str s) = .color c := by
          simp only [valueOf,color,if_true,Json.string?,Option.bind_some,parsed,Option.map_some,
            Option.getD_some]
        rw [written,value]
        exact .color s c output parsed
    | _ => cases admits
  · have value : schema.valueType = Ty.oneOf schema.enumNames := by rw [valueType,if_pos enum]
    have output : schema.outputType = .string := by rw [outputType,if_pos enum]
    rw [value,Ty.oneOf] at admits
    cases data with
    | str s => exact form_of_scalar (by simp [enum]) (by rw [output]; rfl)
    | _ => cases admits
  · have notEnum : schema.typeName ≠ "enum" := by simp [array]
    have output : schema.outputType = schema.valueType := by rw [outputType,if_neg notEnum]
    have value : schema.valueType =
        .array ((schema.itemName.bind Ty.ofName?).getD .unknown) schema.length := by
      rw [valueType,if_neg notEnum,if_pos array]
    rw [value] at admits
    cases data with
    | arr items =>
        have written : Conversion.constant schema (.arr items) =
            .arr [.str "literal", .arr items] := by
          simp only [Conversion.constant,array]
        have plain : schema.valueOf (.arr items) = Value.ofJson (.arr items) := by
          rw [valueOf,if_neg (by simp [array])]
        rw [written,plain]
        exact .array items _ _ value (output.trans value) admits
    | _ => cases admits

namespace Form

variable {schema : Schema} {data written : Json} {value : Value}

theorem isNull (form : schema.Form data written value) : value.isNull = false := by
  cases form with
  | scalar data scalar => cases data <;> first | rfl | cases scalar
  | color s c output parsed => rfl
  | array items item length type output admits => rfl

theorem labelType?_ne_unknown {type : Ty} (scalar : labelType? data = some type) :
    type ≠ .unknown := by
  rintro rfl
  cases data <;> cases scalar

theorem outputType_ne_unknown (form : schema.Form data written value) :
    schema.outputType ≠ .unknown := by
  cases form with
  | scalar data scalar => exact labelType?_ne_unknown scalar
  | color s c output parsed => simp [output]
  | array items item length type output admits => simp [output]

theorem expectation (form : schema.Form data written value) :
    Common.expectation (some schema.outputType) = some schema.outputType := by
  have known : (schema.outputType != .unknown) = true :=
    bne_iff_ne.mpr form.outputType_ne_unknown
  simp only [Common.expectation,Option.filter_some,known,if_true]

theorem constantType_scalar {expected : Option Ty} {type : Ty}
    (scalar : labelType? data = some type) : constantType expected data = type := by
  have plain : Ty.ofJson data = type := by cases data <;> cases scalar <;> rfl
  unfold constantType
  split
  · rw [if_neg ?_,plain]
    cases data <;> cases scalar <;> simp [Ty.admits]
  · exact plain

theorem read (form : schema.Form data written value) {ctx : Context}
    (expected : ctx.expected = some schema.valueType ∨ ctx.expected = some schema.outputType) :
    ∃ e, Expr.read written ctx = pure e ∧ e.type = schema.outputType ∧ e.eval = pure value := by
  have fits : ∀ type, ctx.expected = some type → type.accepts schema.outputType = true := by
    intro type found
    rcases expected with given | given
    · rw [given,Option.some.injEq] at found
      subst found
      exact schema.accepts_outputType
    · rw [given,Option.some.injEq] at found
      subst found
      exact Ty.accepts_self _
  cases form with
  | scalar data scalar =>
      have type : (constant ctx data).type = schema.outputType := constantType_scalar scalar
      refine ⟨constant ctx data, Expr.read_eq_pure.mpr ⟨?_, type ▸ fits⟩, type, Expr.eval_eq _⟩
      cases data <;> first | rfl | cases scalar
  | color s c output parsed =>
      exact ⟨_, Expr.read_colorText s (output ▸ fits), output.symm, Expr.eval_colorText parsed ctx⟩
  | array items item length type output admits =>
      have expects : ctx.expected = some (.array item length) := by
        rcases expected with given | given
        · rw [given,type]
        · rw [given,output]
      have same : (constant ctx (.arr items)).type = schema.outputType := by
        show constantType ctx.expected (.arr items) = _
        rw [expects,output]
        exact if_pos admits
      refine ⟨constant ctx (.arr items), Expr.read_eq_pure.mpr ⟨?_, same ▸ fits⟩, same,
        Expr.eval_eq _⟩
      exact application_eq_pure.mpr ⟨.literal, rfl, rfl, withOne_eq_pure.mpr ⟨_, rfl, rfl⟩⟩

theorem output (form : schema.Form data written value) {ctx : Context} {common : Common}
    (position : Nat) (expected : ctx.expected = some schema.valueType)
    (shared : common = none ∨ common = some schema.outputType) :
    ∃ e, Reading.output ctx common position ⟨written, Expr.read written⟩ =
        (some schema.outputType, pure e) ∧
      e.eval = pure value := by
  have expects : (ctx.derive (.index position) common.expectation).expected = some schema.valueType ∨
      (ctx.derive (.index position) common.expectation).expected = some schema.outputType := by
    rcases shared with rfl | rfl
    · exact .inl expected
    · rw [form.expectation]
      exact .inr rfl
  obtain ⟨e, read, type, evaluates⟩ := form.read expects
  refine ⟨e, output_eq_pure.mpr ⟨read, schema.outputType, ?_, rfl⟩, evaluates⟩
  rw [type]
  rcases shared with rfl | rfl
  · rfl
  · exact Common.add_some_eq_ok.mpr (Ty.meet?_self _)

end Form

end Schema

end MapStyle
