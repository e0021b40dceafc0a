import MapStyle.Proofs.Property.Fallback

-- What converted functions hand to their operators: a property of the feature as input,
-- asserted to be of the type of the stops, and the stops one after the other.

namespace MapStyle

open Reading Attempt

namespace Eval

theorem get_apply (name : String) (s : Session) :
    ∃ s', Eval.get (.str name) s =
      match s.feature.bind (· name) with
      | some j => (.ok (Value.ofJson j), s')
      | none => (.error (.missingProperty name), s') := by
  show ∃ s', (do
    match ← property name with
    | some j => pure (Value.ofJson j)
    | none => fail (.missingProperty name) : Eval Value) s = _
  obtain ⟨zoom, feature, «variables», reads⟩ := s
  cases feature with
  | none => exact ⟨_, rfl⟩
  | some feature =>
      refine ⟨⟨zoom, some feature, «variables», reads ++ [name]⟩, ?_⟩
      cases found : feature name <;> simp [property,found]

def propertyOf (type : Ty) (name : String) : Eval Value :=
  firstOfType type .unknown [Eval.get (.str name)]

theorem propertyOf_fallback (type : Ty) (name : String) (default : Value)
    {next : Value → Eval Value} {result : Value → Except EvalError Value}
    (settled : ∀ v s, (next v s).1 = result v) (s : Session) :
    Value.fallback default ((do next (← propertyOf type name)) s).1 =
      match s.feature.bind (· name) with
      | some j =>
          if (Value.ofJson j).typeOf = type then Value.fallback default (result (Value.ofJson j))
          else default
      | none => default := by
  obtain ⟨s', got⟩ := get_apply name s
  simp [propertyOf,firstOfType,got]
  cases s.feature.bind (· name) with
  | none => rfl
  | some j =>
      by_cases fits : (Value.ofJson j).typeOf = type
      · simp only [fits,if_true]
        exact congrArg _ (settled _ s')
      · simp only [fits,if_false]
        rfl

end Eval

theorem Expr.read_property (name : String) {ctx : Context} (free : ctx.expected = none) :
    ∃ e, Expr.read (Conversion.property name) ctx = pure e ∧ e.eval = Eval.get (.str name) := by
  let text : Expr := constant (ctx.derive (.index 1) (some .string)) (.str name)
  refine ⟨ctx.expr .unknown (.get text), ?_, ?_⟩
  · refine (Expr.read_operator_eq_pure .get [.str name] rfl).mpr ⟨?_, ?_⟩
    · show Reading.get ctx ⟨.str name, Expr.read (.str name)⟩ = _
      exact get_eq_pure.mpr ⟨text, rfl, rfl⟩
    · intro type found
      rw [free] at found
      cases found
  · have said : text.eval = pure (.str name) := Expr.eval_eq text
    rw [Expr.eval_eq]
    show (do Eval.get (← text.eval)) = _
    rw [said]
    rfl

theorem Expr.read_asserted (op : Operator) {type : Ty} (counted : op.arity.fault? 2 = none)
    (asserts : ∀ ctx operands, operator op ctx operands = assert type ctx operands) (name : String)
    {ctx : Context} (fits : ∀ expected, ctx.expected = some expected → expected.accepts type = true) :
    ∃ e, Expr.read (.arr [.str op.tag, Conversion.property name]) ctx = pure e ∧ e.type = type ∧
      e.eval = Eval.propertyOf type name := by
  let here := ctx.deriveUnconstrained (.index 1)
  obtain ⟨get, inner, got⟩ := Expr.read_property name (rfl : here.expected = none)
  refine ⟨ctx.expr type (.assert type [get]), ?_, rfl, ?_⟩
  · refine (Expr.read_operator_eq_pure op [Conversion.property name] counted).mpr ⟨?_, fits⟩
    rw [asserts]
    exact assert_eq_pure.mpr ⟨[get], congrArg (· :: []) inner, rfl⟩
  · rw [Expr.eval_eq]
    show Eval.firstOfType type .unknown [get.eval] = _
    rw [got]
    rfl

theorem Expr.read_expected (op : Operator) {type : Ty} (counted : op.arity.fault? 2 = none)
    (asserts : ∀ ctx operands, operator op ctx operands = assert type ctx operands) (name : String)
    {ctx : Context} (expected : ctx.expected = some type) :
    ∃ e, Expr.read (.arr [.str op.tag, Conversion.property name]) ctx = pure e ∧
      e.eval = Eval.propertyOf type name := by
  have fits : ∀ other, ctx.expected = some other → other.accepts type = true := by
    intro other found
    cases expected.symm.trans found
    exact Ty.accepts_self type
  obtain ⟨e, read, _, value⟩ := Expr.read_asserted op counted asserts name fits
  exact ⟨e, read, value⟩

theorem Expr.read_input {first : Json} {type : Ty} {tag : String} (known : labelType? first = some type)
    (named : Conversion.inputType? first = .ok tag) (name : String) {ctx : Context}
    (expected : ctx.expected = some type) :
    ∃ e, Expr.read (.arr [.str tag, Conversion.property name]) ctx = pure e ∧
      e.eval = Eval.propertyOf type name := by
  cases first with
  | str s =>
      cases known
      cases named
      exact Expr.read_expected .string rfl (fun _ _ => rfl) name expected
  | num n =>
      cases known
      cases named
      exact Expr.read_expected .number rfl (fun _ _ => rfl) name expected
  | bool b =>
      cases known
      cases named
      exact Expr.read_expected .boolean rfl (fun _ _ => rfl) name expected
  | _ => cases known

def Conversion.withConstants (schema : Schema) (stops : List (Json × Json)) : List (Json × Json) :=
  stops.map fun s => (s.1, Conversion.constant schema s.2)

def Conversion.operandPairs (stops : List (Json × Json)) : List (Operand × Operand) :=
  stops.map fun s => (⟨s.1, Expr.read s.1⟩, ⟨s.2, Expr.read s.2⟩)

theorem Expr.operands_flatStops (stops : List (Json × Json)) :
    Expr.operands (Conversion.flatStops stops) =
      (Conversion.operandPairs stops).flatMap fun p => [p.1, p.2] := by
  rw [Expr.operands_eq_map,Conversion.flatStops,Conversion.operandPairs,List.map_flatMap,
    List.flatMap_map]
  rfl

theorem Expr.operands_flatStops_append (stops : List (Json × Json)) (last : Json) :
    Expr.operands (Conversion.flatStops stops ++ [last]) =
      (Conversion.operandPairs stops).flatMap (fun p => [p.1, p.2]) ++ [⟨last, Expr.read last⟩] := by
  rw [← Expr.operands_flatStops,Expr.operands_eq_map,Expr.operands_eq_map,List.map_append]
  rfl

@[simp] theorem Conversion.length_flatStops (stops : List (Json × Json)) :
    (flatStops stops).length = 2 * stops.length := by
  simp only [flatStops,List.length_flatMap,List.length_cons,List.length_nil,List.map_const',
    List.sum_replicate_nat]
  omega

theorem Conversion.colorSpace_getD {f : StopFunction}
    (space : ∀ s, f.colorSpace = some s → s = "rgb") : f.colorSpace.getD "rgb" = "rgb" := by
  cases given : f.colorSpace with
  | none => rfl
  | some s => exact space s given

end MapStyle
