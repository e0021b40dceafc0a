import MapStyle.Proofs.Property.Operands

namespace MapStyle

open Reading Attempt

-- Whether a property is the key of a stop: texts are compared as they are, numbers as
-- doubles. Anything else is no key.
def Json.sameKey : Json → Json → Bool
  | .str a, .str b => a == b
  | .num a, .num b => a.toFloat == b.toFloat
  | _, _ => false

namespace Json

theorem sameKey_comm (a b : Json) : a.sameKey b = b.sameKey a := by
  cases a <;> cases b <;> first | rfl | exact BEq.comm

theorem sameKey_trans {a b c : Json} (first : a.sameKey b = true) (second : b.sameKey c = true) :
    a.sameKey c = true := by
  cases a with
  | str s =>
      cases b with
      | str t =>
          cases c with
          | str u => exact BEq.trans first second
          | _ => cases second
      | _ => cases first
  | num m =>
      cases b with
      | num n =>
          cases c with
          | num o => exact BEq.trans first second
          | _ => cases second
      | _ => cases first
  | _ => cases first

theorem beq_key {key : Json} {type : Ty} (label : labelType? key = some type)
    (notBoolean : type ≠ .boolean) (j : Json) :
    (Value.ofJson j == Value.ofJson key) = key.sameKey j := by
  rw [sameKey_comm]
  cases key with
  | bool b =>
      cases label
      exact absurd rfl notBoolean
  | str s => cases j <;> rfl
  | num n => cases j <;> rfl
  | _ => cases label

theorem typeOf_of_sameKey {key j : Json} {type : Ty} (label : labelType? key = some type)
    (same : key.sameKey j = true) : (Value.ofJson j).typeOf = type := by
  cases key <;> cases j <;> first | cases same | (cases label; rfl)

end Json

def Conversion.arms (schema : Schema) (stops : List (Json × Json)) : List (Arm (Eval Value)) :=
  stops.map fun s => ⟨[Value.ofJson s.1], pure (schema.valueOf s.2)⟩

namespace Reading

variable {schema : Schema} {ctx : Context} {type : Ty}

theorem armLabels_single (ctx : Context) (position : Nat) {state : LabelState} {key : Json}
    (label : labelType? key = some type) (typed : state.type?.getD type = type)
    (fresh : state.seen.contains (Value.ofJson key) = false) :
    armLabels ctx position state key =
      (⟨some type, Value.ofJson key :: state.seen⟩, pure [Value.ofJson key]) := by
  have single : armLabels ctx position state key = labels ctx position state [key] := by
    cases key <;> first | rfl | cases label
  rw [single]
  exact labels_cons_eq_pure.mpr ⟨type, [], label, typed, fresh, rfl, rfl⟩

-- The keys of the stops read so far are the labels seen.
theorem arms_constants (known : schema.Known) (expected : ctx.expected = some schema.valueType)
    (notBoolean : type ≠ .boolean) {stops : List (Json × Json)} (state : LabelState)
    {common : Common} (position : Nat) (shared : common = none ∨ common = some schema.outputType)
    (typed : state.type?.getD type = type)
    (fresh : ∀ s ∈ stops, state.seen.contains (Value.ofJson s.1) = false)
    (keys : ∀ s ∈ stops, labelType? s.1 = some type)
    (different : stops.Pairwise fun s t => s.1.sameKey t.1 = false)
    (outputs : ∀ s ∈ stops, schema.valueType.admits s.2 = true) :
    ∃ final final' as, arms ctx state common position
        (Conversion.operandPairs (Conversion.withConstants schema stops)) = (final, final', pure as) ∧
      (as.map fun a => (⟨a.labels, a.output.eval⟩ : Arm (Eval Value))) =
        Conversion.arms schema stops ∧
      (final.type?, final') =
        if stops = [] then (state.type?, common) else (some type, some schema.outputType) := by
  induction stops generalizing state common position with
  | nil => exact ⟨state, common, [], rfl, rfl, rfl⟩
  | cons s rest ih =>
      obtain ⟨apart, different⟩ := List.pairwise_cons.mp different
      have form := Schema.form_of_admits known (outputs s List.mem_cons_self)
      obtain ⟨e, made, evaluates⟩ := form.output (position + 1) expected shared
      have label := keys s List.mem_cons_self
      have read := armLabels_single ctx position label typed (fresh s List.mem_cons_self)
      have fresh' : ∀ t ∈ rest,
          (Value.ofJson s.1 :: state.seen).contains (Value.ofJson t.1) = false := by
        intro t member
        rw [List.contains_cons,fresh t (List.mem_cons_of_mem _ member),Bool.or_false,
          Json.beq_key label notBoolean]
        exact apart t member
      obtain ⟨final, final', as, others, same, states⟩ := ih
        ⟨some type, Value.ofJson s.1 :: state.seen⟩ (position + 2) (.inr rfl) rfl fresh'
        (fun t member => keys t (List.mem_cons_of_mem _ member)) different
        fun t member => outputs t (List.mem_cons_of_mem _ member)
      refine ⟨final, final', ⟨[Value.ofJson s.1], e⟩ :: as, ?_, ?_, ?_⟩
      · exact arms_cons_eq_pure.mpr ⟨_, e, _, _, as, read, made, others, rfl⟩
      · rw [List.map_cons,same,evaluates]
        rfl
      · rw [states]
        split <;> rfl

end Reading

theorem Expr.read_match {schema : Schema} {type : Ty} {stops : List (Json × Json)}
    {input data written : Json} {a : Eval Value} {default : Value} {ctx : Context}
    (known : schema.Known) (expected : ctx.expected = some schema.valueType)
    (notBoolean : type ≠ .boolean) (filled : stops ≠ [])
    (keys : ∀ s ∈ stops, labelType? s.1 = some type)
    (different : stops.Pairwise fun s t => s.1.sameKey t.1 = false)
    (outputs : ∀ s ∈ stops, schema.valueType.admits s.2 = true)
    (form : schema.Form data written default)
    (given : ∀ ctx : Context, ctx.expected = some type →
      ∃ e, Expr.read input ctx = pure e ∧ e.eval = a) :
    ∃ e, Expr.read (.arr (.str "match" :: input ::
        Conversion.flatStops (Conversion.withConstants schema stops) ++ [written])) ctx = pure e ∧
      e.type = schema.outputType ∧
      e.eval = (do Eval.labelled (← a) (pure default) (Conversion.arms schema stops)) := by
  obtain ⟨final, final', as, made, arms, states⟩ := arms_constants known expected notBoolean
    ⟨none, []⟩ 2 (.inl rfl) rfl (fun _ _ => rfl) keys different outputs
  rw [if_neg filled,Prod.mk.injEq] at states
  obtain ⟨labels, rfl⟩ := states
  let args := Conversion.flatStops (Conversion.withConstants schema stops) ++ [written]
  have length : args.length = 2 * stops.length + 1 := by
    simp [args,Conversion.withConstants]
  obtain ⟨o, last, otherwise⟩ := form.output (args.length + 1) expected (.inr rfl)
  obtain ⟨i, read, evaluates⟩ := given (ctx.derive (.index 1) (some type)) rfl
  refine ⟨ctx.expr schema.outputType (.select i as o), ?_, rfl, ?_⟩
  · refine Expr.read_operator_of_expected .select (input :: args) ?_ expected
      schema.accepts_outputType ?_
    · have several := List.length_pos_iff.mpr filled
      simp only [Operator.arity,Arity.fault?,List.length_cons,length]
      rw [if_neg (by omega)]
    · show select ctx (⟨input, Expr.read input⟩ :: Expr.operands args) = _
      have operands := Expr.operands_flatStops_append (Conversion.withConstants schema stops) written
      have counted := Expr.length_operands args
      refine select_eq_pure.mpr ⟨_, _, final, _, as, _, o, i, pairsAndLast?_eq_some.mpr operands,
        made, counted ▸ last, ?_, rfl⟩
      rw [labels]
      exact read
  · rw [Expr.eval_eq]
    show (i.eval >>= fun v => Eval.labelled v o.eval
      (as.map fun a => (⟨a.labels, a.output.eval⟩ : Arm (Eval Value)))) = _
    rw [evaluates,otherwise,arms]

def Conversion.pick (schema : Schema) (stops : List (Json × Json)) (default v : Value) : Value :=
  ((stops.find? fun s => v == Value.ofJson s.1).map fun s => schema.valueOf s.2).getD default

theorem Eval.labelled_arms (schema : Schema) (stops : List (Json × Json)) (default v : Value) :
    labelled v (pure default) (Conversion.arms schema stops) =
      pure (Conversion.pick schema stops default v) := by
  induction stops with
  | nil => rfl
  | cons s rest ih =>
      have single : [Value.ofJson s.1].contains v = (v == Value.ofJson s.1) := by
        rw [List.contains_cons,List.contains_nil,Bool.or_false]
      unfold labelled Conversion.arms Conversion.pick at ih ⊢
      rw [List.map_cons,List.find?_cons,List.find?_cons,single]
      cases v == Value.ofJson s.1 with
      | true => rfl
      | false => exact ih

namespace Conversion

theorem pick_key (schema : Schema) (default : Value) {stops : List (Json × Json)} {type : Ty}
    {s : Json × Json} {j : Json} (notBoolean : type ≠ .boolean)
    (keys : ∀ s ∈ stops, labelType? s.1 = some type)
    (different : stops.Pairwise fun s t => s.1.sameKey t.1 = false) (member : s ∈ stops)
    (same : s.1.sameKey j = true) :
    pick schema stops default (Value.ofJson j) = schema.valueOf s.2 := by
  induction stops with
  | nil => cases member
  | cons t rest ih =>
      obtain ⟨apart, different⟩ := List.pairwise_cons.mp different
      unfold pick at ih ⊢
      rw [List.find?_cons,Json.beq_key (keys t List.mem_cons_self) notBoolean]
      rcases List.mem_cons.mp member with rfl | belongs
      · rw [same]
        rfl
      · cases other : t.1.sameKey j with
        | false => exact ih (fun u inside => keys u (List.mem_cons_of_mem _ inside)) different belongs
        | true =>
            rw [Json.sameKey_comm] at same
            have both := Json.sameKey_trans other same
            rw [apart s belongs] at both
            cases both

theorem pick_other (schema : Schema) (default : Value) {stops : List (Json × Json)} {type : Ty}
    {j : Json} (notBoolean : type ≠ .boolean) (keys : ∀ s ∈ stops, labelType? s.1 = some type)
    (other : ∀ s ∈ stops, s.1.sameKey j = false) :
    pick schema stops default (Value.ofJson j) = default := by
  have missed : (stops.find? fun s => Value.ofJson j == Value.ofJson s.1) = none := by
    rw [List.find?_eq_none]
    intro s member
    rw [Json.beq_key (keys s member) notBoolean,other s member]
    exact Bool.false_ne_true
  rw [pick,missed]
  rfl

theorem keys_type {stops : List (Json × Json)}
    (keys : (∀ s ∈ stops, ∃ t, s.1 = .str t) ∨ ∀ s ∈ stops, ∃ n, s.1 = .num n) :
    ∃ type tag, type ≠ Ty.boolean ∧ tag ≠ "boolean" ∧
      ∀ s ∈ stops, labelType? s.1 = some type ∧ inputType? s.1 = .ok tag ∧ s.1.isObject = false := by
  rcases keys with strings | numbers
  · refine ⟨.string, "string", by simp, by simp, ?_⟩
    intro s member
    obtain ⟨t, key⟩ := strings s member
    rw [key]
    exact ⟨rfl, rfl, rfl⟩
  · refine ⟨.number, "number", by simp, by simp, ?_⟩
    intro s member
    obtain ⟨n, key⟩ := numbers s member
    rw [key]
    exact ⟨rfl, rfl, rfl⟩

theorem body_categorical (schema : Schema) {f : StopFunction} {name tag : String}
    {first output : Json} {rest : List (Json × Json)} (kind : f.kind = some "categorical")
    (property : f.property = some name) (space : f.colorSpace.getD "rgb" = "rgb")
    (stops : f.stops = some ((first, output) :: rest)) (input : inputType? first = .ok tag)
    (notBoolean : tag ≠ "boolean") (flat : first.isObject = false) :
    body f schema = .ok (.arr (.str "match" :: .arr [.str tag, Conversion.property name] ::
      flatStops (withConstants schema ((first, output) :: rest)) ++ [defaultOf f schema])) := by
  simp only [body,stops,property,space,ne_eq,not_true_eq_false,if_false,flat,Bool.false_eq_true,
    Option.isSome_some,if_true,ofProperty,kindOf,kind,input,notBoolean,false_and,List.map_cons,
    Option.getD_some]
  rfl

end Conversion

namespace PropertyExpression

variable {raw : Json} {schema : Schema} {f : StopFunction} {default : Json}

theorem evaluate_categorical (defaulted : Defaulted raw schema f default)
    (kind : f.kind = some "categorical") {name : String} (property : f.property = some name)
    (space : ∀ s, f.colorSpace = some s → s = "rgb") {stops : List (Json × Json)}
    (table : f.stops = some stops) (filled : stops ≠ [])
    (keys : (∀ s ∈ stops, ∃ t, s.1 = .str t) ∨ ∀ s ∈ stops, ∃ n, s.1 = .num n)
    (different : stops.Pairwise fun s t => s.1.sameKey t.1 = false)
    (outputs : ∀ s ∈ stops, schema.valueType.admits s.2 = true) (key : Option String) :
    ∃ p, create raw schema key = .ok p ∧ ∀ (zoom : Option Float) (feature : Option Feature),
      (∀ s ∈ stops, ∀ j, feature.bind (· name) = some j → s.1.sameKey j = true →
        (p.evaluate zoom feature).1 = .ok (schema.valueOf s.2)) ∧
      ((∀ s ∈ stops, ∀ j, feature.bind (· name) = some j → s.1.sameKey j = false) →
        (p.evaluate zoom feature).1 = .ok (schema.valueOf default)) := by
  obtain ⟨type, tag, notBoolean, notBoolean', typed⟩ := Conversion.keys_type keys
  have labels : ∀ s ∈ stops, labelType? s.1 = some type := fun s member => (typed s member).1
  obtain ⟨first, rest, rfl⟩ := List.exists_cons_of_ne_nil filled
  obtain ⟨label, input, flat⟩ := typed first List.mem_cons_self
  have made := Conversion.body_categorical schema kind property (Conversion.colorSpace_getD space)
    table input notBoolean' flat
  obtain ⟨p, created, value⟩ := defaulted.create made fun ctx expected =>
    Expr.read_match defaulted.known expected notBoolean filled labels different outputs
      defaulted.form fun ctx expected => Expr.read_input label input name expected
  refine ⟨p, created, ?_⟩
  intro zoom feature
  have settled : ∀ v s, (Eval.labelled v (pure (schema.valueOf default))
      (Conversion.arms schema (first :: rest)) s).1 =
        .ok (Conversion.pick schema (first :: rest) (schema.valueOf default) v) := by
    intro v s
    rw [Eval.labelled_arms]
    rfl
  have whole := (value zoom feature).trans (congrArg Except.ok
    (Eval.propertyOf_fallback type name (schema.valueOf default) settled _))
  constructor
  · intro s member j found same
    have form := Schema.form_of_admits defaulted.known (outputs s member)
    have picked := Conversion.pick_key schema (schema.valueOf default) notBoolean labels different
      member same
    rw [whole,show (Session.start zoom feature).feature.bind (· name) = some j from found]
    simp only [Json.typeOf_of_sameKey (labels s member) same,if_true,picked,Value.fallback,
      form.isNull,Bool.false_eq_true,if_false]
  · intro other
    rw [whole]
    cases found : (Session.start zoom feature).feature.bind (· name) with
    | none => rfl
    | some j =>
        have picked := Conversion.pick_other schema (schema.valueOf default) notBoolean labels
          fun s member => other s member j found
        simp only [picked,Value.fallback,ite_self]

theorem evaluate_categorical_kinds :
    let stops : List (Json × Json) := [(.str "bus", .str "red"), (.str "tram", .str "#00f")]
    let raw : Json := .obj [("default", .str "gray"), ("property", .str "kind"),
      ("stops", .arr (stops.map fun s => .arr [s.1, s.2])), ("type", .str "categorical")]
    let f : StopFunction :=
      ⟨some "kind", some "categorical", none, none, some (.str "gray"), some stops⟩
    let schema := Schema.ofTypeName "color"
    let tram : Feature := Feature.ofMembers [("kind", .str "tram")]
    Defaulted raw schema f (.str "gray") ∧ (stops.Pairwise fun s t => s.1.sameKey t.1 = false) ∧
      (∀ s ∈ stops, schema.valueType.admits s.2 = true) ∧
      ∃ p, create raw schema none = .ok p ∧
        (p.evaluate none (some tram)).1 = .ok (schema.valueOf (.str "#00f")) ∧
        (p.evaluate none none).1 = .ok (schema.valueOf (.str "gray")) := by
  intro stops raw f schema tram
  have defaulted : Defaulted raw schema f (.str "gray") := ⟨by decide, rfl, rfl, rfl, by decide⟩
  have keys : ∀ s ∈ stops, ∃ t, s.1 = .str t := by simp [stops]
  have different : stops.Pairwise fun s t => s.1.sameKey t.1 = false := by decide
  have outputs : ∀ s ∈ stops, schema.valueType.admits s.2 = true := by decide
  obtain ⟨p, created, value⟩ := evaluate_categorical defaulted rfl rfl (fun _ named => by cases named)
    rfl (by simp [stops]) (.inl keys) different outputs none
  refine ⟨defaulted, different, outputs, p, created, ?_, ?_⟩
  · exact (value none (some tram)).1 (.str "tram", .str "#00f") (by simp [stops]) _ rfl (by decide)
  · exact (value none none).2 fun _ _ _ found => by cases found

end PropertyExpression

end MapStyle
