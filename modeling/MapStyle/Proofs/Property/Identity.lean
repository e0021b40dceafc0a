import MapStyle.Proofs.Property.Operands
import MapStyle.Proofs.RoundTrip.Data

-- Legacy functions without stops hand on a property of the feature. What they are
-- converted to checks the property when it is evaluated, and lets through what the type
-- of the schema admits, and nothing else.

namespace MapStyle

open Reading Attempt Eval

def Schema.itemType (schema : Schema) : Ty :=
  (schema.itemName.bind Ty.ofName?).getD .unknown

structure Schema.Assertable (schema : Schema) : Prop where
  item : ∀ name, schema.itemName = some name → name ∈ ["value", "string", "number", "boolean"]
  length : ∀ n, schema.length = some n → 1 ≤ n ∧ n < 2 ^ 64

theorem Ty.mem_insertName {name other : String} {names : List String} :
    other ∈ insertName name names ↔ other = name ∨ other ∈ names := by
  induction names with
  | nil => rw [insertName,List.mem_cons]
  | cons n rest ih =>
      unfold insertName
      split
      · rw [List.mem_cons]
      · split
        · rename_i same
          subst same
          simp only [List.mem_cons,or_self_left]
        · simp only [List.mem_cons,ih,or_left_comm]

theorem Ty.admits_oneOf {names : List String} {data : Json} :
    (Ty.oneOf names).admits data = true ↔ ∃ s, data = .str s ∧ s ∈ names := by
  have listed : ∀ s, s ∈ names.foldr insertName [] ↔ s ∈ names := by
    intro s
    induction names with
    | nil => rfl
    | cons n rest ih => rw [List.foldr_cons,mem_insertName,ih,List.mem_cons]
  unfold oneOf
  cases data with
  | str s => simp only [admits,List.contains_iff_mem,listed,Json.str.injEq,exists_eq_left']
  | _ => simp [admits]

theorem Json.mem_insertMember {key name : String} {value : Json} {members : List (String × Json)} :
    key ∈ (insertMember name value members).map Prod.fst ↔
      key = name ∨ key ∈ members.map Prod.fst := by
  induction members with
  | nil => rw [insertMember,List.map_cons,List.mem_cons]
  | cons m rest ih =>
      obtain ⟨k, v⟩ := m
      unfold insertMember
      split
      · rw [List.map_cons,List.mem_cons]
      · split
        · rename_i same
          subst same
          simp only [List.map_cons,List.mem_cons,or_self_left]
        · simp only [List.map_cons,List.mem_cons,ih,or_left_comm]

theorem Json.mem_sorted {key : String} {added members : List (String × Json)} :
    key ∈ (added.foldl (fun sorted m => insertMember m.1 m.2 sorted) members).map Prod.fst ↔
      key ∈ added.map Prod.fst ∨ key ∈ members.map Prod.fst := by
  induction added generalizing members with
  | nil => simp only [List.foldl_nil,List.map_nil,List.not_mem_nil,false_or]
  | cons m rest ih =>
      rw [List.foldl_cons,ih,mem_insertMember,List.map_cons,List.mem_cons,or_left_comm,or_assoc]

theorem Value.keys_ofMembers (members : List (String × Json)) :
    (ofMembers members).map Prod.fst = members.map Prod.fst := by
  induction members with
  | nil => rfl
  | cons m rest ih =>
      obtain ⟨k, j⟩ := m
      simp only [ofMembers,List.map_cons,ih]

def Conversion.allowed (names : List String) : List (String × Json) :=
  (names.map fun name => (name, Json.bool true)).foldl
    (fun sorted m => Json.insertMember m.1 m.2 sorted) []

theorem Conversion.lookup_allowed (names : List String) (key : String) :
    ((Value.ofMembers (allowed names)).lookup key).isSome = decide (key ∈ names) := by
  have listed : key ∈ (Value.ofMembers (allowed names)).map Prod.fst ↔ key ∈ names := by
    rw [Value.keys_ofMembers,allowed,Json.mem_sorted,List.map_map]
    simp only [Function.comp_def,List.map_id',List.map_nil,List.not_mem_nil,or_false]
  rw [Bool.eq_iff_iff,decide_eq_true_iff,← listed,List.lookup_isSome_iff]
  simp only [beq_iff_eq,List.mem_map]
  exact exists_congr fun p => and_congr_right fun _ => eq_comm

theorem Ty.admits_item {item : Ty} (scalar : item ∈ [Ty.unknown, .string, .number, .boolean])
    (data : Json) : item.admits data = (item == .unknown || (Value.ofJson data).typeOf == item) := by
  simp only [List.mem_cons,List.not_mem_nil,or_false] at scalar
  rcases scalar with rfl | rfl | rfl | rfl <;> cases data with
  | arr items => cases items <;> rfl
  | _ => rfl

theorem Eval.isArrayOf_ofJson {item : Ty} (scalar : item ∈ [Ty.unknown, .string, .number, .boolean])
    (length : Option Nat) (data : Json) :
    isArrayOf item length (Value.ofJson data) = (Ty.array item length).admits data := by
  cases data with
  | arr items =>
      simp only [Value.ofJson,isArrayOf,Ty.admits,Value.ofItems_eq_map,List.length_map,List.all_map]
      congr 1
      cases untyped : item == .unknown with
      | true =>
          simp only [Ty.admits_item scalar,untyped,Bool.true_or]
          exact (List.all_eq_true.mpr fun _ _ => rfl).symm
      | false =>
          simp only [Ty.admits_item scalar,untyped,Bool.false_or]
          rfl
  | _ => rfl

theorem Schema.Assertable.operands {schema : Schema} (assertable : schema.Assertable) (data : Json) :
    ∃ args position, Conversion.asArray schema data = .arr (.str Operator.array.tag :: args) ∧
      Operator.array.arity.fault? (args.length + 1) = none ∧
      ArrayOperands (Expr.operands args) schema.itemType schema.length position
        ⟨data, Expr.read data⟩ := by
  obtain ⟨_, itemName, length, _, _, _⟩ := schema
  have item : ∀ name, itemName = some name →
      itemType? (.str name) = some ((Ty.ofName? name).getD .unknown) := by
    intro name given
    have listed := assertable.item name given
    simp only [List.mem_cons,List.not_mem_nil,or_false] at listed
    rcases listed with rfl | rfl | rfl | rfl <;> rfl
  have count : ∀ n, length = some n → ∃ m, n = m + 1 ∧ (Json.ofNat n).nat? = some (m + 1) := by
    intro n given
    obtain ⟨positive, bounded⟩ := assertable.length n given
    obtain ⟨m, rfl⟩ := Nat.exists_eq_succ_of_ne_zero (Nat.one_le_iff_ne_zero.mp positive)
    exact ⟨m, rfl, Json.nat?_ofNat_of_lt bounded⟩
  have both : ∀ kind counter type m, itemType? kind = some type → counter.nat? = some (m + 1) →
      ArrayOperands (Expr.operands [kind, counter, data]) type (some (m + 1)) 3
        ⟨data, Expr.read data⟩ :=
    fun kind counter type m known counted => .length ⟨kind, _⟩ ⟨counter, _⟩ _ type m known counted
  cases itemName with
  | none =>
      cases length with
      | none => exact ⟨[data], 1, rfl, rfl, .input _⟩
      | some n =>
          obtain ⟨m, rfl, counted⟩ := count n rfl
          exact ⟨[.str "value", .ofNat (m + 1), data], 3, rfl, rfl, both _ _ _ m rfl counted⟩
  | some name =>
      cases length with
      | none => exact ⟨[.str name, data], 2, rfl, rfl, .item _ _ _ (item name rfl)⟩
      | some n =>
          obtain ⟨m, rfl, counted⟩ := count n rfl
          exact ⟨[.str name, .ofNat (m + 1), data], 3, rfl, rfl,
            both _ _ _ m (item name rfl) counted⟩

theorem Schema.Assertable.scalar {schema : Schema} (assertable : schema.Assertable) :
    schema.itemType ∈ [Ty.unknown, .string, .number, .boolean] := by
  unfold itemType
  cases given : schema.itemName with
  | none => exact List.mem_cons_self
  | some name =>
      have listed := assertable.item name given
      simp only [List.mem_cons,List.not_mem_nil,or_false] at listed
      rcases listed with rfl | rfl | rfl | rfl <;> decide

namespace Eval

theorem get_found {name : String} {s : Session} {j : Json}
    (found : s.feature.bind (· name) = some j) :
    ∃ s', get (.str name) s = (.ok (Value.ofJson j), s') := by
  obtain ⟨s', got⟩ := get_apply name s
  rw [found] at got
  exact ⟨s', got⟩

theorem get_missing {name : String} {s : Session} (missing : s.feature.bind (· name) = none) :
    ∃ e s', get (.str name) s = (.error e, s') := by
  obtain ⟨s', got⟩ := get_apply name s
  rw [missing] at got
  exact ⟨_, s', got⟩

theorem propertyOf_found {type : Ty} {name : String} {s : Session} {j : Json}
    (found : s.feature.bind (· name) = some j) (fits : (Value.ofJson j).typeOf = type) :
    ∃ s', propertyOf type name s = (.ok (Value.ofJson j), s') := by
  obtain ⟨s', got⟩ := get_found found
  refine ⟨s', ?_⟩
  simp [propertyOf,firstOfType,got,fits]

theorem propertyOf_unfit {type : Ty} {name : String} {s : Session}
    (unfit : ∀ j, s.feature.bind (· name) = some j → (Value.ofJson j).typeOf ≠ type) :
    ∃ e s', propertyOf type name s = (.error e, s') := by
  cases found : s.feature.bind (· name) with
  | none =>
      obtain ⟨e, s', got⟩ := get_missing found
      exact ⟨e, s', by simp [propertyOf,firstOfType,got]⟩
  | some j =>
      obtain ⟨s', got⟩ := get_found found
      refine ⟨.typeMismatch type (Value.ofJson j).typeOf, s', ?_⟩
      simp [propertyOf,firstOfType,got,unfit j found]

end Eval

theorem Expr.read_var {name : String} {bound : Expr} {ctx : Context}
    (found : ctx.lookup? name = some bound)
    (fits : ∀ type, ctx.expected = some type → type.accepts bound.type = true) :
    Expr.read (.arr [.str "var", .str name]) ctx = pure (ctx.expr bound.type (.var name)) := by
  refine (Expr.read_operator_eq_pure .var [.str name] rfl).mpr ⟨?_, fits⟩
  exact var_eq_pure.mpr ⟨name, bound, rfl, found, rfl⟩

def Conversion.notListed (names : List String) : String :=
  "Expected value to be one of " ++ ", ".intercalate names ++ "."

def Eval.amongNames (names : List String) : Eval Value :=
  Eval.firstTrue (Eval.fail (.thrown (Conversion.notListed names)))
    [⟨do
      let key ← Eval.text (← Eval.lookup "property_value")
      Eval.member key (← Eval.lookup "enum_values"), Eval.lookup "property_value"⟩]

def Eval.namesAround (names : List String) (a : Eval Value) : List (Binding (Eval Value)) :=
  [⟨"property_value", a⟩,
    ⟨"enum_values", pure (.obj (Value.ofMembers (Conversion.allowed names)))⟩]

def Conversion.check (names : List String) : Json :=
  .arr [.str "case", .arr [.str "has", .arr [.str "var", .str "property_value"],
    .arr [.str "var", .str "enum_values"]], .arr [.str "var", .str "property_value"],
    .arr [.str "error", .str (notListed names)]]

-- The check can be read where both names are bound. Its failing branch takes the type of
-- the other one.
theorem Expr.read_check (names : List String) {ctx : Context} {text object : Expr}
    (property : ctx.lookup? "property_value" = some text) (typed : text.type = .string)
    (listed : ctx.lookup? "enum_values" = some object) (typed' : object.type = .object)
    (fits : ∀ expected, ctx.expected = some expected → expected.accepts .string = true) :
    ∃ c, Expr.read (Conversion.check names) ctx = pure c ∧ c.type = .string ∧
      c.eval = amongNames names := by
  let value : Json := .arr [.str "var", .str "property_value"]
  let allowed : Json := .arr [.str "var", .str "enum_values"]
  let failing : Json := .arr [.str "error", .str (Conversion.notListed names)]
  let test : Json := .arr [.str "has", value, allowed]
  let operand (j : Json) : Operand := ⟨j, Expr.read j⟩
  let asked := ctx.derive (.index 1) (some .boolean)
  let key : Expr := (asked.derive (.index 1) (some .string)).expr text.type (.var "property_value")
  let among : Expr := (asked.derive (.index 2) (some .object)).expr object.type (.var "enum_values")
  let has : Expr := asked.expr .boolean (.hasIn key among)
  let taken : Expr := (ctx.derive (.index 2) none).expr text.type (.var "property_value")
  let thrown : Expr :=
    (ctx.derive (.index 3) (some .string)).expr .string (.throw (Conversion.notListed names))
  have readKey : Expr.read value (asked.derive (.index 1) (some .string)) = pure key := by
    refine Expr.read_var property ?_
    rintro type ⟨⟩
    rw [typed]
    rfl
  have readAmong : Expr.read allowed (asked.derive (.index 2) (some .object)) = pure among := by
    refine Expr.read_var listed ?_
    rintro type ⟨⟩
    rw [typed']
    rfl
  have readTest : Expr.read test asked = pure has := by
    refine (Expr.read_operator_eq_pure .has [value, allowed] rfl).mpr ⟨?_, ?_⟩
    · show hasIn asked (operand value) (operand allowed) = _
      exact hasIn_eq_pure.mpr ⟨key, among, readKey, readAmong, rfl⟩
    · rintro type ⟨⟩
      rfl
  have readTaken : Expr.read value (ctx.derive (.index 2) none) = pure taken := by
    refine Expr.read_var property ?_
    rw [typed]
    exact fits
  have readThrown : Expr.read failing (ctx.derive (.index 3) (some .string)) = pure thrown := by
    refine (Expr.read_operator_eq_pure .error [.str _] rfl).mpr ⟨rfl, ?_⟩
    rintro type ⟨⟩
    rfl
  have branch : branches ctx none 1 [(operand test, operand value)] =
      (some .string, pure [⟨has, taken⟩]) := by
    refine branches_cons_eq_pure.mpr ⟨has, taken, some .string, [], readTest, ?_, rfl, rfl⟩
    exact output_eq_pure.mpr ⟨readTaken, .string, congrArg Except.ok typed, rfl⟩
  have last : output ctx (some .string) 3 (operand failing) = (some .string, pure thrown) :=
    output_eq_pure.mpr ⟨readThrown, .string, rfl, rfl⟩
  refine ⟨ctx.expr .string (.case [⟨has, taken⟩] thrown), ?_, rfl, rfl⟩
  refine (Expr.read_operator_eq_pure .case [test, value, failing] rfl).mpr ⟨?_, fits⟩
  show case ctx [operand test, operand value, operand failing] = _
  exact case_eq_pure.mpr ⟨_, _, _, _, _, thrown, rfl, branch, last, rfl⟩

theorem Expr.read_asEnum (names : List String) (name : String) {ctx : Context}
    (fits : ∀ expected, ctx.expected = some expected → expected.accepts .string = true) :
    ∃ c, Expr.read (Conversion.asEnum names (Conversion.property name)) ctx = pure c ∧
      c.type = .string ∧
      c.eval = inScope (do
        Eval.bindAll (namesAround names (propertyOf .string name))
        amongNames names) := by
  have unconstrained : ∀ expected,
      (ctx.deriveUnconstrained (.index 2)).expected = some expected →
        expected.accepts .string = true := fun _ found => nomatch found
  obtain ⟨text, asserted, typed, evaluates⟩ :=
    Expr.read_asserted .string rfl (fun _ _ => rfl) name unconstrained
  let members : Json := Json.object (names.map fun name => (name, .bool true))
  let bound := ctx.bind "property_value" text
  let object : Expr := constant (bound.deriveUnconstrained (.index 4)) members
  let inner := bound.bind "enum_values" object
  let operand (j : Json) : Operand := ⟨j, Expr.read j⟩
  obtain ⟨choice, checked, same, body⟩ :=
    Expr.read_check names (rfl : (inner.derive (.index 5) none).lookup? "property_value" = some text)
      typed (rfl : _ = some object) rfl fits
  refine ⟨ctx.expr choice.type (.letIn [⟨"property_value", text⟩, ⟨"enum_values", object⟩] choice),
    ?_, same, ?_⟩
  · refine (Expr.read_operator_eq_pure .letIn [_, _, _, _, Conversion.check names] rfl).mpr
      ⟨?_, same ▸ fits⟩
    have last : bindingsThen inner 5 (operand (Conversion.check names)) [] = pure ([], choice) :=
      bindingsThen_nil_eq_pure.mpr ⟨rfl, checked⟩
    have second : bindingsThen bound 3 (operand (Conversion.check names))
        [(operand (.str "enum_values"), operand (.arr [.str "literal", members]))] =
          pure ([⟨"enum_values", object⟩], choice) :=
      bindingsThen_cons_eq_pure.mpr ⟨"enum_values", object, [], rfl, rfl, rfl, last, rfl⟩
    have first : bindingsThen ctx 1 (operand (Conversion.check names))
        [(operand (.str "property_value"),
          operand (.arr [.str "string", Conversion.property name])),
        (operand (.str "enum_values"), operand (.arr [.str "literal", members]))] =
          pure ([⟨"property_value", text⟩, ⟨"enum_values", object⟩], choice) :=
      bindingsThen_cons_eq_pure.mpr ⟨"property_value", text, _, rfl, rfl, asserted, second, rfl⟩
    show letIn ctx [operand (.str "property_value"), _, operand (.str "enum_values"), _,
      operand (Conversion.check names)] = _
    exact letIn_eq_pure.mpr ⟨_, operand (Conversion.check names), _, choice, rfl, first, rfl⟩
  · have bindings : Eval.bindAll [⟨"property_value", text.eval⟩, ⟨"enum_values", object.eval⟩] =
        Eval.bindAll (namesAround names (propertyOf .string name)) := by
      rw [evaluates,Expr.eval_eq object]
      rfl
    rw [Expr.eval_eq]
    show inScope (do
      Eval.bindAll [⟨"property_value", text.eval⟩, ⟨"enum_values", object.eval⟩]
      choice.eval) = _
    rw [bindings,body]

def Eval.bindNames (names : List String) (v : Value) : Eval Unit := do
  push "property_value" v
  push "enum_values" (.obj (Value.ofMembers (Conversion.allowed names)))

theorem Eval.amongNames_bound (names : List String) (t : String) (s : Session) :
    ((bindNames names (.str t) >>= fun _ => amongNames names) s).1 =
      if t ∈ names then .ok (.str t) else .error (.thrown (Conversion.notListed names)) := by
  have chosen : ((bindNames names (.str t) >>= fun _ => amongNames names) s).1 =
      ((if ((Value.ofMembers (Conversion.allowed names)).lookup t).isSome = true
        then lookup "property_value"
        else fail (.thrown (Conversion.notListed names)) : Eval Value)
          (bindNames names (.str t) s).2).1 := rfl
  rw [chosen,Conversion.lookup_allowed]
  by_cases listed : t ∈ names
  · simp only [listed,decide_true,if_true]
    rfl
  · simp only [listed,decide_false,Bool.false_eq_true,if_false]
    rfl

-- The property is asserted by an expression of the type of the schema's constants. It
-- passes if the schema admits it, and fails if it does not, or if there is none.
structure Asserts (schema : Schema) (name : String) (a : Eval Value) : Prop where
  read : ∀ ctx : Context, ctx.expected = some schema.valueType →
    ∃ c, Expr.read (Conversion.asserted schema (Conversion.property name)) ctx = pure c ∧
      c.type = schema.outputType ∧ c.eval = a
  passes : ∀ s j, s.feature.bind (· name) = some j → schema.valueType.admits j = true →
    (a s).1 = .ok (schema.valueOf j)
  fails : ∀ s, (∀ j, s.feature.bind (· name) = some j → schema.valueType.admits j = false) →
    ∃ e, (a s).1 = .error e

namespace Asserts

variable {schema : Schema} {name : String}

theorem fits {ctx : Context} (expected : ctx.expected = some schema.valueType) :
    ∀ type, ctx.expected = some type → type.accepts schema.outputType = true := by
  intro type found
  cases expected.symm.trans found
  exact schema.accepts_outputType

theorem of_scalar (op : Operator) {type : Ty} (written : schema.typeName = op.tag)
    (named : Ty.ofName? op.tag = some type) (scalar : type ∈ [Ty.string, .number, .boolean])
    (plain : op.tag ∉ ["color", "array", "enum"]) (counted : op.arity.fault? 2 = none)
    (asserts : ∀ ctx operands, operator op ctx operands = assert type ctx operands) :
    Asserts schema name (propertyOf type name) := by
  rw [← written] at plain named
  simp only [List.mem_cons,List.not_mem_nil,or_false,not_or] at plain
  obtain ⟨notColor, notArray, notEnum⟩ := plain
  obtain ⟨value, output⟩ := Schema.valueType_named schema type named notEnum notArray
  have same : ∀ j, type.admits j = true ↔ (Value.ofJson j).typeOf = type := by
    intro j
    have unlike : (type == .unknown) = false := by
      simp only [List.mem_cons,List.not_mem_nil,or_false] at scalar
      rcases scalar with rfl | rfl | rfl <;> rfl
    rw [Ty.admits_item (List.mem_cons_of_mem _ scalar),unlike,Bool.false_or,beq_iff_eq]
  constructor
  · intro ctx expected
    have data : Conversion.asserted schema (Conversion.property name) =
        .arr [.str op.tag, Conversion.property name] := by
      unfold Conversion.asserted
      split
      · exact absurd ‹_› notColor
      · exact absurd ‹_› notArray
      · exact absurd ‹_› notEnum
      · rw [written]
    rw [data]
    have accepts : ∀ other, ctx.expected = some other → other.accepts type = true :=
      output ▸ fits expected
    obtain ⟨c, read, typed, evaluates⟩ := Expr.read_asserted op counted asserts name accepts
    exact ⟨c, read, typed.trans output.symm, evaluates⟩
  · intro s j found admits
    rw [value] at admits
    obtain ⟨s', got⟩ := propertyOf_found found ((same j).mp admits)
    rw [got,Schema.valueOf,if_neg notColor]
  · intro s unfit
    rw [value] at unfit
    obtain ⟨e, s', failed⟩ := propertyOf_unfit fun j found fits =>
      Bool.false_ne_true ((unfit j found).symm.trans ((same j).mpr fits))
    exact ⟨e, congrArg Prod.fst failed⟩

theorem of_text {a : Eval Value} {f : Value → Eval Value}
    (text : ∀ j, schema.valueType.admits j = true → ∃ t, j = .str t)
    (read : ∀ ctx : Context, ctx.expected = some schema.valueType →
      ∃ c, Expr.read (Conversion.asserted schema (Conversion.property name)) ctx = pure c ∧
        c.type = schema.outputType ∧ c.eval = a)
    (made : ∀ s, (a s).1 = ((do f (← propertyOf .string name)) s).1)
    (passes : ∀ t s, schema.valueType.admits (.str t) = true →
      (f (.str t) s).1 = .ok (schema.valueOf (.str t)))
    (fails : ∀ t s, schema.valueType.admits (.str t) = false →
      ∃ e, (f (.str t) s).1 = .error e) :
    Asserts schema name a := by
  have goes : ∀ t s, s.feature.bind (· name) = some (.str t) →
      ∃ s', (a s).1 = (f (.str t) s').1 := by
    intro t s found
    obtain ⟨s', got⟩ : ∃ s', propertyOf .string name s = (.ok (.str t), s') :=
      propertyOf_found found rfl
    exact ⟨s', by simp [made,got]⟩
  constructor
  · exact read
  · intro s j found admits
    obtain ⟨t, rfl⟩ := text j admits
    obtain ⟨s', same⟩ := goes t s found
    rw [same]
    exact passes t s' admits
  · intro s unfit
    by_cases there : ∃ t, s.feature.bind (· name) = some (.str t)
    · obtain ⟨t, found⟩ := there
      obtain ⟨s', same⟩ := goes t s found
      rw [same]
      exact fails t s' (unfit _ found)
    · have other : ∀ j, s.feature.bind (· name) = some j → (Value.ofJson j).typeOf ≠ .string := by
        intro j found
        cases j with
        | str t => exact absurd ⟨t, found⟩ there
        | arr items => cases items <;> exact nofun
        | _ => exact nofun
      obtain ⟨e, s', failed⟩ := propertyOf_unfit other
      exact ⟨e, by simp [made,failed]⟩

theorem of_color (written : schema.typeName = "color") :
    Asserts schema name (do Eval.color (← propertyOf .string name)) := by
  have named : Ty.ofName? schema.typeName = some .color := by rw [written]; rfl
  obtain ⟨value, output⟩ := Schema.valueType_named schema .color named
    (by simp [written]) (by simp [written])
  apply of_text
  case made =>
    intro s
    rfl
  case text =>
    intro j admits
    rw [value] at admits
    cases j with
    | str t => exact ⟨t, rfl⟩
    | _ => cases admits
  case read =>
    intro ctx expected
    have data : Conversion.asserted schema (Conversion.property name) =
        .arr [.str "parse-color", .arr [.str "string", Conversion.property name]] := by
      simp only [Conversion.asserted,written]
    have accepts : ∀ other, (ctx.derive (.index 1) (some .string)).expected = some other →
        other.accepts .string = true := by
      intro other found
      cases found
      rfl
    obtain ⟨text, read, _, evaluates⟩ := Expr.read_asserted .string rfl (fun _ _ => rfl) name accepts
    refine ⟨ctx.expr .color (.parseColor text), ?_, output.symm, ?_⟩
    · rw [data]
      exact Expr.read_parseColor read (output ▸ fits expected)
    · rw [Expr.eval_parseColor,evaluates]
  case passes =>
    intro t s admits
    rw [value] at admits
    obtain ⟨c, parsed⟩ := Option.isSome_iff_exists.mp admits
    simp only [Eval.color,parsed,Schema.valueOf,written,if_true,Json.string?,Option.bind_some,
      Option.map_some,Option.getD_some]
    rfl
  case fails =>
    intro t s unfit
    rw [value] at unfit
    have unparsed : Color.ofCss? t = none :=
      Option.not_isSome_iff_eq_none.mp (Bool.eq_false_iff.mp unfit)
    simp only [Eval.color,unparsed]
    exact ⟨_, rfl⟩

theorem of_array (written : schema.typeName = "array") (assertable : schema.Assertable) :
    Asserts schema name (do
      Eval.arrayOf schema.itemType schema.length (← Eval.get (.str name))) := by
  have notEnum : schema.typeName ≠ "enum" := by simp [written]
  have value : schema.valueType = .array schema.itemType schema.length := by
    rw [Schema.valueType,if_neg notEnum,if_pos written]
    rfl
  have output : schema.outputType = schema.valueType := by rw [Schema.outputType,if_neg notEnum]
  constructor
  · intro ctx expected
    obtain ⟨args, position, data, counted, form⟩ := assertable.operands (Conversion.property name)
    have data' : Conversion.asserted schema (Conversion.property name) =
        .arr (.str Operator.array.tag :: args) := by
      simp only [Conversion.asserted,written,data]
    obtain ⟨get, read, evaluates⟩ := Expr.read_property name
      (rfl : (ctx.deriveUnconstrained (.index position)).expected = none)
    let array : Node Expr := .assertArray schema.itemType schema.length get
    refine ⟨ctx.expr (.array schema.itemType schema.length) array, ?_, (output.trans value).symm, ?_⟩
    · rw [data']
      refine (Expr.read_operator_eq_pure .array args counted).mpr ⟨?_, ?_⟩
      · exact array_eq_pure.mpr ⟨_, _, position, _, get, form, read, rfl⟩
      · exact (output.trans value) ▸ fits expected
    · rw [Expr.eval_eq]
      show (do Eval.arrayOf _ _ (← get.eval)) = _
      rw [evaluates]
  · intro s j found admits
    rw [value,← isArrayOf_ofJson assertable.scalar] at admits
    obtain ⟨s', got⟩ := get_found found
    simp [got,Eval.arrayOf,admits,Schema.valueOf,written]
  · intro s unfit
    rw [bind_apply]
    cases found : s.feature.bind (· name) with
    | none =>
        obtain ⟨e, s', failed⟩ := get_missing found
        rw [failed]
        exact ⟨e, rfl⟩
    | some j =>
        have other := unfit j found
        rw [value,← isArrayOf_ofJson assertable.scalar] at other
        obtain ⟨s', got⟩ := get_found found
        rw [got]
        simp only [Eval.arrayOf,other,Bool.false_eq_true,if_false]
        exact ⟨_, rfl⟩

theorem of_enum (written : schema.typeName = "enum") (name : String) :
    Asserts schema name (inScope do
      Eval.bindAll (namesAround schema.enumNames (propertyOf .string name))
      amongNames schema.enumNames) := by
  have value : schema.valueType = Ty.oneOf schema.enumNames := by rw [Schema.valueType,if_pos written]
  have output : schema.outputType = .string := by rw [Schema.outputType,if_pos written]
  apply of_text (f := fun v => bindNames schema.enumNames v >>= fun _ => amongNames schema.enumNames)
  case text =>
    intro j admits
    rw [value] at admits
    obtain ⟨t, rfl, _⟩ := Ty.admits_oneOf.mp admits
    exact ⟨t, rfl⟩
  case read =>
    intro ctx expected
    have data : Conversion.asserted schema (Conversion.property name) =
        Conversion.asEnum schema.enumNames (Conversion.property name) := by
      simp only [Conversion.asserted,written]
    rw [data,output]
    exact Expr.read_asEnum schema.enumNames name (output ▸ fits expected)
  case made =>
    intro s
    cases now : propertyOf .string name s with
    | mk result s' => cases result <;> simp [inScope,namesAround,bindNames,Eval.bindAll,now]
  case passes =>
    intro t s admits
    rw [value] at admits
    obtain ⟨_, same, listed⟩ := Ty.admits_oneOf.mp admits
    cases same
    rw [amongNames_bound,if_pos listed]
    simp only [Schema.valueOf,written]
    rfl
  case fails =>
    intro t s unfit
    rw [value] at unfit
    have unlisted : t ∉ schema.enumNames := fun listed =>
      Bool.false_ne_true (unfit.symm.trans (Ty.admits_oneOf.mpr ⟨t, rfl, listed⟩))
    rw [amongNames_bound,if_neg unlisted]
    exact ⟨_, rfl⟩

end Asserts

theorem Schema.asserts {schema : Schema} (known : schema.Known)
    (assertable : schema.typeName = "array" → schema.Assertable) (name : String) :
    ∃ a, Asserts schema name a := by
  simp only [Known,List.mem_cons,List.not_mem_nil,or_false] at known
  rcases known with number | string | boolean | color | enum | array
  · exact ⟨_, .of_scalar .number number rfl (by simp) (by decide) rfl fun _ _ => rfl⟩
  · exact ⟨_, .of_scalar .string string rfl (by simp) (by decide) rfl fun _ _ => rfl⟩
  · exact ⟨_, .of_scalar .boolean boolean rfl (by simp) (by decide) rfl fun _ _ => rfl⟩
  · exact ⟨_, .of_color color⟩
  · exact ⟨_, .of_enum enum _⟩
  · exact ⟨_, .of_array array (assertable array)⟩

theorem Asserts.fallback {schema : Schema} {name : String} {a : Eval Value}
    (asserts : Asserts schema name a) (known : schema.Known) (default : Value) (s : Session) :
    Value.fallback default (a s).1 =
      match s.feature.bind (· name) with
      | some j => if schema.valueType.admits j then schema.valueOf j else default
      | none => default := by
  have failing : (∀ j, s.feature.bind (· name) = some j → schema.valueType.admits j = false) →
      Value.fallback default (a s).1 = default := by
    intro unfit
    obtain ⟨e, failed⟩ := asserts.fails s unfit
    rw [failed]
    rfl
  cases found : s.feature.bind (· name) with
  | none => exact failing fun j there => nomatch found.symm.trans there
  | some j =>
      cases admits : schema.valueType.admits j with
      | true =>
          have present := (Schema.form_of_admits known admits).isNull
          rw [asserts.passes s j found admits]
          simp only [Value.fallback,present,Bool.false_eq_true,if_false,admits,if_true]
      | false =>
          simp only [admits,Bool.false_eq_true,if_false]
          refine failing fun other there => ?_
          cases found.symm.trans there
          exact admits

theorem Asserts.admitted {schema : Schema} {name : String} {a : Eval Value}
    (asserts : Asserts schema name a) {s : Session} {v : Value} (done : (a s).1 = .ok v) :
    ∃ j, s.feature.bind (· name) = some j ∧ schema.valueType.admits j = true ∧
      v = schema.valueOf j := by
  by_cases there : ∃ j, s.feature.bind (· name) = some j ∧ schema.valueType.admits j = true
  · obtain ⟨j, found, admits⟩ := there
    rw [asserts.passes s j found admits] at done
    cases done
    exact ⟨j, found, admits, rfl⟩
  · obtain ⟨e, failed⟩ := asserts.fails s fun j found =>
      Bool.eq_false_iff.mpr fun admits => there ⟨j, found, admits⟩
    rw [failed] at done
    cases done

namespace PropertyExpression

variable {raw : Json} {schema : Schema} {key : Option String} {f : StopFunction}

theorem evaluate_identity {default : Json} (defaulted : Defaulted raw schema f default)
    (assertable : schema.typeName = "array" → schema.Assertable) {name : String}
    (property : f.property = some name) (noStops : f.stops = none) :
    ∃ p, create raw schema key = .ok p ∧ ∀ zoom feature,
      (p.evaluate zoom feature).1 = .ok (
        match feature.bind (· name) with
        | some j => if schema.valueType.admits j then schema.valueOf j else schema.valueOf default
        | none => schema.valueOf default) := by
  obtain ⟨a, asserts⟩ := Schema.asserts defaulted.known assertable name
  have made : Conversion.body f schema =
      .ok (Conversion.asserted schema (Conversion.property name)) := by
    simp only [Conversion.body,noStops,property]
  obtain ⟨p, created, value⟩ := defaulted.create made asserts.read
  refine ⟨p, created, ?_⟩
  intro zoom feature
  rw [value,asserts.fallback defaulted.known]
  rfl

theorem evaluate_identity_offset :
    let one : Json := .num (.int 1 (by decide))
    let raw : Json := .obj [("default", .arr [one, one]), ("property", .str "offset")]
    let f : StopFunction := ⟨some "offset", none, none, none, some (.arr [one, one]), none⟩
    let schema : Schema := ⟨"array", some "number", some 2, none, none, none⟩
    let two : Json := .num (.int 2 (by decide))
    Defaulted raw schema f (.arr [one, one]) ∧ schema.Assertable ∧
      ∃ p, create raw schema none = .ok p ∧
        (p.evaluate none (some fun _ => some (.arr [one, two]))).1 =
          .ok (Value.ofJson (.arr [one, two])) ∧
        (p.evaluate none (some fun _ => some (.arr [one, .str "2"]))).1 =
          .ok (Value.ofJson (.arr [one, one])) := by
  intro one raw f schema two
  have defaulted : Defaulted raw schema f (.arr [one, one]) := ⟨by decide, rfl, rfl, rfl, rfl⟩
  have assertable : schema.Assertable := by
    constructor
    · rintro name ⟨⟩
      decide
    · rintro n ⟨⟩
      decide
  obtain ⟨p, created, value⟩ := evaluate_identity defaulted (fun _ => assertable) rfl rfl
  exact ⟨defaulted, assertable, p, created, value _ _, value _ _⟩

end PropertyExpression

end MapStyle
