import MapStyle.Proofs.Property.Operands

-- Functions of a property that is true or false. The keys of the stops are not looked up:
-- the first one decides whether the condition is negated, and whatever the condition does
-- not choose is left to the second stop or to the default.

namespace MapStyle

open Reading Attempt

namespace Eval

def isTruth (b : Bool) (a : Eval Value) : Eval Value :=
  if b then a else do
    let t ← truth (← a)
    pure (.bool !t)

def twoWay (b : Bool) (chosen other v : Value) : Eval Value := do
  let t ← truth v
  pure (if t == b then chosen else other)

theorem firstTrue_isTruth (b : Bool) (a : Eval Value) (chosen other : Value) :
    firstTrue (pure other) [⟨isTruth b a, pure chosen⟩] =
      (do twoWay b chosen other (← a)) := by
  funext s
  -- Whichever the first key is, the value fails, is no truth value or is one.
  cases b
  all_goals
    simp [firstTrue,isTruth,twoWay]
    cases a s with
    | mk result s' =>
        cases result with
        | error e => rfl
        | ok v =>
            cases v with
            | bool t => cases t <;> rfl
            | _ => rfl

end Eval

def Conversion.condition (b : Bool) (name : String) : Json :=
  let input : Json := .arr [.str "boolean", property name]
  if b then input else .arr [.str "!", input]

theorem Expr.read_isTruth (b : Bool) (name : String) {ctx : Context}
    (expected : ctx.expected = some .boolean) :
    ∃ e, Expr.read (Conversion.condition b name) ctx = pure e ∧
      e.eval = Eval.isTruth b (Eval.propertyOf .boolean name) := by
  cases b with
  | true => exact Expr.read_expected .boolean rfl (fun _ _ => rfl) name expected
  | false =>
      obtain ⟨e, read, value⟩ := Expr.read_expected .boolean rfl (fun _ _ => rfl) name
        (rfl : (ctx.derive (.index 1) (some .boolean)).expected = some .boolean)
      refine ⟨ctx.expr .boolean (.not e), ?_, ?_⟩
      · refine Expr.read_operator_of_expected .not [_] rfl expected rfl ?_
        exact not_eq_pure.mpr ⟨e, read, rfl⟩
      · rw [Expr.eval_eq]
        show (do
          let t ← Eval.truth (← e.eval)
          pure (Value.bool !t)) = _
        rw [value]
        rfl

theorem Expr.read_twoWay {schema : Schema} {condition first second chosen other : Json}
    {a : Eval Value} {v w : Value} {ctx : Context} (expected : ctx.expected = some schema.valueType)
    (form : schema.Form first chosen v) (form' : schema.Form second other w)
    (given : ∀ ctx : Context, ctx.expected = some .boolean →
      ∃ e, Expr.read condition ctx = pure e ∧ e.eval = a) :
    ∃ e, Expr.read (.arr [.str "case", condition, chosen, other]) ctx = pure e ∧
      e.type = schema.outputType ∧ e.eval = Eval.firstTrue (pure w) [⟨a, pure v⟩] := by
  obtain ⟨c, read, evaluates⟩ := given (ctx.derive (.index 1) (some .boolean)) rfl
  obtain ⟨o, output, value⟩ := form.output 2 expected (.inl rfl)
  obtain ⟨o', output', value'⟩ := form'.output 3 expected (.inr rfl)
  refine ⟨ctx.expr schema.outputType (.case [⟨c, o⟩] o'), ?_, rfl, ?_⟩
  · refine Expr.read_operator_of_expected .case [condition, chosen, other] rfl expected
      schema.accepts_outputType ?_
    show case ctx (Expr.operands [condition, chosen, other]) = _
    refine case_eq_pure.mpr ⟨[(⟨condition, Expr.read condition⟩, ⟨chosen, Expr.read chosen⟩)],
      ⟨other, Expr.read other⟩, _, [⟨c, o⟩], _, o', rfl, ?_, output', rfl⟩
    exact branches_cons_eq_pure.mpr ⟨c, o, _, [], read, output, rfl, rfl⟩
  · rw [Expr.eval_eq]
    show Eval.firstTrue o'.eval [⟨c.eval, o.eval⟩] = _
    rw [evaluates,value,value']

namespace Conversion

variable {f : StopFunction} {schema : Schema} {default : Json}

def otherwise (default : Json) (rest : List (Json × Json)) : Json :=
  (rest.head?.map Prod.snd).getD default

theorem otherwise_form {rest : List (Json × Json)} (known : schema.Known)
    (form : schema.Form default (defaultOf f schema) (schema.valueOf default))
    (outputs : ∀ s ∈ rest, schema.valueType.admits s.2 = true) :
    schema.Form (otherwise default rest)
      (otherwise (defaultOf f schema) (withConstants schema rest))
      (schema.valueOf (otherwise default rest)) := by
  cases rest with
  | nil => exact form
  | cons s others => exact Schema.form_of_admits known (outputs s List.mem_cons_self)

theorem body_boolean {name : String} {b : Bool} {output converted : Json}
    {rest : List (Json × Json)} (kind : f.kind = none ∨ f.kind = some "categorical")
    (property : f.property = some name) (stops : f.stops = some ((.bool b, output) :: rest))
    (made : body f schema = .ok converted) :
    rest.length ≤ 1 ∧ converted = .arr [.str "case", condition b name, constant schema output,
      otherwise (defaultOf f schema) (withConstants schema rest)] := by
  have truth : ∃ k, kindOf f schema = .ok k ∧ (k = .categorical ∨ f.kind.isNone = true) := by
    rcases kind with unsaid | categorical
    · rw [kindOf,unsaid]
      dsimp only
      split
      · exact ⟨_, rfl, .inr rfl⟩
      · exact ⟨_, rfl, .inr rfl⟩
    · rw [kindOf,categorical]
      exact ⟨_, rfl, .inl rfl⟩
  obtain ⟨k, resolved, choice⟩ := truth
  have chosen : ofProperty f schema (defaultOf f schema)
      (withConstants schema ((.bool b, output) :: rest)) = .ok converted := by
    unfold body at made
    rw [stops,property] at made
    dsimp only at made
    split at made
    · cases made
    · exact made
  simp only [ofProperty,resolved,withConstants,List.map_cons,inputType?,choice,and_self,if_true,
    booleanChoice,List.length_map] at chosen
  split at chosen
  · cases chosen
  · rename_i few
    refine ⟨Nat.le_of_not_lt few, ?_⟩
    rw [property] at chosen
    cases b <;> exact (Except.ok.inj chosen).symm

end Conversion

def Conversion.choose (b : Bool) (chosen other default : Value) : Option Json → Value
  | some (.bool t) => if t == b then chosen else other
  | _ => default

theorem Eval.fallback_twoWay (b : Bool) {chosen other : Value} (present : chosen.isNull = false)
    (present' : other.isNull = false) (default : Value) (name : String) (s : Session) :
    Value.fallback default ((do twoWay b chosen other (← propertyOf .boolean name)) s).1 =
      Conversion.choose b chosen other default (s.feature.bind (· name)) := by
  let result (v : Value) : Except EvalError Value := (twoWay b chosen other v s).1
  have settled : ∀ v t, (twoWay b chosen other v t).1 = result v := by
    intro v t
    cases v <;> rfl
  rw [propertyOf_fallback .boolean name default settled]
  cases s.feature.bind (· name) with
  | none => rfl
  | some j =>
      cases j with
      | bool t =>
          show Value.fallback default (.ok (if t == b then chosen else other)) = _
          have filled : (if t == b then chosen else other).isNull = false := by
            split
            · exact present
            · exact present'
          rw [Value.fallback,filled]
          rfl
      | _ => exact ite_self default

namespace Conversion

variable {schema : Schema} {default output : Json} {b : Bool} {rest : List (Json × Json)}

theorem choose_under (few : rest.length ≤ 1) (keys : ∀ s ∈ rest, ∃ c, s.1 = .bool c) {j : Json}
    {s : Json × Json} (under : ((.bool b, output) :: rest).find? (fun t => t.1 == j) = some s) :
    choose b (schema.valueOf output) (schema.valueOf (otherwise default rest))
      (schema.valueOf default) (some j) = schema.valueOf s.2 := by
  have key : ∃ c, s.1 = .bool c := by
    rcases List.mem_cons.mp (List.mem_of_find?_eq_some under) with rfl | belongs
    · exact ⟨b, rfl⟩
    · exact keys s belongs
  obtain ⟨c, key⟩ := key
  have same := List.find?_some under
  rw [key] at same
  cases j with
  | bool t =>
      have own : (c == t) = true := same
      rw [List.find?_cons] at under
      cases first : b == t with
      | true =>
          rw [show ((Json.bool b, output).1 == Json.bool t) = true from first] at under
          cases under
          show (if t == b then _ else _) = _
          rw [BEq.comm,first,if_pos rfl]
      | false =>
          rw [show ((Json.bool b, output).1 == Json.bool t) = false from first] at under
          have member := List.mem_of_find?_eq_some under
          have single : rest.length = 1 := by
            have filled := List.length_pos_of_mem member
            omega
          obtain ⟨r, rfl⟩ := List.length_eq_one_iff.mp single
          obtain rfl := List.mem_singleton.mp member
          show (if t == b then _ else _) = _
          rw [BEq.comm,first,if_neg Bool.false_ne_true]
          rfl
  | _ => cases same

theorem choose_default (few : rest.length ≤ 1) (keys : ∀ s ∈ rest, ∃ c, s.1 = .bool c)
    {found : Option Json}
    (other : ∀ s ∈ (.bool b, output) :: rest, ∀ j, found = some j → (s.1 == j) = false)
    (apart : (((.bool b, output) :: rest).Pairwise fun s t => (s.1 == t.1) = false) ∨
      ∀ t, found ≠ some (.bool t)) :
    choose b (schema.valueOf output) (schema.valueOf (otherwise default rest))
      (schema.valueOf default) found = schema.valueOf default := by
  cases found with
  | none => rfl
  | some j =>
      cases j with
      | bool t =>
          obtain ⟨first, others⟩ := List.forall_mem_cons.mp other
          have first : (b == t) = false := first _ rfl
          show (if t == b then _ else _) = _
          rw [BEq.comm,first,if_neg Bool.false_ne_true]
          cases rest with
          | nil => rfl
          | cons s rest =>
              -- Of three different truth values two are the same.
              obtain ⟨c, key⟩ := keys s List.mem_cons_self
              have second := others s List.mem_cons_self _ rfl
              rcases apart with different | truthless
              · have third := (List.pairwise_cons.mp different).1 s List.mem_cons_self
                rw [key] at second third
                cases b <;> cases c <;> cases t <;> contradiction
              · exact absurd rfl (truthless t)
      | _ => rfl

end Conversion

namespace PropertyExpression

variable {raw : Json} {schema : Schema} {f : StopFunction} {default : Json}

theorem evaluate_twoWay (defaulted : Defaulted raw schema f default)
    (kind : f.kind = none ∨ f.kind = some "categorical") {name : String}
    (property : f.property = some name) {b : Bool} {output : Json} {rest : List (Json × Json)}
    (table : f.stops = some ((.bool b, output) :: rest))
    (outputs : ∀ s ∈ (.bool b, output) :: rest, schema.valueType.admits s.2 = true) {data : Json}
    (converted : Conversion.convert raw schema = .ok data) (key : Option String) :
    rest.length ≤ 1 ∧ ∃ p, create raw schema key = .ok p ∧ ∀ zoom feature,
      (p.evaluate zoom feature).1 = .ok (Conversion.choose b (schema.valueOf output)
        (schema.valueOf (Conversion.otherwise default rest)) (schema.valueOf default)
        (feature.bind (· name))) := by
  have whole : Conversion.ofFunction f schema = .ok data := by
    rw [Conversion.convert,defaulted.function] at converted
    exact converted
  obtain ⟨here, others⟩ := List.forall_mem_cons.mp outputs
  have form := Schema.form_of_admits defaulted.known here
  have form' := Conversion.otherwise_form defaulted.known defaulted.form others
  cases made : Conversion.body f schema with
  | error e =>
      rw [Conversion.ofFunction,made] at whole
      cases whole
  | ok body =>
      obtain ⟨few, rfl⟩ := Conversion.body_boolean kind property table made
      obtain ⟨p, created, value⟩ := defaulted.create made fun ctx expected =>
        Expr.read_twoWay expected form form' fun _ condition => Expr.read_isTruth b name condition
      refine ⟨few, p, created, ?_⟩
      intro zoom feature
      rw [value,Eval.firstTrue_isTruth,
        Eval.fallback_twoWay b form.isNull form'.isNull]
      rfl

theorem evaluate_boolean (defaulted : Defaulted raw schema f default)
    (kind : f.kind = none ∨ f.kind = some "categorical") {name : String}
    (property : f.property = some name) {stops : List (Json × Json)} (table : f.stops = some stops)
    (filled : stops ≠ []) (keys : ∀ s ∈ stops, ∃ b, s.1 = .bool b)
    (outputs : ∀ s ∈ stops, schema.valueType.admits s.2 = true) {data : Json}
    (converted : Conversion.convert raw schema = .ok data) (key : Option String) :
    ∃ p, create raw schema key = .ok p ∧ ∀ (zoom : Option Float) (feature : Option Feature),
      (∀ j s, feature.bind (· name) = some j → stops.find? (fun t => t.1 == j) = some s →
        (p.evaluate zoom feature).1 = .ok (schema.valueOf s.2)) ∧
      ((∀ s ∈ stops, ∀ j, feature.bind (· name) = some j → (s.1 == j) = false) →
        (stops.Pairwise fun s t => (s.1 == t.1) = false) ∨
          (∀ b, feature.bind (· name) ≠ some (.bool b)) →
        (p.evaluate zoom feature).1 = .ok (schema.valueOf default)) := by
  obtain ⟨⟨input, output⟩, rest, rfl⟩ := List.exists_cons_of_ne_nil filled
  obtain ⟨⟨b, rfl⟩, others⟩ := List.forall_mem_cons.mp keys
  obtain ⟨few, p, created, value⟩ :=
    evaluate_twoWay defaulted kind property table outputs converted key
  refine ⟨p, created, ?_⟩
  intro zoom feature
  rw [value]
  constructor
  · intro j s found under
    rw [found,Conversion.choose_under few others under]
  · intro other apart
    rw [Conversion.choose_default few others other apart]

theorem evaluate_boolean_single :
    let stops : List (Json × Json) := [(.bool false, .str "closed")]
    let raw : Json := .obj [("property", .str "open"),
      ("stops", .arr (stops.map fun s => .arr [s.1, s.2]))]
    let f : StopFunction := ⟨some "open", none, none, none, none, some stops⟩
    let schema := (Schema.ofTypeName "string").withDefault (.str "unknown")
    let having (j : Json) : Feature := Feature.ofMembers [("open", j)]
    Defaulted raw schema f (.str "unknown") ∧
      (∀ s ∈ stops, schema.valueType.admits s.2 = true) ∧
      ∃ data, Conversion.convert raw schema = .ok data ∧ ∃ p, create raw schema none = .ok p ∧
        (p.evaluate none (some (having (.bool false)))).1 = .ok (schema.valueOf (.str "closed")) ∧
        (p.evaluate none (some (having (.bool true)))).1 = .ok (schema.valueOf (.str "unknown")) ∧
        (p.evaluate none (some (having (.str "no")))).1 = .ok (schema.valueOf (.str "unknown")) := by
  intro stops raw f schema having
  have defaulted : Defaulted raw schema f (.str "unknown") := ⟨by decide, rfl, rfl, rfl, rfl⟩
  have outputs : ∀ s ∈ stops, schema.valueType.admits s.2 = true := by decide
  have keys : ∀ s ∈ stops, ∃ b, s.1 = .bool b := by simp [stops]
  obtain ⟨p, created, value⟩ := evaluate_boolean defaulted (.inl rfl) rfl rfl (by simp [stops]) keys
    outputs rfl none
  have other : ∀ j, (Json.bool false == j) = false → (p.evaluate none (some (having j))).1 =
      .ok (schema.valueOf (.str "unknown")) := by
    intro j different
    refine (value none _).2 ?_ (.inl (List.pairwise_singleton _ _))
    intro s member j' found
    cases found
    rwa [List.mem_singleton.mp member]
  exact ⟨defaulted, outputs, _, rfl, p, created, (value none _).1 (.bool false) _ rfl rfl,
    other (.bool true) rfl, other (.str "no") rfl⟩

-- Two stops for one truth value. The second one is taken for the other truth value, though
-- no stop is under it.
theorem evaluate_boolean_repeated :
    let stops : List (Json × Json) := [(.bool true, .str "a"), (.bool true, .str "b")]
    let raw : Json := .obj [("property", .str "p"),
      ("stops", .arr (stops.map fun s => .arr [s.1, s.2])), ("type", .str "categorical")]
    let f : StopFunction := ⟨some "p", some "categorical", none, none, none, some stops⟩
    let schema := (Schema.ofTypeName "string").withDefault (.str "d")
    let feature : Feature := Feature.ofMembers [("p", .bool false)]
    Defaulted raw schema f (.str "d") ∧ (∀ s ∈ stops, schema.valueType.admits s.2 = true) ∧
      (∃ data, Conversion.convert raw schema = .ok data) ∧
      (∀ s ∈ stops, (s.1 == .bool false) = false) ∧
      ∃ p, create raw schema none = .ok p ∧
        (p.evaluate none (some feature)).1 = .ok (schema.valueOf (.str "b")) ∧
        (p.evaluate none (some feature)).1 ≠ .ok (schema.valueOf (.str "d")) := by
  intro stops raw f schema feature
  have defaulted : Defaulted raw schema f (.str "d") := ⟨by decide, rfl, rfl, rfl, rfl⟩
  have outputs : ∀ s ∈ stops, schema.valueType.admits s.2 = true := by decide
  obtain ⟨_, p, created, value⟩ :=
    evaluate_twoWay defaulted (.inr rfl) rfl rfl outputs rfl none
  have second : (p.evaluate none (some feature)).1 = .ok (schema.valueOf (.str "b")) :=
    value none (some feature)
  refine ⟨defaulted, outputs, ⟨_, rfl⟩, by decide, p, created, second, ?_⟩
  rw [second]
  intro same
  exact absurd (Value.str.inj (Except.ok.inj same)) (by decide)

end PropertyExpression

end MapStyle
