import MapStyle.Proofs.Property.Choices
import MapStyle.Proofs.Property.Constants
import MapStyle.Proofs.Reading.Inside
import MapStyle.Proofs.Reading.Places

-- The properties that a converted function asks of the feature. Its data asks for one by
-- a name only, and what it was given as constants asks for none.

namespace MapStyle

open Reading Attempt

variable {P : String → Prop}

namespace Eval

variable {α : Type}

def AsksOnly (P : String → Prop) (a : Eval α) : Prop :=
  ∀ s, ∀ name ∈ (a s).2.reads, name ∈ s.reads ∨ P name

theorem asksOnly_of_silent {a : Eval α} (silent : ∀ s, (a s).2.reads = s.reads) : AsksOnly P a := by
  intro s name asked
  rw [silent] at asked
  exact .inl asked

theorem property_asksOnly {name : String} (known : P name) : AsksOnly P (property name) := by
  intro s other asked
  unfold property at asked
  split at asked
  · rcases List.mem_append.mp asked with before | here
    · exact .inl before
    · rw [List.mem_singleton.mp here]
      exact .inr known
  · exact .inl asked

theorem asksOnly_composes :
    Composes (fun _ => True) fun α (a : Unit → Eval α) => AsksOnly P (a ()) where
  value _ := asksOnly_of_silent fun _ => rfl
  failure _ _ := asksOnly_of_silent fun _ => rfl
  onward head tail := by
    intro s name asked
    rcases tail _ (fun _ _ => trivial) _ name asked with before | here
    · exact head s name before
    · exact .inr here

theorem zoom_asksOnly : AsksOnly P zoom := by
  refine asksOnly_of_silent fun s => ?_
  unfold zoom
  split <;> rfl

theorem lookup_asksOnly (name : String) : AsksOnly P (lookup name) := by
  refine asksOnly_of_silent fun s => ?_
  unfold lookup
  split <;> rfl

theorem get_asksOnly {name : String} (known : P name) : AsksOnly P (Eval.get (.str name)) := by
  refine asksOnly_composes.bind (A := fun _ => property name) (F := fun found _ => _)
    (property_asksOnly known) fun found => ?_
  cases found with
  | some j => exact asksOnly_of_silent fun _ => rfl
  | none => exact asksOnly_of_silent fun _ => rfl

end Eval

open Eval

theorem Expr.eval_asksOnly {e : Expr} (silent : e.node.asksFeature = false)
    (each : ∀ c ∈ e.node.children, AsksOnly P c.eval) : AsksOnly P e.eval := by
  rw [Expr.eval_eq]
  refine asksOnly_composes.run (f := fun _ c => c.eval) ?_ (fun _ _ => trivial) ?_ zoom_asksOnly
    lookup_asksOnly e.node ?_ each
  · intro name v
    exact asksOnly_of_silent fun _ => rfl
  · intro A inside
    exact inside
  · intro asks
    rw [silent] at asks
    cases asks

theorem Expr.literal_asksOnly {e : Expr} {v : Value} (literal : e.node = .literal v) :
    AsksOnly P e.eval := by
  refine Expr.eval_asksOnly (by rw [literal]; rfl) fun c member => ?_
  rw [literal] at member
  cases member

theorem Expr.read_asksOnly {data : Json} (scalar : ∀ items, data ≠ .arr items) {ctx : Context}
    {e : Expr} (read : Expr.read data ctx = pure e) : AsksOnly P e.eval := by
  have read := (Expr.read_eq_pure.mp read).1
  rcases Expr.readAny_eq_pure.mp read with ⟨op, args, rfl, _⟩ | ⟨_, rfl⟩
  · exact absurd rfl (scalar _)
  · exact Expr.literal_asksOnly rfl

def Operator.asksFeature : Operator → Nat → Bool
  | .get, _ => true
  | .has, operands => operands == 1
  | _, _ => false

theorem Reading.operator_silent {op : Operator} {ctx : Context} {operands : List Operand} {e : Expr}
    (silent : op.asksFeature operands.length = false)
    (success : operator op ctx operands = pure e) : e.node.asksFeature = false := by
  have kind := operator_kind success
  cases node : e.node with
  | get name =>
      rw [node] at kind
      cases kind
      cases silent
  | has key =>
      rw [node] at kind
      cases kind
      rcases operator_has_eq_pure.mp success with ⟨key, rfl, _⟩ | ⟨key, object, rfl, success⟩
      · cases silent
      · obtain ⟨k, o, _, _, rfl⟩ := hasIn_eq_pure.mp success
        cases node
  | _ => rfl

theorem Json.ofFloat_ne_arr (x : Float) (items : List Json) : Json.ofFloat x ≠ .arr items := by
  unfold Json.ofFloat
  cases Number.ofFloat? x with
  | some n =>
      intro same
      cases same
  | none =>
      intro same
      cases same

theorem Json.ofNat_ne_arr (n : Nat) (items : List Json) : Json.ofNat n ≠ .arr items := by
  unfold Json.ofNat
  cases Number.ofInt? n with
  | some i =>
      intro same
      cases same
  | none => exact Json.ofFloat_ne_arr n.toFloat items

namespace Conversion

-- Data that asks for these properties alone, each by its name. What a `match` compares
-- its input with is not data to be evaluated, and neither is where the stops of a curve
-- are.
inductive Confined (P : String → Prop) : Json → Prop
  | scalar (data : Json) : (∀ items, data ≠ .arr items) → Confined P data
  | literal (data : Json) : Confined P (.arr [.str "literal", data])
  | get (name : String) : P name → Confined P (property name)
  | select (input default : Json) (stops : List (Json × Json)) : Confined P input →
      (∀ s ∈ stops, Confined P s.2) → Confined P default →
      Confined P (.arr (.str "match" :: input :: flatStops stops ++ [default]))
  | curve (interpolation input : Json) (stops : List (Json × Json)) : Confined P input →
      (∀ s ∈ stops, Confined P s.2) →
      Confined P (.arr (.str "curve" :: interpolation :: input :: flatStops stops))
  | apply (op : Operator) (args : List Json) : op.asksFeature args.length = false →
      (∀ a ∈ args, Confined P a) → Confined P (.arr (.str op.tag :: args))

-- The induction is on the data. Sub-expressions are read inside it, and of a `match` and
-- a curve those that are no labels and no stop inputs.
theorem Confined.asksOnly {data : Json} (confined : Confined P data) {ctx : Context} {e : Expr}
    (read : Expr.read data ctx = pure e) : AsksOnly P e.eval := by
  induction confined generalizing ctx e with
  | scalar data scalar => exact Expr.read_asksOnly scalar read
  | literal data =>
      obtain ⟨o, _, made⟩ := withOne_eq_pure.mp (Expr.operator_of_read .literal _ read)
      obtain rfl := pure_eq_pure.mp made
      exact Expr.literal_asksOnly rfl
  | get name known =>
      obtain ⟨c, read', evaluates⟩ :=
        Expr.read_property name (rfl : (Context.root none none).expected = none)
      rw [Expr.read_eval read read',evaluates]
      exact get_asksOnly known
  | select input default stops _ _ _ ih ih' ih'' =>
      obtain ⟨i, as, o, node, ⟨_, first⟩, ⟨_, last⟩, outputs⟩ := read_select read
      refine Expr.eval_asksOnly (by rw [node]; rfl) fun c member => ?_
      rw [node] at member
      rcases List.mem_append.mp member with heads | last'
      · rcases List.mem_cons.mp heads with rfl | arm
        · exact ih first
        · obtain ⟨a, belongs, rfl⟩ := List.mem_map.mp arm
          obtain ⟨s, stop, _, output⟩ := outputs a belongs
          exact ih' s stop output
      · rw [List.mem_singleton.mp last']
        exact ih'' last
  | curve interpolation input stops _ _ ih ih' =>
      obtain ⟨i, x, ss, node, ⟨_, first⟩, outputs⟩ := read_curve read
      refine Expr.eval_asksOnly (by rw [node]; rfl) fun c member => ?_
      rw [node] at member
      rcases List.mem_cons.mp member with rfl | stop
      · exact ih first
      · obtain ⟨p, belongs, rfl⟩ := List.mem_map.mp stop
        obtain ⟨s, stop, _, output⟩ := outputs p belongs
        exact ih' s stop output
  | apply op args silent _ ih =>
      have silent := operator_silent
        (by simpa using silent)
        (Expr.operator_of_read op args read)
      refine Expr.eval_asksOnly silent fun c member => ?_
      rw [← e.node.located_children ctx.scope] at member
      obtain ⟨p, inside, rfl⟩ := List.mem_map.mp member
      obtain ⟨position, part, expected, here, read⟩ := Expr.read_inside read p inside
      cases position with
      | zero =>
          cases here
          refine Expr.read_asksOnly ?_ read
          intro items same
          cases same
      | succ position => exact ih part (List.mem_of_getElem? here) read

theorem confined_text (s : String) : Confined P (.str s) :=
  .scalar _ nofun

theorem confined_apply (op : Operator) {args : List Json}
    (silent : op.asksFeature args.length = false) (each : args.Forall (Confined P)) :
    Confined P (.arr (.str op.tag :: args)) :=
  .apply op args silent (List.forall_iff_forall_mem.mp each)

variable {f : StopFunction} {schema : Schema} {converted : Json}

theorem compared_confined {first : Json} {type : String} (typed : inputType? first = .ok type)
    (known : P (f.property.getD "")) : Confined P (compared f type) := by
  have named := Confined.get _ known
  cases first with
  | str s =>
      cases typed
      exact confined_apply .string rfl named
  | num n =>
      cases typed
      exact confined_apply .number rfl named
  | bool b =>
      cases typed
      exact confined_apply .boolean rfl named
  | _ => cases typed

theorem condition_confined {input condition : Json} (confined : Confined P input)
    (form : Condition input condition) : Confined P condition := by
  cases form with
  | holds => exact confined
  | fails => exact confined_apply .not rfl confined

theorem chooses_confined (known : P (f.property.getD "")) : Chooses f (Confined P) where
  case typed form chosen other := confined_apply .case rfl
    ⟨condition_confined (compared_confined typed known) form, chosen, other⟩
  select typed outputs last := .select _ _ _ (compared_confined typed known) outputs last
  curve typed outputs := .curve _ _ _ (compared_confined typed known) outputs

theorem climbs_confined : Climbs (Confined P) := by
  intro interpolation stops outputs
  exact .curve _ _ _ (confined_apply .zoom rfl trivial) outputs

theorem form_confined {data written : Json} {v : Value} (form : schema.Form data written v) :
    Confined P written := by
  cases form with
  | scalar data scalar =>
      refine .scalar data ?_
      rintro items rfl
      cases scalar
  | color s c _ _ => exact confined_apply .parseColor rfl (confined_text s)
  | array items item length _ _ _ => exact .literal _

theorem asArray_confined {data : Json} (confined : Confined P data) :
    Confined P (asArray schema data) := by
  have number : ∀ n, Confined P (.ofNat n) := fun n => .scalar _ (Json.ofNat_ne_arr n)
  unfold asArray
  split
  · exact confined_apply .array rfl ⟨confined_text _, number _, confined⟩
  · exact confined_apply .array rfl ⟨confined_text _, number _, confined⟩
  · exact confined_apply .array rfl ⟨confined_text _, confined⟩
  · exact confined_apply .array rfl confined

theorem asEnum_confined {names : List String} {data : Json} (confined : Confined P data) :
    Confined P (asEnum names data) := by
  have var : ∀ name, Confined P (.arr [.str "var", .str name]) := fun name =>
    confined_apply .var rfl (confined_text name)
  have text : Confined P (.arr [.str "string", data]) := confined_apply .string rfl confined
  have listed : ∀ name other, Confined P
      (.arr [.str "has", .arr [.str "var", .str name], .arr [.str "var", .str other]]) := fun _ _ =>
    confined_apply .has rfl ⟨var _, var _⟩
  have error : ∀ message, Confined P (.arr [.str "error", .str message]) := fun message =>
    confined_apply .error rfl (confined_text message)
  exact confined_apply .letIn rfl ⟨confined_text _, text, confined_text _, .literal _,
    confined_apply .case rfl ⟨listed _ _, var _, error _⟩⟩

theorem asserted_confined (known : schema.Known) {data : Json} (confined : Confined P data) :
    Confined P (asserted schema data) := by
  simp only [Schema.Known,List.mem_cons,List.not_mem_nil,or_false] at known
  rcases known with type | type | type | type | type | type
  all_goals simp only [asserted,type]
  · exact confined_apply .number rfl confined
  · exact confined_apply .string rfl confined
  · exact confined_apply .boolean rfl confined
  · exact confined_apply .parseColor rfl
      (confined_apply .string rfl confined)
  · exact asEnum_confined confined
  · exact asArray_confined confined

-- The property that a function may ask for: its own, or one without a name where it needs
-- one and has none.
def MayAsk (f : StopFunction) (name : String) : Prop :=
  f.property = some name ∨ f.property = none ∧ name = "" ∧ Grouped f

theorem mayAsk_compared (compares : Compares f) : MayAsk f (f.property.getD "") := by
  cases property : f.property with
  | some name => exact .inl property
  | none =>
      rcases compares with given | grouped
      · rw [property] at given
        cases given
      · exact .inr ⟨property, rfl, grouped⟩

theorem constant_confined (known : schema.Known) {data : Json}
    (admits : schema.valueType.admits data = true) : Confined P (constant schema data) :=
  form_confined (Schema.form_of_admits known admits)

theorem defaultOf_confined (known : schema.Known)
    (given : ∀ d, f.default.or schema.default = some d → schema.valueType.admits d = true) :
    Confined P (defaultOf f schema) := by
  refine defaultOf_keeps (fun message => ?_) fun d found => constant_confined known (given d found)
  exact confined_apply .error rfl (confined_text message)

theorem body_confined (known : schema.Known)
    (given : ∀ d, f.default.or schema.default = some d → schema.valueType.admits d = true)
    (outputs : ∀ stops, f.stops = some stops → ∀ s ∈ stops, schema.valueType.admits s.2 = true)
    (made : body f schema = .ok converted) : Confined (MayAsk f) converted := by
  refine body_keeps climbs_confined (fun compares => chooses_confined (mayAsk_compared compares))
    ?_ ?_ (defaultOf_confined known given) made
  · intro name property
    exact asserted_confined known (.get name (.inl property))
  · intro stops filled s member
    exact constant_confined known (outputs stops filled s member)

end Conversion

namespace PropertyExpression

variable {raw : Json} {schema : Schema} {key : Option String} {f : StopFunction}

theorem reads_compile (e : Expr) (zoom : Option Float) (feature : Option Feature) :
    (PropertyExpression.evaluate ⟨e.compile⟩ zoom feature).2 =
      (e.eval (Session.start zoom feature)).2.reads :=
  congrArg Prod.snd (compile_evaluate e zoom feature)

theorem evaluate_asked {p : PropertyExpression} (known : schema.Known)
    (object : raw.isObject = true) (function : StopFunction.ofJson? raw = some f)
    (given : ∀ d, f.default.or schema.default = some d → schema.valueType.admits d = true)
    (outputs : ∀ stops, f.stops = some stops → ∀ s ∈ stops, schema.valueType.admits s.2 = true)
    (created : create raw schema key = .ok p) {zoom : Option Float} {feature : Option Feature}
    {name : String} (asked : name ∈ (p.evaluate zoom feature).2) :
    f.property = some name ∨ f.property = none ∧ name = "" ∧ Conversion.Grouped f := by
  obtain ⟨converted, e, made, read, rfl⟩ := (create_eq_ok object function).mp created
  have whole : Conversion.Confined (Conversion.MayAsk f)
      (.arr [.str "coalesce", converted, Conversion.defaultOf f schema]) :=
    Conversion.confined_apply .coalesce rfl
      ⟨Conversion.body_confined known given outputs made, Conversion.defaultOf_confined known given⟩
  rw [reads_compile] at asked
  rcases whole.asksOnly read _ name asked with before | here
  · cases before
  · exact here

theorem evaluate_asked_kind :
    let zero : Json := .num (.int 0 (by decide))
    let stops : List (Json × Json) := [(.obj [("value", .str "bus"), ("zoom", zero)], zero)]
    let raw : Json := .obj [("property", .str "kind"),
      ("stops", .arr (stops.map fun s => .arr [s.1, s.2])), ("type", .str "categorical")]
    let f : StopFunction := ⟨some "kind", some "categorical", none, none, none, some stops⟩
    let schema := (Schema.ofTypeName "number").withDefault zero
    StopFunction.ofJson? raw = some f ∧ ∃ p, create raw schema none = .ok p ∧
      "kind" ∈ (p.evaluate (some 0) (some fun _ => none)).2 ∧
      (f.property = some "kind" ∨ f.property = none ∧ "kind" = "" ∧ Conversion.Grouped f) := by
  intro zero stops raw f schema
  obtain ⟨p, created, asked⟩ : ∃ p, create raw schema none = .ok p ∧
      "kind" ∈ (p.evaluate (some 0) (some fun _ => none)).2 := by
    dsimp only [raw,schema,stops,zero]
    exact ⟨_, rfl, List.mem_cons_self⟩
  have given : ∀ d, f.default.or schema.default = some d → schema.valueType.admits d = true := by
    rintro d ⟨⟩
    rfl
  have outputs : ∀ stops, f.stops = some stops → ∀ s ∈ stops, schema.valueType.admits s.2 = true := by
    rintro stops ⟨⟩ s member
    rw [List.mem_singleton.mp member]
    rfl
  exact ⟨rfl, p, created, asked,
    evaluate_asked (by decide) rfl rfl given outputs created asked⟩

theorem evaluate_asked_unnamed :
    let zero : Json := .num (.int 0 (by decide))
    let stops : List (Json × Json) := [(.obj [("value", .str "bus"), ("zoom", zero)], zero)]
    let raw : Json := .obj [("stops", .arr (stops.map fun s => .arr [s.1, s.2])),
      ("type", .str "categorical")]
    let f : StopFunction := ⟨none, some "categorical", none, none, none, some stops⟩
    let schema := (Schema.ofTypeName "number").withDefault zero
    schema.Known ∧ raw.isObject = true ∧ StopFunction.ofJson? raw = some f ∧
      schema.valueType.admits zero = true ∧ ∃ p, create raw schema none = .ok p ∧
        (p.evaluate (some 0) (some fun _ => none)).2 = [""] := by
  dsimp only
  exact ⟨by decide, rfl, rfl, rfl, _, rfl, rfl⟩

end PropertyExpression

end MapStyle
