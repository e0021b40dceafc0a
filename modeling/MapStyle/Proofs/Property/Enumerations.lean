import MapStyle.Proofs.Evaluation.Visits
import MapStyle.Proofs.Kinds.Yields
import MapStyle.Proofs.Property.Choices
import MapStyle.Proofs.Property.Identity

-- The names of an enumeration. A legacy function whose outputs are names comes to no
-- other value, since all it does is choose among its outputs. Expression data is not
-- held to the names, neither when it is read nor when it is evaluated.

namespace MapStyle

open Reading Attempt

theorem Expr.eval_any (e : Expr) {stack : Variables} : Eval.Yields stack (fun _ => True) e.eval :=
  fun s found => ⟨(e.eval_keeps s).2.2.trans found, fun _ _ => trivial⟩

namespace Conversion

inductive Names (names : List String) : Json → Prop
  | name (s : String) : s ∈ names → Names names (.str s)
  | error (message : String) : Names names (.arr [.str "error", .str message])
  | checked (name : String) : Names names (asEnum names (property name))
  | case (condition first second : Json) : Names names first → Names names second →
      Names names (.arr [.str "case", condition, first, second])
  | select (input default : Json) (stops : List (Json × Json)) :
      (∀ s ∈ stops, Names names s.2) → Names names default →
      Names names (.arr (.str "match" :: input :: flatStops stops ++ [default]))
  | curve (interpolation input : Json) (stops : List (Json × Json)) :
      (∀ s ∈ stops, Names names s.2) →
      Names names (.arr (.str "curve" :: interpolation :: input :: flatStops stops))
  | coalesce (first second : Json) : Names names first → Names names second →
      Names names (.arr [.str "coalesce", first, second])

variable {names : List String}

def Listed (names : List String) (v : Value) : Prop :=
  ∃ s ∈ names, v = .str s

theorem Listed.apart (t : Float) (v w u : Value) (one : Listed names v) (other : Listed names w) :
    Value.blend t v w ≠ .ok u := by
  obtain ⟨s, _, rfl⟩ := one
  obtain ⟨s', _, rfl⟩ := other
  exact nofun

theorem Names.yields {schema : Schema} (written : schema.typeName = "enum") {data : Json}
    (hands : Names schema.enumNames data) {ctx : Context} {c : Expr}
    (read : Expr.read data ctx = pure c) (stack : Variables) :
    Eval.Yields stack (Listed schema.enumNames) c.eval := by
  induction hands generalizing ctx c with
  | name s member =>
      obtain rfl := pure_eq_pure.mp (Expr.read_eq_pure.mp read).1
      rw [Expr.eval_eq]
      exact Eval.pure_yields ⟨s, member, rfl⟩
  | error message =>
      obtain rfl := pure_eq_pure.mp (Expr.operator_of_read .error _ read)
      rw [Expr.eval_eq]
      exact Eval.fail_yields _
  | checked name =>
      have asserts := Asserts.of_enum written name
      have data : asserted schema (property name) = asEnum schema.enumNames (property name) := by
        simp only [asserted,written]
      obtain ⟨c', read', _, evaluates⟩ := asserts.read (Context.root (some schema.valueType) none) rfl
      rw [data] at read'
      intro s found
      refine ⟨(c.eval_keeps s).2.2.trans found, ?_⟩
      rw [Expr.read_eval read read',evaluates]
      intro v done
      obtain ⟨j, _, admits, rfl⟩ := asserts.admitted done
      rw [Schema.valueType,if_pos written] at admits
      obtain ⟨t, rfl, listed⟩ := Ty.admits_oneOf.mp admits
      exact ⟨t, listed, by simp only [Schema.valueOf,written]; rfl⟩
  | case condition first second _ _ ih ih' =>
      obtain ⟨pairs, last, common, bs, final, o, split, made, made', rfl⟩ :=
        case_eq_pure.mp (Expr.operator_of_read .case _ read)
      cases split
      obtain ⟨c, r, both, others, _, output, after, rfl⟩ := branches_cons_eq_pure.mp made
      obtain rfl := pure_eq_pure.mp (Prod.mk.inj after).2
      rw [Expr.eval_eq]
      refine Eval.firstTrue_yields (ih' (output_eq_pure.mp made').1) _ ?_
      intro b member
      rw [List.mem_singleton.mp member]
      exact ⟨c.eval_any, ih (output_eq_pure.mp output).1⟩
  | select input default stops _ _ ih ih' =>
      obtain ⟨i, as, o, node, _, ⟨_, last⟩, outputs⟩ := read_select read
      rw [Expr.eval_eq,node]
      refine Eval.bind_yields i.eval_any fun v _ => Eval.labelled_yields v (ih' last) as ?_
      intro arm belongs
      obtain ⟨s, stop, _, read⟩ := outputs arm belongs
      exact ih s stop read
  | curve interpolation input stops _ ih =>
      obtain ⟨i, x, ss, node, _, outputs⟩ := read_curve read
      rw [Expr.eval_eq,node]
      refine Eval.bind_yields x.eval_any fun v _ => Eval.bind_yields (Eval.number_yields v) fun y _ =>
        Eval.along_yields ?_ i ss ?_ y
      · intro t v w u one other done
        exact absurd done (Listed.apart t v w u one other)
      · intro stop belongs
        obtain ⟨s, known, _, read⟩ := outputs stop belongs
        exact ih s known read
  | coalesce first second _ _ ih ih' =>
      obtain ⟨a, b, type, one, other, _, rfl, _⟩ := Expr.read_coalesce.mp read
      rw [Expr.eval_eq]
      refine Eval.firstValue_yields _ ?_ none (fun empty => absurd empty (List.cons_ne_nil _ _))
      intro arg member
      simp only [List.mem_cons,List.not_mem_nil,or_false] at member
      rcases member with rfl | rfl
      · exact ih one
      · exact ih' other

variable {f : StopFunction} {schema : Schema} {converted : Json}

theorem chooses_names : Chooses f (Names names) where
  case _ _ chosen other := .case _ _ _ chosen other
  select _ outputs last := .select _ _ _ outputs last
  curve _ outputs := .curve _ _ _ outputs

theorem constant_names (written : schema.typeName = "enum") {data : Json}
    (admits : schema.valueType.admits data = true) :
    Names schema.enumNames (constant schema data) := by
  rw [Schema.valueType,if_pos written] at admits
  obtain ⟨t, rfl, listed⟩ := Ty.admits_oneOf.mp admits
  have same : constant schema (.str t) = .str t := by
    simp only [constant,written]
    rfl
  rw [same]
  exact .name t listed

theorem defaultOf_names (written : schema.typeName = "enum")
    (given : ∀ d, f.default.or schema.default = some d → schema.valueType.admits d = true) :
    Names schema.enumNames (defaultOf f schema) :=
  defaultOf_keeps .error fun d found => constant_names written (given d found)

theorem body_names (written : schema.typeName = "enum")
    (given : ∀ d, f.default.or schema.default = some d → schema.valueType.admits d = true)
    (outputs : ∀ stops, f.stops = some stops → ∀ s ∈ stops, schema.valueType.admits s.2 = true)
    (made : body f schema = .ok converted) : Names schema.enumNames converted := by
  refine body_keeps (fun interpolation stops each => .curve _ _ _ each) (fun _ => chooses_names)
    ?_ ?_ (defaultOf_names written given) made
  · intro name _
    simp only [asserted,written]
    exact .checked name
  · intro stops filled s member
    exact constant_names written (outputs stops filled s member)

end Conversion

namespace PropertyExpression

variable {raw : Json} {schema : Schema} {key : Option String} {f : StopFunction}

theorem evaluate_names {p : PropertyExpression} (written : schema.typeName = "enum") {data : Json}
    (made : dataOf raw schema = .ok data) (hands : Conversion.Names schema.enumNames data)
    (created : create raw schema key = .ok p) {zoom : Option Float} {feature : Option Feature}
    {v : Value} (done : (p.evaluate zoom feature).1 = .ok v) : ∃ s ∈ schema.enumNames, v = .str s := by
  obtain ⟨_, e, taken, read, rfl⟩ := create_iff_read.mp created
  obtain rfl := Except.ok.inj (made.symm.trans taken)
  rw [evaluate_compile] at done
  exact (hands.yields written read .empty _ rfl).2 v done

theorem evaluate_listed {p : PropertyExpression} (written : schema.typeName = "enum")
    (object : raw.isObject = true) (function : StopFunction.ofJson? raw = some f)
    (given : ∀ d, f.default.or schema.default = some d → schema.valueType.admits d = true)
    (outputs : ∀ stops, f.stops = some stops → ∀ s ∈ stops, schema.valueType.admits s.2 = true)
    (created : create raw schema key = .ok p) {zoom : Option Float} {feature : Option Feature}
    {v : Value} (done : (p.evaluate zoom feature).1 = .ok v) :
    ∃ s ∈ schema.enumNames, v = .str s := by
  obtain ⟨converted, _, made, _⟩ := (create_eq_ok object function).mp created
  have data : dataOf raw schema =
      .ok (.arr [.str "coalesce", converted, Conversion.defaultOf f schema]) := by
    simp only [dataOf,object,if_true,Conversion.convert,function,Conversion.ofFunction,made]
  have whole := Conversion.Names.coalesce converted _
    (Conversion.body_names written given outputs made) (Conversion.defaultOf_names written given)
  exact evaluate_names written data whole created done

theorem evaluate_listed_cap :
    let raw : Json := .obj [("property", .str "cap")]
    let f : StopFunction := ⟨some "cap", none, none, none, none, none⟩
    let names : Json := .arr [.str "butt", .str "round"]
    let schema : Schema := ⟨"enum", none, none, some names, none, some (.str "butt")⟩
    ∃ p, StopFunction.ofJson? raw = some f ∧ create raw schema none = .ok p ∧
      ∃ v, (p.evaluate none (some fun _ => some (.str "oval"))).1 = .ok v ∧
        ∃ s ∈ schema.enumNames, v = .str s := by
  intro raw f names schema
  have defaulted : Defaulted raw schema f (.str "butt") := ⟨by decide, rfl, rfl, rfl, by decide⟩
  have notArray : schema.typeName ≠ "array" := by decide
  obtain ⟨a, asserts⟩ := Schema.asserts defaulted.known (fun array => absurd array notArray) "cap"
  obtain ⟨p, created, value⟩ := defaulted.create rfl asserts.read
  have given : ∀ d, f.default.or schema.default = some d → schema.valueType.admits d = true := by
    rintro d ⟨⟩
    decide
  have outputs : ∀ stops, f.stops = some stops → ∀ s ∈ stops, schema.valueType.admits s.2 = true :=
    fun _ found => nomatch found
  exact ⟨p, rfl, created, _, value _ _,
    evaluate_listed rfl rfl rfl given outputs created (value _ _)⟩

-- Expression data is no such function. Any text is read as it stands, and a property
-- that is only asserted to be text is any text.

theorem create_text (written : schema.typeName = "enum") (s : String) :
    ∃ p, create (.str s) schema key = .ok p ∧
      ∀ zoom feature, (p.evaluate zoom feature).1 = .ok (.str s) := by
  have value : schema.valueType = Ty.oneOf schema.enumNames := by rw [Schema.valueType,if_pos written]
  let text : Expr := ⟨(Context.root (some schema.valueType) key).path, .string, .literal (.str s)⟩
  have read : Expr.read (.str s) (Context.root (some schema.valueType) key) = pure text := by
    rw [value]
    rfl
  refine ⟨⟨text.compile⟩, create_iff_read.mpr ⟨_, text, dataOf_expression rfl, read, rfl⟩, ?_⟩
  intro zoom feature
  rw [evaluate_compile]
  rfl

theorem evaluate_unlisted :
    let raw : Json := .arr [.str "string", .arr [.str "get", .str "cap"]]
    let names : Json := .arr [.str "butt", .str "round"]
    let schema : Schema := ⟨"enum", none, none, some names, none, none⟩
    ∃ p, create raw schema none = .ok p ∧
      (p.evaluate none (some fun _ => some (.str "oval"))).1 = .ok (.str "oval") ∧
        ¬ ∃ s ∈ schema.enumNames, Value.str "oval" = .str s := by
  intro raw names schema
  refine ⟨_, rfl, rfl, ?_⟩
  rintro ⟨s, listed, same⟩
  cases same
  revert listed
  decide

end PropertyExpression

end MapStyle
