import MapStyle.Proofs.Property.Zooms

-- Which legacy functions can be converted. The schema has no say in it: a function is
-- refused for what it states of itself, or for the inputs of its stops.

namespace MapStyle

def Json.isKey : Json → Bool
  | .str _ | .num _ | .bool _ => true
  | _ => false

namespace Conversion

def kinds : List (Option String) :=
  [none, some "categorical", some "interval", some "exponential"]

structure Stated (f : StopFunction) : Prop where
  space : f.colorSpace ∈ [none, some "rgb"]
  kind : f.kind ∈ kinds

-- The inputs of a function of a property. The first one speaks for all of them, and of
-- booleans there are no more than there are truth values, unless they are to be put in
-- order.
structure Keyed (kind : Option String) (inputs : List Json) : Prop where
  scalar : ∃ first, inputs.head? = some first ∧ first.isKey = true
  few : ∀ b, inputs.head? = some (.bool b) → kind ∈ [none, some "categorical"] → inputs.length ≤ 2

def inputs (stops : List (Json × Json)) : List Json :=
  stops.map Prod.fst

def valuesAt (stops : List (Json × Json)) (zoom : Json) : List Json :=
  (stops.filter fun s => zoom == zoomOf s).map fun s => part "value" s.1

inductive Convertible (f : StopFunction) : Prop
  | identity : f.stops = none → f.property.isSome = true → Convertible f
  | zoom (first : Json × Json) (rest : List (Json × Json)) : f.stops = some (first :: rest) →
      Stated f → first.1.isObject = false → f.property = none → f.kind ≠ some "categorical" →
      Convertible f
  | property (first : Json × Json) (rest : List (Json × Json)) : f.stops = some (first :: rest) →
      Stated f → first.1.isObject = false → f.property.isSome = true →
      Keyed f.kind (inputs (first :: rest)) → Convertible f
  | zoomAndProperty (first : Json × Json) (rest : List (Json × Json)) :
      f.stops = some (first :: rest) → Stated f → first.1.isObject = true →
      (∀ zoom ∈ zooms (first :: rest), Keyed f.kind (valuesAt (first :: rest) zoom)) →
      Convertible f

variable {f : StopFunction} {schema : Schema} {default : Json} {stops : List (Json × Json)}

theorem kindOf_eq_ok {kind : FunctionKind} (known : kindOf f schema = .ok kind) :
    f.kind ∈ kinds ∧ (kind = .categorical ↔ f.kind = some "categorical") := by
  unfold kindOf at known
  split at known
  · rename_i said
    cases known
    simp [kinds,said]
  · rename_i said
    cases known
    simp [kinds,said]
  · rename_i said
    cases known
    simp [kinds,said]
  · cases known
  · rename_i unsaid
    split at known <;> cases known <;> simp [kinds,unsaid]

theorem kindOf_eq_error {name : String} (unknown : kindOf f schema = .error name) :
    f.kind ∉ kinds := by
  unfold kindOf at unknown
  split at unknown
  · cases unknown
  · cases unknown
  · cases unknown
  · rename_i other categorical interval exponential said
    rw [said]
    simp only [kinds,List.mem_cons,reduceCtorEq,Option.some.injEq,List.not_mem_nil,or_false,
      false_or,not_or]
    exact ⟨categorical, interval, exponential⟩
  · split at unknown <;> cases unknown

theorem choosing_iff {kind : FunctionKind} (known : kindOf f schema = .ok kind) :
    (kind = .categorical ∨ f.kind.isNone = true) ↔ f.kind ∈ [none, some "categorical"] := by
  rw [(kindOf_eq_ok known).2,Option.isNone_iff_eq_none,or_comm]
  simp only [List.mem_cons,List.not_mem_nil,or_false]

theorem inputType?_isOk (first : Json) : (inputType? first).isOk = first.isKey := by
  cases first <;> rfl

theorem inputType?_boolean {first : Json} :
    inputType? first = .ok "boolean" ↔ ∃ b, first = .bool b := by
  cases first <;> simp [inputType?]

theorem booleanChoice_isOk (input first output : Json) (rest : List (Json × Json)) :
    (booleanChoice default input first output rest).isOk = true ↔ rest.length ≤ 1 := by
  unfold booleanChoice
  split
  · rename_i many
    exact iff_of_false nofun (Nat.not_le_of_lt many)
  · rename_i few
    exact iff_of_true rfl (Nat.le_of_not_lt few)

theorem ofProperty_isOk :
    (ofProperty f schema default stops).isOk = true ↔
      f.kind ∈ kinds ∧ Keyed f.kind (inputs stops) := by
  unfold ofProperty
  cases known : kindOf f schema with
  | error name =>
      exact iff_of_false nofun fun given => kindOf_eq_error known given.1
  | ok kind =>
      cases stops with
      | nil =>
          refine iff_of_false nofun fun given => ?_
          obtain ⟨first, head, _⟩ := given.2.scalar
          cases head
      | cons s rest =>
          obtain ⟨first, output⟩ := s
          have scalar := inputType?_isOk first
          have boolean := @inputType?_boolean first
          dsimp only
          cases read : inputType? first with
          | error e =>
              rw [read] at scalar
              refine iff_of_false nofun fun given => ?_
              obtain ⟨_, head, own⟩ := given.2.scalar
              cases head
              rw [own] at scalar
              cases scalar
          | ok type =>
              rw [read] at scalar boolean
              have keyed : Keyed f.kind (inputs ((first, output) :: rest)) ↔
                  (type = "boolean" → f.kind ∈ [none, some "categorical"] → rest.length ≤ 1) := by
                constructor
                · intro given same choosing
                  obtain ⟨b, own⟩ := boolean.mp (congrArg Except.ok same)
                  have few := given.few b (congrArg some own) choosing
                  simpa [inputs] using few
                · intro given
                  refine ⟨⟨first, rfl, scalar.symm⟩, ?_⟩
                  intro b head choosing
                  have same := Except.ok.inj (boolean.mpr ⟨b, Option.some.inj head⟩)
                  simpa [inputs] using given same choosing
              rw [keyed,and_iff_right (kindOf_eq_ok known).1]
              dsimp only
              split
              · rename_i choosing
                rw [booleanChoice_isOk,← choosing_iff known]
                exact ⟨fun few _ _ => few, fun given => given choosing.1 choosing.2⟩
              · rename_i other
                rw [choosing_iff known] at other
                refine iff_of_true ?_ fun same choosing => absurd ⟨same, choosing⟩ other
                cases kind <;> rfl

theorem ofZoom_isOk :
    (ofZoom f schema stops).isOk = true ↔ f.kind ∈ kinds ∧ f.kind ≠ some "categorical" := by
  unfold ofZoom
  cases known : kindOf f schema with
  | error name =>
      exact iff_of_false nofun fun given => kindOf_eq_error known given.1
  | ok kind =>
      obtain ⟨listed, categorical⟩ := kindOf_eq_ok known
      cases kind with
      | categorical => exact iff_of_false nofun fun given => given.2 (categorical.mp rfl)
      | interval => exact iff_of_true rfl ⟨listed, fun same => nomatch categorical.mpr same⟩
      | exponential => exact iff_of_true rfl ⟨listed, fun same => nomatch categorical.mpr same⟩

theorem ofGroups_isOk {gs : List ZoomGroup} :
    (ofGroups f schema default gs).isOk = true ↔
      ∀ g ∈ gs, (ofProperty f schema default g.stops).isOk = true := by
  induction gs with
  | nil => simp [ofGroups,Except.isOk,Except.toBool]
  | cons g rest ih =>
      rw [List.forall_mem_cons,← ih,ofGroups]
      cases ofProperty f schema default g.stops with
      | error e => exact iff_of_false Bool.false_ne_true fun given => Bool.false_ne_true given.1
      | ok output =>
          cases ofGroups f schema default rest with
          | error e => exact iff_of_false Bool.false_ne_true fun given => Bool.false_ne_true given.2
          | ok others => exact iff_of_true rfl ⟨rfl, rfl⟩

theorem inputs_withConstants (schema : Schema) (stops : List (Json × Json)) :
    inputs (withConstants schema stops) = inputs stops := by
  rw [inputs,withConstants,List.map_map]
  rfl

theorem inputs_groupOf (schema : Schema) (stops : List (Json × Json)) (zoom : Json) :
    inputs (groupOf (withConstants schema stops) zoom).stops = valuesAt stops zoom := by
  rw [groupOf_withConstants,inputs,stopsAt,List.map_map]
  rfl

-- There are stops, so that a kind that is none is found out in one of the groups.
theorem ofZoomAndProperty_isOk {first : Json × Json} {rest : List (Json × Json)} :
    (ofZoomAndProperty f schema default (withConstants schema (first :: rest))).isOk = true ↔
      f.kind ∈ kinds ∧ ∀ zoom ∈ zooms (first :: rest), Keyed f.kind (valuesAt (first :: rest) zoom) := by
  have converts : (ofZoomAndProperty f schema default (withConstants schema (first :: rest))).isOk =
      (ofGroups f schema default (groups (withConstants schema (first :: rest)))).isOk := by
    unfold ofZoomAndProperty
    dsimp only
    cases ofGroups f schema default (groups (withConstants schema (first :: rest))) <;> rfl
  have filled : zoomOf first ∈ zooms (first :: rest) := by
    rw [zooms,List.map_cons,List.eraseDups_cons]
    exact List.mem_cons_self
  rw [converts,ofGroups_isOk,groups_eq,zooms_withConstants,List.forall_mem_map]
  simp only [ofProperty_isOk,inputs_groupOf]
  constructor
  · intro given
    exact ⟨(given _ filled).1, fun zoom member => (given zoom member).2⟩
  · intro given zoom member
    exact ⟨given.1, given.2 zoom member⟩

theorem colorSpace_iff : f.colorSpace.getD "rgb" = "rgb" ↔ f.colorSpace ∈ [none, some "rgb"] := by
  cases f.colorSpace <;> simp

theorem body_unstopped (unstopped : f.stops = none) :
    (body f schema).isOk = true ↔ f.property.isSome = true := by
  cases given : f.property with
  | none =>
      simp only [body,unstopped,given]
      exact iff_of_false Bool.false_ne_true Bool.false_ne_true
  | some name =>
      simp only [body,unstopped,given]
      exact iff_of_true rfl rfl

theorem body_stops {first : Json × Json} {rest : List (Json × Json)}
    (given : f.stops = some (first :: rest)) :
    (body f schema).isOk = true ↔ f.colorSpace.getD "rgb" = "rgb" ∧
      (if first.1.isObject then
        ofZoomAndProperty f schema (defaultOf f schema) (withConstants schema (first :: rest))
      else if f.property.isSome then
        ofProperty f schema (defaultOf f schema) (withConstants schema (first :: rest))
      else ofZoom f schema (withConstants schema (first :: rest))).isOk = true := by
  by_cases space : f.colorSpace.getD "rgb" = "rgb"
  · simp only [body,given,space,ne_eq,not_true_eq_false,if_false,true_and]
    rfl
  · simp only [body,given,space,ne_eq,not_false_eq_true,if_true,false_and]
    exact iff_of_false Bool.false_ne_true id

theorem body_isOk : (body f schema).isOk = true ↔ Convertible f := by
  constructor
  · intro converts
    cases given : f.stops with
    | none => exact .identity given ((body_unstopped given).mp converts)
    | some stops =>
        cases stops with
        | nil =>
            simp only [body,given] at converts
            cases converts
        | cons first rest =>
            obtain ⟨space, made⟩ := (body_stops given).mp converts
            have space := colorSpace_iff.mp space
            cases grouped : first.1.isObject with
            | true =>
                rw [grouped,if_pos rfl,ofZoomAndProperty_isOk] at made
                exact .zoomAndProperty first rest given ⟨space, made.1⟩ grouped made.2
            | false =>
                rw [grouped,if_neg Bool.false_ne_true] at made
                cases named : f.property.isSome with
                | true =>
                    rw [named,if_pos rfl,ofProperty_isOk,inputs_withConstants] at made
                    exact .property first rest given ⟨space, made.1⟩ grouped named made.2
                | false =>
                    rw [named,if_neg Bool.false_ne_true,ofZoom_isOk] at made
                    have unnamed : f.property = none :=
                      Option.not_isSome_iff_eq_none.mp (by rw [named]; simp)
                    exact .zoom first rest given ⟨space, made.1⟩ grouped unnamed made.2
  · intro convertible
    cases convertible with
    | identity unstopped named => exact (body_unstopped unstopped).mpr named
    | zoom first rest given stated flat unnamed kind =>
        refine (body_stops given).mpr ⟨colorSpace_iff.mpr stated.space, ?_⟩
        rw [flat,unnamed]
        exact ofZoom_isOk.mpr ⟨stated.kind, kind⟩
    | property first rest given stated flat named keyed =>
        refine (body_stops given).mpr ⟨colorSpace_iff.mpr stated.space, ?_⟩
        rw [flat,named,if_neg Bool.false_ne_true,if_pos rfl]
        refine ofProperty_isOk.mpr ⟨stated.kind, ?_⟩
        rw [inputs_withConstants]
        exact keyed
    | zoomAndProperty first rest given stated grouped keyed =>
        refine (body_stops given).mpr ⟨colorSpace_iff.mpr stated.space, ?_⟩
        rw [grouped]
        exact ofZoomAndProperty_isOk.mpr ⟨stated.kind, keyed⟩

theorem ofFunction_isOk : (ofFunction f schema).isOk = (body f schema).isOk := by
  unfold ofFunction
  cases body f schema <;> rfl

theorem convert_isOk (data : Json) (schema : Schema) :
    (convert data schema).isOk = true ↔ ∃ f, StopFunction.ofJson? data = some f ∧ Convertible f := by
  unfold convert
  cases read : StopFunction.ofJson? data with
  | none => exact iff_of_false nofun fun given => nomatch given.choose_spec.1
  | some f =>
      dsimp only
      rw [ofFunction_isOk,body_isOk]
      constructor
      · intro convertible
        exact ⟨f, rfl, convertible⟩
      · intro given
        obtain ⟨_, ⟨⟩, convertible⟩ := given
        exact convertible

end Conversion

end MapStyle
