import MapStyle.Proofs.Property.Groups
import MapStyle.Proofs.Property.Operands
import MapStyle.Proofs.Reading.Formed

-- Functions of the zoom and a property, where the zoom is not eased: at each zoom such a
-- function is the function of the property alone that has the stops of one of its zooms.

namespace MapStyle

open Reading Attempt

section Lists

variable {α β γ : Type} {as : List α} {bs : List β}

theorem forall₂_exists {R : α → β → Prop} (related : List.Forall₂ R as bs) {b : β} (member : b ∈ bs) :
    ∃ a ∈ as, R a b := by
  induction related with
  | nil => cases member
  | cons here _ ih =>
      rcases List.mem_cons.mp member with rfl | belongs
      · exact ⟨_, List.mem_cons_self, here⟩
      · obtain ⟨a, found, same⟩ := ih belongs
        exact ⟨a, List.mem_cons_of_mem _ found, same⟩

theorem forall₂_map_eq {f : α → γ} {g : β → γ} (related : List.Forall₂ (fun a b => f a = g b) as bs) :
    as.map f = bs.map g := by
  rw [← List.forall₂_eq_eq_eq,List.forall₂_map_left_iff,List.forall₂_map_right_iff]
  exact related

end Lists

namespace Json

theorem float?_beq {j j' : Json} {x : Float} (same : (j == j') = true) (found : j'.float? = some x) :
    ∃ y, j.float? = some y ∧ (y == x) = true := by
  cases j' with
  | num n' =>
      cases found
      cases j with
      | num n => exact ⟨_, rfl, Number.toFloat_beq same⟩
      | _ => cases same
  | _ => cases found

end Json

theorem Expr.read_steps {pairs : List (Json × Json)} {ctx : Context} {c : Expr}
    (read : Expr.read (.arr (.str "curve" :: .arr [.str "step"] :: .arr [.str "zoom"] ::
      Conversion.flatStops pairs)) ctx = pure c) :
    ∃ ss, Stop.Ascending ss ∧ List.Forall₂ ReadStop (Conversion.operandPairs pairs) ss ∧
      ∀ z s next feature, z.isNaN = false → Stop.around z ss = some (s, next) →
        c.eval (Session.start (some z) feature) =
          s.output.eval (Session.start (some z) feature) := by
  have applied := Expr.operator_of_read .curve _ read
  obtain ⟨parts, i, x, common, ss, split, kind, input, made, _, rfl⟩ := curve_eq_pure.mp applied
  have same : parts = Conversion.operandPairs pairs := by
    have whole := pairs?_eq_some.mpr (Expr.operands_flatStops pairs)
    exact Option.some.inj (split.symm.trans whole)
  have step : i = .step := (Option.some.inj (interpolation_eq_pure.mp kind).1).symm
  have zoom : x.eval = Expr.eval ⟨x.path, .number, .zoom⟩ := by
    obtain rfl := pure_eq_pure.mp (Expr.operator_of_read .zoom [] input)
    rfl
  subst same step
  have ascending := (stops_ascending (fun _ given => by cases given) made).1
  refine ⟨ss, ascending, stops_read made, ?_⟩
  intro z s next feature number found
  have chosen := Stop.around_map Expr.eval z ss
  rw [found] at chosen
  have along := Eval.along_around .step (Stop.ascending_map Expr.eval ascending) number
  rw [chosen] at along
  have output : Eval.along .step (ss.map fun s => ⟨s.input, s.output.eval⟩) z = s.output.eval := by
    rw [along]
    cases next <;> rfl
  rw [Expr.eval_eq]
  show (x.eval >>= fun v => Eval.number v >>= Eval.along .step
    (ss.map fun s => (⟨s.input, s.output.eval⟩ : Stop (Eval Value)))) _ = _
  rw [zoom,← output]
  rfl

namespace Conversion

-- Whether a zoom is the one whose stops count at `z`: of all zooms the largest up to
-- it, or the first one where they all lie above it.
def isLevel (z : Float) (zooms : List Float) (zoom : Float) : Bool :=
  if zooms.any fun t => t ≤ z then zoom ≤ z && zooms.all fun t => t ≤ z → t ≤ zoom
  else zooms.head?.any (· == zoom)

def levels (stops : List (Json × Json)) : List Float :=
  stops.filterMap fun s => (zoomOf s).float?

def levelStops (z : Float) (stops : List (Json × Json)) : List (Json × Json) :=
  (stops.filter fun s => (zoomOf s).float?.any (isLevel z (levels stops))).map valueStop

-- Going by the zooms of the stops is going by the stops of a curve that has each zoom
-- once, however often a zoom occurs.
theorem isLevel_eq {α : Type} {z : Float} {zooms : List Float} {ss : List (Stop α)} {s : Stop α}
    (within : ∀ y ∈ zooms, ∃ t ∈ ss, (y == t.input) = true) (all : ∀ t ∈ ss, t.input ∈ zooms)
    (first : zooms.head? = ss.head?.map Stop.input) (member : s ∈ ss)
    (level : (s.input ≤ z ∧ ∀ t ∈ ss, t.input ≤ z → t.input ≤ s.input) ∨
      (ss.head? = some s ∧ ∀ t ∈ ss, ¬ t.input ≤ z)) {y : Float} (given : y ∈ zooms) :
    isLevel z zooms y = (s.input == y) := by
  have below : ∀ u ∈ zooms, u ≤ z → ∃ t ∈ ss, u ≤ t.input ∧ t.input ≤ z := by
    intro u belongs upTo
    obtain ⟨t, found, same⟩ := within u belongs
    obtain ⟨le, ge⟩ := Double.beq_iff_le.mp same
    exact ⟨t, found, le, Double.le_trans ge upTo⟩
  unfold isLevel
  rcases level with ⟨reached, largest⟩ | ⟨head, ahead⟩
  · have some_below : zooms.any (fun t => decide (t ≤ z)) = true :=
      List.any_eq_true.mpr ⟨_, all s member, decide_eq_true reached⟩
    have most : ∀ u ∈ zooms, u ≤ z → u ≤ s.input := by
      intro u belongs upTo
      obtain ⟨t, found, le, upTo⟩ := below u belongs upTo
      exact Double.le_trans le (largest t found upTo)
    rw [some_below,if_pos rfl,Bool.eq_iff_iff,Bool.and_eq_true,List.all_eq_true,Double.beq_iff_le,
      decide_eq_true_iff]
    constructor
    · intro counts
      obtain ⟨upTo, above⟩ := counts
      exact ⟨of_decide_eq_true (above _ (all s member)) reached, most y given upTo⟩
    · intro same
      obtain ⟨le, ge⟩ := same
      refine ⟨Double.le_trans ge reached, ?_⟩
      intro u belongs
      exact decide_eq_true fun upTo => Double.le_trans (most u belongs upTo) le
  · have none_below : zooms.any (fun t => decide (t ≤ z)) = false := by
      rw [List.any_eq_false]
      intro u belongs upTo
      obtain ⟨t, found, _, reached⟩ := below u belongs (of_decide_eq_true upTo)
      exact ahead t found reached
    rw [none_below,if_neg Bool.false_ne_true,first,head]
    rfl

-- Two zooms of one number are one zoom. A whole number and a double may have one number.
def OneOfNumber (a b : Json) : Prop :=
  ∀ x y, a.float? = some x → b.float? = some y → (x == y) = true → a = b

instance : Std.Symm OneOfNumber where
  symm _ _ one x y left right same := (one y x right left (BEq.symm same)).symm

theorem zoom_unique {zs : List Json} {α : Type} {ss : List (Stop α)} (ascending : Stop.Ascending ss)
    (numbers : zs.map Json.float? = ss.map fun s => some s.input) {a b : Json} (first : a ∈ zs)
    (second : b ∈ zs) : OneOfNumber a b := by
  have sorted : (ss.map fun s => some s.input).Pairwise
      fun a b => ∀ x y, a = some x → b = some y → x < y := by
    refine List.pairwise_map.mpr (ascending.ordered.imp ?_)
    intro s t above x y left right
    cases left
    cases right
    exact above
  rw [← numbers] at sorted
  refine List.Pairwise.forall_of_forall (fun _ _ _ _ _ _ _ => rfl) ?_ first second
  refine (List.pairwise_map.mp sorted).imp ?_
  intro a b above x y left right same
  exact absurd (Double.beq_iff_le.mp same).2 (Double.not_le_of_lt (above x y left right))

variable {stops : List (Json × Json)} {α : Type} {ss : List (Stop α)}

section

variable (numbers : (zooms stops).map Json.float? = ss.map fun s => some s.input)
include numbers

theorem zooms_exists {t : Stop α} (member : t ∈ ss) :
    ∃ zoom ∈ zooms stops, zoom.float? = some t.input := by
  have found : some t.input ∈ (zooms stops).map Json.float? := by
    rw [numbers]
    exact List.mem_map_of_mem member
  exact List.mem_map.mp found

theorem zooms_input {zoom : Json} (member : zoom ∈ zooms stops) :
    ∃ t ∈ ss, zoom.float? = some t.input := by
  have found : zoom.float? ∈ ss.map fun s => some s.input := by
    rw [← numbers]
    exact List.mem_map_of_mem member
  obtain ⟨t, belongs, same⟩ := List.mem_map.mp found
  exact ⟨t, belongs, same.symm⟩

theorem zoomOf_input {s : Json × Json} (member : s ∈ stops) :
    ∃ zoom ∈ zooms stops, (zoomOf s == zoom) = true ∧ ∃ t ∈ ss, zoom.float? = some t.input ∧
      ∃ y, (zoomOf s).float? = some y ∧ (y == t.input) = true := by
  obtain ⟨zoom, known, same⟩ :=
    List.any_eq_true.mp (eraseDups_covers (List.mem_map_of_mem (f := zoomOf) member))
  obtain ⟨t, belongs, numeral⟩ := zooms_input numbers known
  obtain ⟨y, own, equal⟩ := Json.float?_beq same numeral
  exact ⟨zoom, known, same, t, belongs, numeral, y, own, equal⟩

theorem levels_head? : (levels stops).head? = ss.head?.map Stop.input := by
  have first := congrArg List.head? numbers
  rw [List.head?_map,List.head?_map,zooms,eraseDups_head?,List.head?_map] at first
  cases stops with
  | nil =>
      cases ss with
      | nil => rfl
      | cons t rest => cases first
  | cons s rest =>
      cases ss with
      | nil => cases first
      | cons t others =>
          have numeral : (zoomOf s).float? = some t.input := Option.some.inj first
          simp only [levels,List.filterMap_cons,numeral]
          rfl

theorem levelStops_eq (ascending : Stop.Ascending ss) {z : Float} (number : z.isNaN = false)
    {s : Stop α} {next : Option (Stop α)} (found : Stop.around z ss = some (s, next)) {zoom : Json}
    (known : zoom ∈ zooms stops) (numeral : zoom.float? = some s.input) :
    levelStops z stops = (groupOf stops zoom).stops := by
  have within : ∀ y ∈ levels stops, ∃ t ∈ ss, (y == t.input) = true := by
    intro y member
    obtain ⟨stop, belongs, given⟩ := List.mem_filterMap.mp member
    obtain ⟨_, _, _, t, also, _, y', own, same⟩ := zoomOf_input numbers belongs
    rw [given,Option.some.injEq] at own
    rw [own]
    exact ⟨t, also, same⟩
  have all : ∀ t ∈ ss, t.input ∈ levels stops := by
    intro t member
    obtain ⟨zoom, known, given⟩ := zooms_exists numbers member
    obtain ⟨stop, belongs, rfl⟩ := List.mem_map.mp (mem_of_mem_eraseDups known)
    exact List.mem_filterMap.mpr ⟨stop, belongs, given⟩
  have counts : ∀ y ∈ levels stops, isLevel z (levels stops) y = (s.input == y) := fun y given =>
    isLevel_eq within all (levels_head? numbers) (Stop.around_mem found).1
      (Stop.around_level ascending number found) given
  unfold levelStops groupOf
  refine congrArg _ (List.filter_congr ?_)
  intro stop member
  obtain ⟨other, also, same, t, _, given, y, own, equal⟩ := zoomOf_input numbers member
  rw [own,Option.any_some,counts y (List.mem_filterMap.mpr ⟨stop, member, own⟩),Bool.eq_iff_iff]
  constructor
  · intro here
    have equal' : (s.input == t.input) = true := BEq.trans here equal
    rw [zoom_unique ascending numbers known also _ _ numeral given equal']
    exact BEq.symm same
  · intro here
    obtain ⟨y', numeral', here'⟩ := Json.float?_beq here own
    rw [numeral,Option.some.injEq] at numeral'
    rw [numeral']
    exact here'

end

theorem levels_withConstants (schema : Schema) (stops : List (Json × Json)) :
    levels (withConstants schema stops) = levels stops := by
  rw [levels,withConstants,List.filterMap_map]
  rfl

theorem levelStops_withConstants (schema : Schema) (z : Float) (stops : List (Json × Json)) :
    withConstants schema (levelStops z stops) = levelStops z (withConstants schema stops) := by
  unfold levelStops
  rw [levels_withConstants]
  simp only [withConstants,List.map_map,List.filter_map]
  rfl

variable {f : StopFunction} {schema : Schema}

theorem body_grouped {first output converted : Json} {rest : List (Json × Json)}
    (stops : f.stops = some ((first, output) :: rest)) (grouped : first.isObject = true)
    (made : body f schema = .ok converted) :
    f.colorSpace.getD "rgb" = "rgb" ∧
      ∃ pairs, ofGroups f schema (defaultOf f schema)
          (groups (withConstants schema ((first, output) :: rest))) = .ok pairs ∧
        converted = .arr (.str "curve" ::
          .arr [.str (if schema.isInterpolated then "linear" else "step")] ::
          .arr [.str "zoom"] :: flatStops pairs) := by
  by_cases space : f.colorSpace.getD "rgb" = "rgb"
  · refine ⟨space, ?_⟩
    simp only [body,stops,space,ne_eq,not_true_eq_false,if_false,grouped,if_true,
      ofZoomAndProperty] at made
    split at made
    · rename_i pairs converts
      cases made
      exact ⟨pairs, converts, rfl⟩
    · cases made
  · simp only [body,stops,ne_eq,space,not_false_eq_true,if_true] at made
    cases made

theorem body_property {name : String} {stops : List (Json × Json)} {converted : Json}
    (property : f.property = some name) (space : f.colorSpace.getD "rgb" = "rgb")
    (given : f.stops = some stops)
    (made : ofProperty f schema (defaultOf f schema) (withConstants schema stops) = .ok converted) :
    body f schema = .ok converted := by
  cases stops with
  | nil =>
      unfold ofProperty at made
      split at made <;> cases made
  | cons s rest =>
      obtain ⟨first, output⟩ := s
      cases first with
      | obj members =>
          unfold ofProperty at made
          split at made <;> cases made
      | _ =>
          simp only [body,given,property,space,ne_eq,not_true_eq_false,if_false,Json.isObject,
            Bool.false_eq_true,Option.isSome_some,if_true]
          exact made

end Conversion

-- The function as it is at one zoom: a function of the property, of the stops that
-- count there.
def StopFunction.atZoom (f : StopFunction) (z : Float) : StopFunction :=
  { f with stops := f.stops.map (Conversion.levelStops z) }

theorem Conversion.body_atZoom {f : StopFunction} {schema : Schema} {name : String}
    {first output converted : Json} {rest : List (Json × Json)} {ctx : Context} {c : Expr} {z : Float}
    (property : f.property = some name) (stops : f.stops = some ((first, output) :: rest))
    (grouped : first.isObject = true) (steps : schema.isInterpolated = false)
    (made : body f schema = .ok converted) (read : Expr.read converted ctx = pure c)
    (number : z.isNaN = false) :
    ∃ data ctx' e, body (f.atZoom z) schema = .ok data ∧ Expr.read data ctx' = pure e ∧
      ∀ feature, c.eval (Session.start (some z) feature) =
        e.eval (Session.start (some z) feature) := by
  obtain ⟨space, pairs, converts, rfl⟩ := body_grouped stops grouped made
  rw [steps,if_neg Bool.false_ne_true] at read
  obtain ⟨ss, ascending, related, evaluates⟩ := Expr.read_steps read
  rw [groups_eq,ofGroups_eq_ok,List.forall₂_map_left_iff] at converts
  rw [operandPairs,List.forall₂_map_left_iff] at related
  let written := withConstants schema ((first, output) :: rest)
  have numbers : (zooms written).map Json.float? = ss.map fun s => some s.input :=
    calc (zooms written).map Json.float?
        = pairs.map fun pair => pair.1.float? :=
          forall₂_map_eq (converts.imp fun _ _ converted => by rw [converted.1]; rfl)
      _ = ss.map fun s => some s.input := forall₂_map_eq (related.imp fun _ _ made => made.1)
  obtain ⟨_, _, _, t, filled, _⟩ := zoomOf_input numbers List.mem_cons_self
  obtain ⟨⟨s, next⟩, found⟩ := Stop.around_some ascending number (List.ne_nil_of_mem filled)
  obtain ⟨pair, listed, numeral, ctx', read'⟩ := forall₂_exists related (Stop.around_mem found).1
  obtain ⟨zoom, known, same, made'⟩ := forall₂_exists converts listed
  have numeral' : zoom.float? = some s.input := by
    rw [← numeral]
    exact congrArg Json.float? same.symm
  have level : levelStops z written = (groupOf written zoom).stops :=
    levelStops_eq numbers ascending number found known numeral'
  refine ⟨pair.2, ctx', s.output, ?_, read', fun feature => evaluates z s next feature number found⟩
  have counting : (f.atZoom z).stops = some (levelStops z ((first, output) :: rest)) :=
    congrArg (Option.map _) stops
  refine body_property property space counting ?_
  rw [levelStops_withConstants,level]
  exact made'

namespace PropertyExpression

variable {raw raw' : Json} {schema : Schema} {f : StopFunction} {key key' : Option String}

theorem evaluate_atZoom {p q : PropertyExpression} {name : String} {first output : Json}
    {rest : List (Json × Json)} {z : Float} (object : raw.isObject = true)
    (function : StopFunction.ofJson? raw = some f) (property : f.property = some name)
    (stops : f.stops = some ((first, output) :: rest)) (grouped : first.isObject = true)
    (steps : schema.isInterpolated = false) (created : create raw schema key = .ok p)
    (number : z.isNaN = false) (object' : raw'.isObject = true)
    (function' : StopFunction.ofJson? raw' = some (f.atZoom z))
    (created' : create raw' schema key' = .ok q) (feature : Option Feature) :
    (p.evaluate (some z) feature).1 = (q.evaluate (some z) feature).1 := by
  obtain ⟨converted, e, made, read, rfl⟩ := (create_eq_ok object function).mp created
  obtain ⟨converted', e', made', read', rfl⟩ := (create_eq_ok object' function').mp created'
  obtain ⟨c, d, _, first, second, _, rfl, _⟩ := Expr.read_coalesce.mp read
  obtain ⟨c', d', _, first', second', _, rfl, _⟩ := Expr.read_coalesce.mp read'
  obtain ⟨data, ctx, e, made'', read'', same⟩ :=
    Conversion.body_atZoom property stops grouped steps made first number
  obtain rfl : data = converted' := Except.ok.inj (made''.symm.trans made')
  have value := (same feature).trans (congrFun (Expr.read_eval read'' first') _)
  have default : d.eval = d'.eval := Expr.read_eval second second'
  rw [evaluate_compile,evaluate_compile,Expr.eval_eq,Expr.eval_eq]
  show (Eval.firstValue none [c.eval, d.eval] _).1 = (Eval.firstValue none [c'.eval, d'.eval] _).1
  simp only [Eval.firstValue,value,default]

theorem evaluate_atZoom_passed :
    let zero : Number := .int 0 (by decide)
    let ten : Number := .int 10 (by decide)
    let stops : List (Json × Json) := [
      (.obj [("value", .str "bus"), ("zoom", .num zero)], .str "thin"),
      (.obj [("value", .str "bus"), ("zoom", .num ten)], .str "wide"),
      (.obj [("value", .str "tram"), ("zoom", .num ten)], .str "pale")]
    let passed : List (Json × Json) := [(.str "bus", .str "wide"), (.str "tram", .str "pale")]
    let written (stops : List (Json × Json)) : Json :=
      .obj [("property", .str "kind"), ("stops", .arr (stops.map fun s => .arr [s.1, s.2])),
        ("type", .str "categorical")]
    let schema := (Schema.ofTypeName "string").withDefault (.str "none")
    let tram : Feature := fun _ => some (.str "tram")
    ∃ p q, create (written stops) schema none = .ok p ∧
      create (written passed) schema none = .ok q ∧
      (p.evaluate (some 12) (some tram)).1 = (q.evaluate (some 12) (some tram)).1 := by
  intro zero ten stops passed written schema tram
  let f : StopFunction := ⟨some "kind", some "categorical", none, none, none, some stops⟩
  have level : Conversion.levelStops 12 stops = passed := by
    have low : (Json.num zero).float? = some 0 := rfl
    have high : (Json.num ten).float? = some 10 := rfl
    have below : Conversion.isLevel 12 [0, 10, 10] 0 = false := by decide
    have counts : Conversion.isLevel 12 [0, 10, 10] 10 = true := by decide
    simp [stops,passed,Conversion.levelStops,Conversion.levels,Conversion.zoomOf,
      Conversion.valueStop,Conversion.part,Json.member?,List.lookup,low,high,below,counts]
  have function : StopFunction.ofJson? (written passed) = some (f.atZoom 12) := by
    rw [StopFunction.atZoom,Option.map_some,level]
    rfl
  have accepted : (create (written stops) schema none).isOk = true := by decide +kernel
  have accepted' : (create (written passed) schema none).isOk = true := by decide +kernel
  cases created : create (written stops) schema none with
  | error e => rw [created] at accepted; cases accepted
  | ok p =>
      cases created' : create (written passed) schema none with
      | error e => rw [created'] at accepted'; cases accepted'
      | ok q =>
          exact ⟨p, q, rfl, rfl, evaluate_atZoom (f := f) rfl rfl rfl rfl rfl rfl created
            (by decide) rfl function created' _⟩

end PropertyExpression

end MapStyle
