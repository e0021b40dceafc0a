import MapStyle.Proofs.Property.Levels

-- What a conversion is put together from. Whatever the function, it chooses among its
-- outputs and the default, by the zoom and by the property that its inputs are compared
-- with, so what the choices keep holds of the converted function.

namespace MapStyle

open Reading Attempt

namespace Reading

variable {ctx : Context} {pairs : List (Operand × Operand)}

theorem arms_read {state final : LabelState} {common final' : Common} {position : Nat}
    {as : List (Arm Expr)} (success : arms ctx state common position pairs = (final, final', pure as)) :
    ∀ a ∈ as, ∃ p ∈ pairs, ∃ ctx, p.2.read ctx = pure a.output := by
  induction pairs generalizing state common position as with
  | nil =>
      obtain rfl := pure_eq_pure.mp (Prod.mk.inj (Prod.mk.inj success).2).2
      intro a member
      cases member
  | cons p rest ih =>
      obtain ⟨_, r, _, _, others, _, made, after, rfl⟩ := arms_cons_eq_pure.mp success
      intro a member
      rcases List.mem_cons.mp member with rfl | belongs
      · exact ⟨p, List.mem_cons_self, _, (output_eq_pure.mp made).1⟩
      · obtain ⟨q, there, read⟩ := ih after a belongs
        exact ⟨q, List.mem_cons_of_mem p there, read⟩

end Reading

def Expr.ReadFrom (data : Json) (e : Expr) : Prop :=
  ∃ ctx, Expr.read data ctx = pure e

namespace Conversion

variable {input default : Json} {stops : List (Json × Json)} {ctx : Context} {e : Expr}

theorem read_select
    (read : Expr.read (.arr (.str "match" :: input :: flatStops stops ++ [default])) ctx = pure e) :
    ∃ i as o, e.node = .select i as o ∧ Expr.ReadFrom input i ∧ Expr.ReadFrom default o ∧
      ∀ a ∈ as, ∃ s ∈ stops, Expr.ReadFrom s.2 a.output := by
  obtain ⟨pairs, last, state, common, as, final, o, i, split, made, made', first, rfl⟩ :=
    select_eq_pure.mp (Expr.operator_of_read .select _ read)
  have parts := pairsAndLast?_eq_some.mpr (Expr.operands_flatStops_append stops default)
  obtain ⟨rfl, rfl⟩ := Prod.mk.inj (Option.some.inj (split.symm.trans parts))
  refine ⟨i, as, o, rfl, ?_, ⟨_, (output_eq_pure.mp made').1⟩, ?_⟩
  · unfold readInput at first
    cases known : state.type? with
    | none =>
        rw [known] at first
        exact ⟨_, first⟩
    | some type =>
        rw [known] at first
        exact ⟨_, first⟩
  · intro arm belongs
    obtain ⟨p, there, read⟩ := arms_read made arm belongs
    obtain ⟨s, stop, rfl⟩ := List.mem_map.mp there
    exact ⟨s, stop, read⟩

theorem read_curve {interpolation : Json}
    (read : Expr.read (.arr (.str "curve" :: interpolation :: input :: flatStops stops)) ctx = pure e) :
    ∃ i x ss, e.node = .curve i x ss ∧ Expr.ReadFrom input x ∧
      ∀ p ∈ ss, ∃ s ∈ stops, Expr.ReadFrom s.2 p.output := by
  obtain ⟨pairs, i, x, common, ss, split, _, first, made, _, rfl⟩ :=
    curve_eq_pure.mp (Expr.operator_of_read .curve _ read)
  have parts := pairs?_eq_some.mpr (Expr.operands_flatStops stops)
  obtain rfl := Option.some.inj (split.symm.trans parts)
  refine ⟨i, x, ss, rfl, ⟨_, first⟩, ?_⟩
  intro stop belongs
  obtain ⟨q, there, _, here, read⟩ := forall₂_exists (stops_read made) belongs
  obtain ⟨s, known, rfl⟩ := List.mem_map.mp there
  exact ⟨s, known, here, read⟩

def compared (f : StopFunction) (type : String) : Json :=
  .arr [.str type, property (f.property.getD "")]

inductive Condition (input : Json) : Json → Prop
  | holds : Condition input input
  | fails : Condition input (.arr [.str "!", input])

structure Chooses (f : StopFunction) (Q : Json → Prop) : Prop where
  case : ∀ {first type condition chosen other}, inputType? first = .ok type →
    Condition (compared f type) condition → Q chosen → Q other →
      Q (.arr [.str "case", condition, chosen, other])
  select : ∀ {first type stops default}, inputType? first = .ok type →
    (∀ s ∈ stops, Q s.2) → Q default →
      Q (.arr (.str "match" :: compared f type :: flatStops stops ++ [default]))
  curve : ∀ {first type interpolation stops}, inputType? first = .ok type →
    (∀ s ∈ stops, Q s.2) →
      Q (.arr (.str "curve" :: interpolation :: compared f type :: flatStops stops))

def Climbs (Q : Json → Prop) : Prop :=
  ∀ interpolation stops, (∀ s ∈ stops, Q s.2) →
    Q (.arr (.str "curve" :: interpolation :: .arr [.str "zoom"] :: flatStops stops))

variable {f : StopFunction} {schema : Schema} {converted : Json} {Q : Json → Prop}

theorem booleanChoice_keeps {first output : Json} {type : String} {rest : List (Json × Json)}
    (chooses : Chooses f Q) (typed : inputType? first = .ok type) (chosen : Q output)
    (outputs : ∀ s ∈ rest, Q s.2) (last : Q default)
    (made : booleanChoice default (compared f type) first output rest = .ok converted) :
    Q converted := by
  unfold booleanChoice at made
  split at made
  · cases made
  · cases made
    refine chooses.case typed ?_ chosen ?_
    · split
      · exact .fails
      · exact .holds
    · cases rest with
      | nil => exact last
      | cons s _ => exact outputs s List.mem_cons_self

theorem ofProperty_keeps (chooses : Chooses f Q) (outputs : ∀ s ∈ stops, Q s.2) (last : Q default)
    (made : ofProperty f schema default stops = .ok converted) : Q converted := by
  unfold ofProperty at made
  split at made
  · cases made
  · rename_i kind _
    cases stops with
    | nil => cases made
    | cons s rest =>
        obtain ⟨first, output⟩ := s
        simp only at made
        split at made
        · cases made
        · rename_i type typed
          split at made
          · exact booleanChoice_keeps chooses typed (outputs _ List.mem_cons_self)
              (fun s member => outputs s (List.mem_cons_of_mem _ member)) last made
          · cases kind with
            | categorical =>
                cases made
                exact chooses.select typed outputs last
            | interval =>
                cases made
                exact chooses.curve typed outputs
            | exponential =>
                cases made
                exact chooses.curve typed outputs

theorem ofZoom_keeps (climbs : Climbs Q) (outputs : ∀ s ∈ stops, Q s.2)
    (made : ofZoom f schema stops = .ok converted) : Q converted := by
  unfold ofZoom at made
  split at made
  · cases made
  · cases made
  · cases made
    exact climbs _ _ outputs
  · cases made
    exact climbs _ _ outputs

theorem ofZoomAndProperty_keeps (climbs : Climbs Q) (chooses : Chooses f Q)
    (outputs : ∀ s ∈ stops, Q s.2) (last : Q default)
    (made : ofZoomAndProperty f schema default stops = .ok converted) : Q converted := by
  unfold ofZoomAndProperty at made
  dsimp only at made
  split at made
  · rename_i pairs grouped
    cases made
    refine climbs _ _ fun pair member => ?_
    obtain ⟨g, belongs, _, made⟩ := forall₂_exists (ofGroups_eq_ok.mp grouped) member
    refine ofProperty_keeps chooses (fun s inside => ?_) last made
    rw [groups_eq] at belongs
    obtain ⟨zoom, _, rfl⟩ := List.mem_map.mp belongs
    obtain ⟨stop, kept, rfl⟩ := List.mem_map.mp inside
    exact outputs stop (List.mem_filter.mp kept).1
  · cases made

theorem defaultOf_keeps (error : ∀ message, Q (.arr [.str "error", .str message]))
    (given : ∀ d, f.default.or schema.default = some d → Q (constant schema d)) :
    Q (defaultOf f schema) := by
  unfold defaultOf
  split
  · rename_i data found
    exact given data found
  · exact error _

def Grouped (f : StopFunction) : Prop :=
  ∃ s rest, f.stops = some (s :: rest) ∧ s.1.isObject = true

def Compares (f : StopFunction) : Prop :=
  f.property.isSome ∨ Grouped f

theorem body_keeps (climbs : Climbs Q) (chooses : Compares f → Chooses f Q)
    (identity : ∀ name, f.property = some name → Q (asserted schema (property name)))
    (outputs : ∀ stops, f.stops = some stops → ∀ s ∈ stops, Q (constant schema s.2))
    (last : Q (defaultOf f schema)) (made : body f schema = .ok converted) : Q converted := by
  unfold body at made
  cases filled : f.stops with
  | none =>
      cases property : f.property with
      | none =>
          simp only [filled,property] at made
          cases made
      | some name =>
          simp only [filled,property,Except.ok.injEq] at made
          rw [← made]
          exact identity name property
  | some stops =>
      cases stops with
      | nil =>
          simp only [filled] at made
          cases made
      | cons stop rest =>
          have each : ∀ s ∈ (stop :: rest).map fun s => (s.1, constant schema s.2), Q s.2 := by
            intro s member
            obtain ⟨t, belongs, rfl⟩ := List.mem_map.mp member
            exact outputs _ filled t belongs
          simp only [filled] at made
          split at made
          · cases made
          · split at made
            · rename_i object
              exact ofZoomAndProperty_keeps climbs (chooses (.inr ⟨stop, rest, filled, object⟩))
                each last made
            · split at made
              · rename_i property
                exact ofProperty_keeps (chooses (.inl property)) each last made
              · exact ofZoom_keeps climbs each made

end Conversion

end MapStyle
