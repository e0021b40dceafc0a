import MapStyle.Evaluation.Run
import MapStyle.Proofs.Double.Order

namespace MapStyle

namespace Stop

variable {α β : Type}

structure Ascending (stops : List (Stop α)) : Prop where
  numbers : ∀ s ∈ stops, s.input.isNaN = false
  ordered : stops.Pairwise fun s t => s.input < t.input

-- The stop whose output a curve has at a number and, where the number lies strictly
-- between two stops, the next one. Up to the first stop and from the last one on
-- there is no next.
def around (x : Float) (stops : List (Stop α)) : Option (Stop α × Option (Stop α)) :=
  match stops.head?, stops.getLast? with
  | some first, some last =>
      if x ≤ first.input then some (first, none)
      else if last.input ≤ x then some (last, none)
      else
        -- In ascending order these are the largest stop up to the number and the
        -- least one above it.
        match (stops.filter fun s => s.input ≤ x).getLast?, stops.find? fun s => x < s.input with
        | some lower, some upper => some (lower, some upper)
        | _, _ => none
  | _, _ => none

theorem ascending_tail {s : Stop α} {stops : List (Stop α)} (ascending : Ascending (s :: stops)) :
    Ascending stops :=
  ⟨fun t member => ascending.numbers t (List.mem_cons_of_mem _ member), ascending.ordered.tail⟩

theorem divide {stops : List (Stop α)} (ascending : Ascending stops) {x : Float}
    (number : x.isNaN = false) :
    ∃ before after, stops = before ++ after ∧ (∀ s ∈ before, s.input ≤ x) ∧
      ∀ s ∈ after, x < s.input := by
  induction stops with
  | nil => exact ⟨[], [], rfl, by simp, by simp⟩
  | cons s rest ih =>
      by_cases upTo : s.input ≤ x
      · obtain ⟨before, after, parts, passed, ahead⟩ := ih (ascending_tail ascending)
        refine ⟨s :: before, after, by rw [parts]; rfl, ?_, ahead⟩
        intro t member
        rcases List.mem_cons.mp member with rfl | belongs
        · exact upTo
        · exact passed t belongs
      · have above : x < s.input :=
          (Double.not_le_iff (ascending.numbers s List.mem_cons_self) number).mp upTo
        refine ⟨[], s :: rest, rfl, by simp, ?_⟩
        intro t member
        rcases List.mem_cons.mp member with rfl | belongs
        · exact above
        · exact Double.lt_trans above (List.rel_of_pairwise_cons ascending.ordered belongs)

theorem around_first {first : Stop α} {rest : List (Stop α)} {x : Float} (upTo : x ≤ first.input) :
    around x (first :: rest) = some (first, none) := by
  cases last : (first :: rest).getLast? with
  | none => simp at last
  | some s => simp only [around,List.head?_cons,last,upTo,if_true]

theorem divide_past {first : Stop α} {rest : List (Stop α)} {x : Float}
    (ascending : Ascending (first :: rest)) (number : x.isNaN = false) (beyond : ¬ x ≤ first.input) :
    ∃ before after, rest = before ++ after ∧ (∀ s ∈ first :: before, s.input ≤ x) ∧
      ∀ s ∈ after, x < s.input := by
  obtain ⟨before, after, parts, passed, ahead⟩ := divide (ascending_tail ascending) number
  refine ⟨before, after, parts, ?_, ahead⟩
  intro s member
  rcases List.mem_cons.mp member with rfl | belongs
  · exact Double.le_of_lt ((Double.not_le_iff number (ascending.numbers s List.mem_cons_self)).mp beyond)
  · exact passed s belongs

theorem around_past {first : Stop α} {before after : List (Stop α)} {x : Float}
    (beyond : ¬ x ≤ first.input) (passed : ∀ s ∈ first :: before, s.input ≤ x)
    (ahead : ∀ s ∈ after, x < s.input) :
    around x (first :: before ++ after) = some (before.getLast?.getD first, after.head?) := by
  have lower : (first :: before).getLast? = some (before.getLast?.getD first) :=
    List.getLast?_cons
  cases after with
  | nil =>
      have upTo : (before.getLast?.getD first).input ≤ x :=
        passed _ (List.mem_of_getLast? lower)
      simp only [around,List.append_nil,List.head?_cons,lower,beyond,if_false,upTo,if_true,
        List.head?_nil]
  | cons upper after =>
      have notPassed : ∀ s ∈ upper :: after, ¬ s.input ≤ x := fun s member =>
        Double.not_le_of_lt (ahead s member)
      have kept : (first :: before ++ upper :: after).filter (fun s => s.input ≤ x) =
          first :: before := by
        rw [List.filter_append,List.filter_eq_self.mpr (by simpa using passed),
          List.filter_eq_nil_iff.mpr (by simpa using notPassed),List.append_nil]
      have next : (first :: before ++ upper :: after).find? (fun s => x < s.input) =
          some upper := by
        have reached : (first :: before).find? (fun s => decide (x < s.input)) = none := by
          rw [List.find?_eq_none]
          intro s member above
          exact Double.not_le_of_lt (of_decide_eq_true above) (passed s member)
        rw [List.find?_append,reached,Option.none_or,List.find?_cons_of_pos]
        exact decide_eq_true (ahead upper List.mem_cons_self)
      cases last : (upper :: after).getLast? with
      | none => simp at last
      | some s =>
          have whole : (first :: before ++ upper :: after).getLast? = some s := by
            rw [List.getLast?_append,last,Option.some_or]
          simp only [around,List.cons_append,List.head?_cons] at kept next whole ⊢
          simp only [whole,beyond,if_false,notPassed s (List.mem_of_getLast? last),kept,next,lower]

theorem ascending_map (f : α → β) {stops : List (Stop α)} (ascending : Ascending stops) :
    Ascending (stops.map fun s => (⟨s.input, f s.output⟩ : Stop β)) := by
  constructor
  · intro t member
    obtain ⟨s, belongs, rfl⟩ := List.mem_map.mp member
    exact ascending.numbers s belongs
  · exact List.pairwise_map.mpr ascending.ordered

@[simp] theorem around_map (f : α → β) (x : Float) (stops : List (Stop α)) :
    around x (stops.map fun s => ⟨s.input, f s.output⟩) =
      (around x stops).map fun (s, next) =>
        (⟨s.input, f s.output⟩, next.map fun t => ⟨t.input, f t.output⟩) := by
  unfold around
  rw [List.head?_map,List.getLast?_map,List.filter_map,List.getLast?_map,List.find?_map]
  cases stops.head? with
  | none => rfl
  | some first =>
      cases stops.getLast? with
      | none => rfl
      | some last =>
          simp only [Option.map_some,Function.comp_def]
          split
          · rfl
          · split
            · rfl
            · cases (stops.filter fun s => decide (s.input ≤ x)).getLast? with
              | none => rfl
              | some lower =>
                  cases stops.find? fun s => decide (x < s.input) with
                  | none => rfl
                  | some upper => rfl

theorem around_mem {x : Float} {stops : List (Stop α)} {s : Stop α} {next : Option (Stop α)}
    (found : around x stops = some (s, next)) : s ∈ stops ∧ ∀ t, next = some t → t ∈ stops := by
  cases stops with
  | nil => cases found
  | cons first rest =>
      cases last : (first :: rest).getLast? with
      | none => simp at last
      | some l =>
          simp only [around,List.head?_cons,last] at found
          split at found
          · cases found
            exact ⟨List.mem_cons_self, nofun⟩
          · split at found
            · cases found
              exact ⟨List.mem_of_getLast? last, nofun⟩
            · split at found
              · rename_i lower upper below above
                cases found
                refine ⟨(List.mem_filter.mp (List.mem_of_getLast? below)).1, ?_⟩
                intro t same
                cases same
                exact List.mem_of_find?_eq_some above
              · cases found

theorem around_some {x : Float} {stops : List (Stop α)} (ascending : Ascending stops)
    (number : x.isNaN = false) (filled : stops ≠ []) : ∃ chosen, around x stops = some chosen := by
  obtain ⟨first, rest, rfl⟩ := List.exists_cons_of_ne_nil filled
  by_cases upTo : x ≤ first.input
  · exact ⟨_, around_first upTo⟩
  · obtain ⟨before, after, rfl, reached, ahead⟩ := divide_past ascending number upTo
    exact ⟨_, around_past upTo reached ahead⟩

theorem last_largest {stops : List (Stop α)} (ascending : Ascending stops) {s t : Stop α}
    (last : stops.getLast? = some s) (member : t ∈ stops) : t.input ≤ s.input := by
  have parts := List.dropLast_append_getLast? s last
  rw [← parts] at member
  rcases List.mem_append.mp member with before | final
  · have ordered := ascending.ordered
    rw [← parts] at ordered
    exact Double.le_of_lt
      ((List.pairwise_append.mp ordered).2.2 t before s (List.mem_singleton.mpr rfl))
  · rw [List.mem_singleton.mp final]
    exact Double.le_refl (ascending.numbers s (List.mem_of_getLast? last))

theorem around_level {x : Float} {stops : List (Stop α)} {s : Stop α} {next : Option (Stop α)}
    (ascending : Ascending stops) (number : x.isNaN = false) (found : around x stops = some (s, next)) :
    (s.input ≤ x ∧ ∀ t ∈ stops, t.input ≤ x → t.input ≤ s.input) ∨
      (stops.head? = some s ∧ ∀ t ∈ stops, ¬ t.input ≤ x) := by
  cases stops with
  | nil => cases found
  | cons first rest =>
      by_cases upTo : x ≤ first.input
      · rw [around_first upTo] at found
        obtain ⟨rfl, _⟩ := Prod.mk.inj (Option.some.inj found)
        by_cases reached : first.input ≤ x
        · exact .inl ⟨reached, fun t _ passed => Double.le_trans passed upTo⟩
        · refine .inr ⟨rfl, ?_⟩
          intro t member passed
          rcases List.mem_cons.mp member with rfl | belongs
          · exact reached passed
          · have above := List.rel_of_pairwise_cons ascending.ordered belongs
            exact reached (Double.le_trans (Double.le_of_lt above) passed)
      · obtain ⟨before, after, rfl, reached, ahead⟩ := divide_past ascending number upTo
        have chosen := around_past upTo reached ahead
        rw [List.cons_append,found,Option.some.injEq,Prod.mk.injEq] at chosen
        have last : (first :: before).getLast? = some s := by
          rw [chosen.1]
          exact List.getLast?_cons
        have sorted : Ascending (first :: before) :=
          ⟨fun t member => ascending.numbers t (List.mem_append_left after member),
            (List.pairwise_append.mp ascending.ordered).1⟩
        refine .inl ⟨reached s (List.mem_of_getLast? last), ?_⟩
        intro t member passed
        rcases List.mem_append.mp (show t ∈ (first :: before) ++ after from member) with b | a
        · exact last_largest sorted last b
        · exact absurd passed (Double.not_le_of_lt (ahead t a))

end Stop

def Interpolation.between (interpolation : Interpolation) (x : Float) :
    Stop Value × Option (Stop Value) → Except EvalError Value
  | (stop, none) => .ok stop.output
  | (lower, some upper) =>
      if interpolation.isStep then .ok lower.output
      else Value.blend (interpolation.factor x lower.input upper.input) lower.output upper.output

def Interpolation.valueAt (interpolation : Interpolation) (stops : List (Stop Value)) (x : Float) :
    Except EvalError Value :=
  if x.isNaN then .error .nanCurveInput
  else
    match Stop.around x stops with
    | some chosen => interpolation.between x chosen
    | none => .error .noStops

namespace Eval

def between (interpolation : Interpolation) (x : Float) :
    Stop (Eval Value) × Option (Stop (Eval Value)) → Eval Value
  | (stop, none) => stop.output
  | (lower, some upper) =>
      if interpolation.isStep then lower.output
      else do
        let a ← lower.output
        let b ← upper.output
        ofExcept (Value.blend (interpolation.factor x lower.input upper.input) a b)

theorem past_append (interpolation : Interpolation) (x : Float) (lower : Stop (Eval Value))
    {before : List (Stop (Eval Value))} (after : List (Stop (Eval Value)))
    (passed : ∀ s ∈ before, s.input ≤ x) :
    past interpolation x lower (before ++ after) =
      past interpolation x (before.getLast?.getD lower) after := by
  induction before generalizing lower with
  | nil => rfl
  | cons s rest ih =>
      rw [List.cons_append,past,if_pos (passed s List.mem_cons_self),
        ih s fun t member => passed t (List.mem_cons_of_mem _ member),List.getLast?_cons]
      rfl

theorem past_ahead (interpolation : Interpolation) {x : Float} (lower : Stop (Eval Value))
    {after : List (Stop (Eval Value))} (ahead : ∀ s ∈ after, x < s.input) :
    past interpolation x lower after = between interpolation x (lower, after.head?) := by
  cases after with
  | nil => rfl
  | cons upper after =>
      rw [past,if_neg (Double.not_le_of_lt (ahead upper List.mem_cons_self))]
      rfl

theorem along_around (interpolation : Interpolation) {stops : List (Stop (Eval Value))}
    (ascending : Stop.Ascending stops) {x : Float} (number : x.isNaN = false) :
    along interpolation stops x =
      match Stop.around x stops with
      | some chosen => between interpolation x chosen
      | none => fail .noStops := by
  unfold along
  rw [number,if_neg Bool.false_ne_true]
  cases stops with
  | nil => rfl
  | cons first rest =>
      by_cases upTo : x ≤ first.input
      · rw [Stop.around_first upTo]
        exact if_pos upTo
      · obtain ⟨before, after, rfl, reached, ahead⟩ := Stop.divide_past ascending number upTo
        rw [← List.cons_append,Stop.around_past upTo reached ahead]
        calc (if x ≤ first.input then first.output else past interpolation x first (before ++ after))
            = past interpolation x first (before ++ after) := if_neg upTo
          _ = past interpolation x (before.getLast?.getD first) after :=
              past_append interpolation x first after fun s member =>
                reached s (List.mem_cons_of_mem _ member)
          _ = between interpolation x (before.getLast?.getD first, after.head?) :=
              past_ahead interpolation _ ahead

theorem along_pure (interpolation : Interpolation) {stops : List (Stop Value)}
    (ascending : Stop.Ascending stops) (x : Float) :
    along interpolation (stops.map fun s => ⟨s.input, pure s.output⟩) x =
      ofExcept (interpolation.valueAt stops x) := by
  unfold Interpolation.valueAt
  cases number : x.isNaN with
  | true => simp only [along,number,if_true]; rfl
  | false =>
      rw [along_around interpolation (Stop.ascending_map pure ascending) number,Stop.around_map,
        if_neg Bool.false_ne_true]
      cases Stop.around x stops with
      | none => rfl
      | some chosen =>
          obtain ⟨lower, next⟩ := chosen
          cases next with
          | none => rfl
          | some upper =>
              simp only [Option.map_some,between,Interpolation.between]
              split <;> rfl

end Eval

end MapStyle
