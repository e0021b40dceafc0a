import MapStyle.Proofs.Bounds.Evaluation
import MapStyle.Proofs.Evaluation.Alternatives

-- What a curve comes to at a number, told by a scan of its stops, and which of its outputs
-- are evaluated for it.

namespace MapStyle

open Eval

namespace Stop

variable {α : Type} {stops : List (Stop α)} {x : Float}

theorem around_last (ascending : Ascending stops) {last : Stop α}
    (final : stops.getLast? = some last) (reached : last.input ≤ x) :
    around x stops = some (last, none) := by
  cases stops with
  | nil => cases final
  | cons first rest =>
      by_cases upTo : x ≤ first.input
      · cases rest with
        | nil =>
            obtain rfl := Option.some.inj final
            exact around_first upTo
        | cons second rest =>
            rw [List.getLast?_cons_cons] at final
            have above := List.rel_of_pairwise_cons ascending.ordered (List.mem_of_getLast? final)
            exact absurd (Double.le_trans reached upTo) (Double.not_le_of_lt above)
      · simp only [around,List.head?_cons,final,upTo,if_false,reached,if_true]

theorem around_inside (ascending : Ascending stops) (number : x.isNaN = false) {first last : Stop α}
    (start : stops.head? = some first) (final : stops.getLast? = some last)
    (above : first.input < x) (below : x < last.input) :
    ∃ before lower upper after, stops = before ++ lower :: upper :: after ∧ lower.input ≤ x ∧
      (∀ t ∈ stops, t.input ≤ x → t.input ≤ lower.input) ∧
      around x stops = some (lower, some upper) := by
  obtain ⟨rest, rfl⟩ := List.head?_eq_some_iff.mp start
  have beyond : ¬ x ≤ first.input := Double.not_le_of_lt above
  obtain ⟨before, after, rfl, passed, ahead⟩ := divide_past ascending number beyond
  have lower : (first :: before).getLast? = some (before.getLast?.getD first) :=
    List.getLast?_cons
  cases after with
  | nil =>
      rw [List.append_nil] at final
      exact absurd (passed last (List.mem_of_getLast? final)) (Double.not_le_of_lt below)
  | cons upper after =>
      have chosen := around_past beyond passed ahead
      refine ⟨(first :: before).dropLast, before.getLast?.getD first, upper, after, ?_,
        passed _ (List.mem_of_getLast? lower), ?_, chosen⟩
      · have whole := List.dropLast_append_getLast? _ lower
        rw [← List.cons_append,← whole,List.append_assoc]
        simp
      · rcases around_level ascending number chosen with level | short
        · exact level.2
        · exact absurd (Double.le_of_lt above) (short.2 first List.mem_cons_self)

end Stop

-- The node comes to the result. For that these of its sub-expressions are evaluated, one
-- after the other, and no other one.
structure Expr.Takes (e : Expr) (parts : List Expr) (s : Session)
    (result : Except EvalError Value) : Prop where
  outcome : e.eval s = (result, s.noting (asked parts s))
  only : ∀ scope p t, e.Asks scope s p t → p.2 ∈ parts

theorem Expr.takes_of_run {e : Expr} {parts : List Expr} {s : Session}
    {result : Except EvalError Value} (plain : e.node.binds = false)
    (run : ∀ g : Expr → Eval Value, (∀ c ∈ parts, g c = c.eval) →
      (e.node.map g).run s = (result, s.noting (asked parts s))) :
    e.Takes parts s result := by
  have outcome : e.eval s = (result, s.noting (asked parts s)) := by
    rw [eval_eq]
    exact run eval fun _ _ => rfl
  refine ⟨outcome, ?_⟩
  intro scope p t asks
  refine Expr.asks_within (fun p _ => p.2 ∈ parts) ?_ asks
  intro f same
  rw [Node.located_eq_map scope e.node plain,Node.map_map,outcome]
  exact run _ fun c member => funext fun u => same (scope, c) u member

theorem Expr.eval_after (e : Expr) (parts : List Expr) (s : Session) :
    e.eval (s.noting (asked parts s)) = ((e.eval s).1, s.noting (asked (parts ++ [e]) s)) := by
  rw [eval_alone,eval_alone e s,alone_noting]
  simp [Session.noting,asked]

namespace Expr

variable {path : Path} {type : Ty} {i : Interpolation} {input : Expr} {stops : List (Stop Expr)}
  {s : Session} {x : Float} (ascending : Stop.Ascending stops) (number : x.isNaN = false)
  (evaluated : (input.eval s).1 = .ok (.num x))
include ascending number evaluated

theorem run_curve {g : Expr → Eval Value} (same : g input = input.eval) {lower : Stop Expr}
    {next : Option (Stop Expr)} (chosen : Stop.around x stops = some (lower, next)) :
    ((Node.curve i input stops).map g).run s =
      Eval.between i x (⟨lower.input, g lower.output⟩, next.map fun t => ⟨t.input, g t.output⟩)
        (s.noting (asked [input] s)) := by
  have value : input.eval s = (.ok (.num x), s.noting (asked [input] s)) := by
    rw [← evaluated,eval_alone]
    simp [asked]
  have curve : along i (stops.map fun t => ⟨t.input, g t.output⟩) x =
      Eval.between i x (⟨lower.input, g lower.output⟩, next.map fun t => ⟨t.input, g t.output⟩) := by
    rw [along_around i (Stop.ascending_map g ascending) number,Stop.around_map,chosen]
    rfl
  rw [← curve]
  simp [Node.map,Node.run,same,value]
  rfl

theorem curve_takes_stop {lower : Stop Expr} {next : Option (Stop Expr)}
    (chosen : Stop.around x stops = some (lower, next)) (sole : next = none ∨ i.isStep = true) :
    Expr.Takes ⟨path, type, .curve i input stops⟩ [input, lower.output] s
      (lower.output.eval s).1 := by
  apply takes_of_run rfl
  intro g same
  have output : Eval.between i x (⟨lower.input, g lower.output⟩,
      next.map fun t => ⟨t.input, g t.output⟩) = lower.output.eval := by
    rw [same lower.output (by simp)]
    rcases sole with rfl | step
    · rfl
    · cases next with
      | none => rfl
      | some upper => exact if_pos step
  rw [run_curve ascending number evaluated (same input (by simp)) chosen,output]
  exact lower.output.eval_after [input] s

theorem curve_takes_error {lower upper : Stop Expr}
    (chosen : Stop.around x stops = some (lower, some upper)) (eased : i.isStep = false)
    {err : EvalError} (failed : (lower.output.eval s).1 = .error err) :
    Expr.Takes ⟨path, type, .curve i input stops⟩ [input, lower.output] s (.error err) := by
  apply takes_of_run rfl
  intro g same
  have before : lower.output.eval (s.noting (asked [input] s)) =
      (.error err, s.noting (asked [input, lower.output] s)) := by
    rw [← failed]
    exact lower.output.eval_after [input] s
  rw [run_curve ascending number evaluated (same input (by simp)) chosen]
  simp [Eval.between,eased,same lower.output (by simp),before]

theorem curve_takes_both {lower upper : Stop Expr}
    (chosen : Stop.around x stops = some (lower, some upper)) (eased : i.isStep = false)
    {a : Value} (first : (lower.output.eval s).1 = .ok a) :
    Expr.Takes ⟨path, type, .curve i input stops⟩ [input, lower.output, upper.output] s
      ((upper.output.eval s).1.bind fun b => Value.blend (i.factor x lower.input upper.input) a b) := by
  apply takes_of_run rfl
  intro g same
  have before : lower.output.eval (s.noting (asked [input] s)) =
      (.ok a, s.noting (asked [input, lower.output] s)) := by
    rw [← first]
    exact lower.output.eval_after [input] s
  have after : upper.output.eval (s.noting (asked [input, lower.output] s)) =
      ((upper.output.eval s).1, s.noting (asked [input, lower.output, upper.output] s)) :=
    upper.output.eval_after [input, lower.output] s
  rw [run_curve ascending number evaluated (same input (by simp)) chosen]
  simp [Eval.between,eased,same lower.output (by simp),same upper.output (by simp),before,after]
  cases (upper.output.eval s).1 <;> rfl

end Expr

theorem Expr.eval_curve {data : Json} {options : ParseOptions} {e : Expr}
    (parsed : Expr.parse data options = .ok e) {path : Path} {type : Ty} {i : Interpolation}
    {input : Expr} {stops : List (Stop Expr)}
    (member : (⟨path, type, .curve i input stops⟩ : Expr) ∈ e.nodes) {s : Session} {x : Float}
    (evaluated : (input.eval s).1 = .ok (.num x)) (number : x.isNaN = false) :
    let curve : Expr := ⟨path, type, .curve i input stops⟩
    (∃ first last, stops.head? = some first ∧ stops.getLast? = some last ∧
      (x ≤ first.input → curve.Takes [input, first.output] s (first.output.eval s).1) ∧
      (last.input ≤ x → curve.Takes [input, last.output] s (last.output.eval s).1) ∧
      (first.input < x → x < last.input →
        ∃ before lower upper after, stops = before ++ lower :: upper :: after ∧
          lower.input ≤ x ∧ (∀ t ∈ stops, t.input ≤ x → t.input ≤ lower.input) ∧
          (i.isStep = true → curve.Takes [input, lower.output] s (lower.output.eval s).1) ∧
          (i.isStep = false →
            (∀ err, (lower.output.eval s).1 = .error err →
              curve.Takes [input, lower.output] s (.error err)) ∧
            ∀ a, (lower.output.eval s).1 = .ok a →
              curve.Takes [input, lower.output, upper.output] s
                ((upper.output.eval s).1.bind fun b =>
                  Value.blend (i.factor x lower.input upper.input) a b)))) ∧
      ∀ search, FindsPartition search →
        Positional.evalCurve search i input stops s = some (curve.eval s) := by
  intro curve
  obtain ⟨filled, ascending, _⟩ := Expr.parse_formed parsed _ member
  refine ⟨?_, fun search finds => Expr.curves_inRange finds parsed member rfl s⟩
  obtain ⟨first, rest, rfl⟩ := List.exists_cons_of_ne_nil filled
  refine ⟨first, (first :: rest).getLast filled, rfl, List.getLast?_eq_some_getLast filled,
    ?start, ?final, ?inside⟩
  case start =>
    intro upTo
    exact Expr.curve_takes_stop ascending number evaluated (Stop.around_first upTo) (.inl rfl)
  case final =>
    intro reached
    have chosen := Stop.around_last ascending (List.getLast?_eq_some_getLast filled) reached
    exact Expr.curve_takes_stop ascending number evaluated chosen (.inl rfl)
  case inside =>
    intro above below
    obtain ⟨before, lower, upper, after, parts, reached, greatest, chosen⟩ :=
      Stop.around_inside ascending number rfl (List.getLast?_eq_some_getLast filled) above below
    refine ⟨before, lower, upper, after, parts, reached, greatest, ?_, ?_⟩
    · intro step
      exact Expr.curve_takes_stop ascending number evaluated chosen (.inr step)
    · intro eased
      exact ⟨fun _ failed => Expr.curve_takes_error ascending number evaluated chosen eased failed,
        fun _ first => Expr.curve_takes_both ascending number evaluated chosen eased first⟩

theorem eval_curve_halfway :
    let get (name : String) : Json := .arr [.str "number", .arr [.str "get", .str name]]
    let data : Json := .arr [.str "curve", .arr [.str "linear"], .arr [.str "zoom"],
      .num (.int 0 (by decide)), get "a", .num (.int 10 (by decide)), get "b",
      .num (.int 20 (by decide)), get "c"]
    let output (position : Nat) (name : String) : Expr :=
      ⟨[.index position], .number, .assert .number [⟨[.index position, .index 1], .unknown,
        .get ⟨[.index position, .index 1, .index 1], .string, .literal (.str name)⟩⟩]⟩
    let input : Expr := ⟨[.index 2], .number, .zoom⟩
    let stops : List (Stop Expr) := [⟨0, output 4 "a"⟩, ⟨10, output 6 "b"⟩, ⟨20, output 8 "c"⟩]
    let curve : Expr := ⟨[], .number, .curve .linear input stops⟩
    let one : Json := .num (.int 1 (by decide))
    let five : Json := .num (.int 5 (by decide))
    let s := Session.start (some 5) (some (Feature.ofMembers [("a", one), ("b", five)]))
    Expr.parse data ⟨none, none⟩ = .ok curve ∧ curve ∈ curve.nodes ∧
      (input.eval s).1 = .ok (.num 5) ∧ Float.isNaN 5 = false ∧ (0 : Float) < 5 ∧ (5 : Float) < 20 ∧
      (curve.eval s).2.reads = ["a", "b"] ∧
      ∃ before lower upper after, stops = before ++ lower :: upper :: after ∧ lower.input ≤ 5 ∧
        (∀ t ∈ stops, t.input ≤ 5 → t.input ≤ lower.input) ∧
        ∀ a, (lower.output.eval s).1 = .ok a →
          curve.Takes [input, lower.output, upper.output] s
            ((upper.output.eval s).1.bind fun b =>
              Value.blend (Interpolation.linear.factor 5 lower.input upper.input) a b) := by
  intro get data output input stops curve one five s
  have parsed : Expr.parse data ⟨none, none⟩ = .ok curve := rfl
  have number : Float.isNaN 5 = false := by decide
  have above : (0 : Float) < 5 := by decide
  have below : (5 : Float) < 20 := by decide
  have reads : (curve.eval s).2.reads = ["a", "b"] := by decide +kernel
  obtain ⟨⟨first, last, start, final, _, _, inside⟩, _⟩ :=
    Expr.eval_curve parsed (.head _) (s := s) (x := 5) rfl number
  cases start
  cases final
  obtain ⟨before, lower, upper, after, parts, reached, greatest, _, eased⟩ := inside above below
  exact ⟨parsed, .head _, rfl, number, above, below, reads, before, lower, upper, after, parts, reached,
    greatest, (eased rfl).2⟩

end MapStyle
