import MapStyle.Proofs.Bounds.Color
import MapStyle.Proofs.Bounds.Readers
import MapStyle.Proofs.Reading.Formed

-- Evaluating a curve by position. The stops around a number are found by a search that
-- promises something only of lists in which all elements with a property come first, so
-- it takes the order of the stops, and the tests for both ends before, to stay in range.

namespace MapStyle

-- The search counts the elements with a property where they come before all others.
def FindsPartition {α : Type} (search : (α → Bool) → List α → Nat) : Prop :=
  ∀ p xs, xs.Pairwise (fun a b => p b = true → p a = true) →
    search p xs = (xs.takeWhile p).length

namespace Positional

variable (search : (Stop Expr → Bool) → List (Stop Expr) → Nat)

def along (interpolation : Interpolation) (stops : List (Stop Expr)) (x : Float) :
    Option (Eval Value) :=
  if x.isNaN then some (Eval.fail .nanCurveInput)
  else do
    let first ← stops[0]?
    let final ← minus? stops.length 1
    let last ← stops[final]?
    if x ≤ first.input then some first.output.eval
    else if last.input ≤ x then some last.output.eval
    else do
      let upper := search (fun s => s.input ≤ x) stops
      let below ← minus? upper 1
      let lower ← stops[below]?
      if interpolation.isStep then some lower.output.eval
      else do
        let next ← stops[upper]?
        some do
          let a ← lower.output.eval
          let b ← next.output.eval
          Eval.ofExcept (Value.blend (interpolation.factor x lower.input next.input) a b)

def evalCurve (interpolation : Interpolation) (input : Expr) (stops : List (Stop Expr)) :
    Session → Option (Except EvalError Value × Session) := fun s =>
  match (input.eval >>= Eval.number) s with
  | (.ok x, s') => (along search interpolation stops x).map fun output => output s'
  | (.error e, s') => some (.error e, s')

end Positional

def Expr.parseByPosition (data : Json) (options : ParseOptions) :
    Option (Except (List ParseError) Expr) := do
  let attempt ← Expr.byPosition data (Context.root options.expected options.key)
  some (match attempt.value?, attempt.errors with
    | some e, [] => .ok e
    | _, errors => .error errors)

namespace Positional

def evaluated (s : Stop Expr) : Stop (Eval Value) :=
  ⟨s.input, s.output.eval⟩

variable {search : (Stop Expr → Bool) → List (Stop Expr) → Nat} (finds : FindsPartition search)
include finds

theorem search_eq {before after : List (Stop Expr)} {x : Float}
    (ascending : Stop.Ascending (before ++ after)) (passed : ∀ s ∈ before, s.input ≤ x)
    (ahead : ∀ s ∈ after, x < s.input) :
    search (fun s => s.input ≤ x) (before ++ after) = before.length := by
  have divided : (before ++ after).Pairwise fun s t =>
      decide (t.input ≤ x) = true → decide (s.input ≤ x) = true := by
    refine ascending.ordered.imp fun below upTo => decide_eq_true ?_
    exact Double.le_of_lt (Double.lt_of_lt_of_le below (of_decide_eq_true upTo))
  have all : ∀ s ∈ before, decide (s.input ≤ x) = true := fun s member =>
    decide_eq_true (passed s member)
  have reached : after.takeWhile (fun s => decide (s.input ≤ x)) = [] := by
    cases after with
    | nil => rfl
    | cons upper after =>
        refine List.takeWhile_cons_of_neg fun upTo => ?_
        exact Double.not_le_of_lt (ahead upper List.mem_cons_self) (of_decide_eq_true upTo)
  rw [finds _ _ divided,List.takeWhile_append_of_pos all,reached,List.append_nil]

theorem along_past {interpolation : Interpolation} {first : Stop Expr}
    {before after : List (Stop Expr)} {x : Float} (number : x.isNaN = false)
    (ascending : Stop.Ascending (first :: before ++ after)) (beyond : ¬ x ≤ first.input)
    (passed : ∀ s ∈ first :: before, s.input ≤ x) (ahead : ∀ s ∈ after, x < s.input) :
    along search interpolation (first :: before ++ after) x =
      some (Eval.between interpolation x (evaluated (before.getLast?.getD first),
        after.head?.map evaluated)) := by
  have lower : (first :: before).getLast? = some (before.getLast?.getD first) :=
    List.getLast?_cons
  have count : minus? (first :: before ++ after).length 1 = some (before ++ after).length :=
    minus?_eq_some (Nat.le_add_left 1 _)
  have final : (first :: before ++ after)[(before ++ after).length]? =
      (first :: before ++ after).getLast? :=
    List.getLast?_eq_getElem?.symm
  have initial : (first :: before ++ after)[0]? = some first := rfl
  unfold along
  simp only [number,Bool.false_eq_true,if_false,initial,count,final,beyond,Option.bind_eq_bind,
    Option.bind_some]
  cases after with
  | nil =>
      have upTo := passed _ (List.mem_of_getLast? lower)
      simp only [List.append_nil,lower,Option.bind_some,upTo,if_true]
      rfl
  | cons upper after =>
      obtain ⟨last, ends⟩ : ∃ last, (upper :: after).getLast? = some last :=
        ⟨_, List.getLast?_cons⟩
      have above : ¬ last.input ≤ x :=
        Double.not_le_of_lt (ahead last (List.mem_of_getLast? ends))
      have counted := search_eq finds ascending passed ahead
      have below : minus? (before.length + 1) 1 = some before.length :=
        minus?_eq_some (Nat.le_add_left 1 _)
      have atLower : (first :: before ++ upper :: after)[before.length]? =
          some (before.getLast?.getD first) := by
        rw [List.getElem?_append_left (Nat.lt_succ_self _),← lower]
        exact List.getLast?_eq_getElem?.symm
      have atUpper : (first :: before ++ upper :: after)[before.length + 1]? = some upper := by
        simp
      simp only [List.getLast?_append,ends,Option.some_or,Option.bind_some,above,if_false,counted,
        List.length_cons,below,atLower,atUpper,List.head?_cons,Option.map_some,Eval.between]
      split <;> rfl

theorem along_eq {interpolation : Interpolation} {stops : List (Stop Expr)}
    (ascending : Stop.Ascending stops) (filled : stops ≠ []) (x : Float) :
    along search interpolation stops x =
      some (Eval.along interpolation (stops.map fun s => ⟨s.input, s.output.eval⟩) x) := by
  obtain ⟨first, rest, rfl⟩ := List.exists_cons_of_ne_nil filled
  cases number : x.isNaN with
  | true => simp only [along,if_true,Eval.along,number]
  | false =>
      rw [Eval.along_around interpolation (Stop.ascending_map Expr.eval ascending) number,
        Stop.around_map]
      by_cases upTo : x ≤ first.input
      · rw [Stop.around_first upTo]
        obtain ⟨last, final⟩ : ∃ last, (first :: rest)[rest.length]? = some last :=
          ⟨_, List.getElem?_eq_getElem (Nat.lt_succ_self _)⟩
        have count : minus? (first :: rest).length 1 = some rest.length :=
          minus?_eq_some (Nat.le_add_left 1 _)
        simp only [along,number,Bool.false_eq_true,if_false,List.getElem?_cons_zero,count,final,
          Option.bind_eq_bind,Option.bind_some,upTo,if_true]
        rfl
      · obtain ⟨before, after, rfl, passed, ahead⟩ := Stop.divide_past ascending number upTo
        rw [← List.cons_append,along_past finds number ascending upTo passed ahead,
          Stop.around_past upTo passed ahead]
        rfl

theorem evalCurve_eq {interpolation : Interpolation} {input e : Expr} {stops : List (Stop Expr)}
    (curve : e.node = .curve interpolation input stops) (formed : e.node.Formed e.type)
    (s : Session) : evalCurve search interpolation input stops s = some (e.eval s) := by
  rw [curve] at formed
  obtain ⟨filled, ascending, _⟩ := formed
  have eval : e.eval = (input.eval >>= Eval.number) >>=
      Eval.along interpolation (stops.map fun t => ⟨t.input, t.output.eval⟩) := by
    rw [Expr.eval_eq,curve]
    funext s
    cases now : input.eval s with
    | mk result s' => cases result <;> simp [Node.map,Node.run,now]
  rw [eval,Eval.bind_apply,evalCurve]
  cases (input.eval >>= Eval.number) s with
  | mk result s' =>
      cases result with
      | ok x => simp only [along_eq finds ascending filled,Option.map_some]
      | error e => rfl

end Positional

theorem Expr.parseByPosition_eq (data : Json) (options : ParseOptions) :
    Expr.parseByPosition data options = some (Expr.parse data options) := by
  rw [Expr.parseByPosition,Expr.byPosition_eq]
  rfl

theorem Expr.curves_inRange {search : (Stop Expr → Bool) → List (Stop Expr) → Nat}
    (finds : FindsPartition search) {data : Json} {options : ParseOptions} {e n : Expr}
    (parsed : Expr.parse data options = .ok e) (member : n ∈ e.nodes)
    {interpolation : Interpolation} {input : Expr} {stops : List (Stop Expr)}
    (curve : n.node = .curve interpolation input stops) (s : Session) :
    Positional.evalCurve search interpolation input stops s = some (n.eval s) := by
  obtain ⟨scope, _, _, _, _, read⟩ := e.nodes_readAt (Expr.parse_readAt parsed) n member
  exact Positional.evalCurve_eq finds curve (Expr.read_formed read) s

theorem positions_inRange {search : (Stop Expr → Bool) → List (Stop Expr) → Nat}
    (finds : FindsPartition search) :
    (∀ data options, Expr.parseByPosition data options = some (Expr.parse data options)) ∧
      (∀ data options e, Expr.parse data options = .ok e → ∀ n ∈ e.nodes,
        ∀ interpolation input stops, n.node = .curve interpolation input stops →
          ∀ s, Positional.evalCurve search interpolation input stops s = some (n.eval s)) ∧
      ∀ text, Color.byPosition text = some (Color.ofCss? text) := by
  refine ⟨Expr.parseByPosition_eq, ?_, Color.byPosition_eq⟩
  intro data options e parsed n member interpolation input stops curve s
  exact Expr.curves_inRange finds parsed member curve s

theorem positions_inRange_between :
    let data : Json := .arr [.str "coalesce", .arr [.str "curve", .arr [.str "linear"],
      .arr [.str "zoom"], .num (.int 0 (by decide)), .num (.int 1 (by decide)),
      .num (.int 10 (by decide)), .num (.int 5 (by decide))]]
    let zoom : Expr := ⟨[.index 1, .index 2], .number, .zoom⟩
    let stops : List (Stop Expr) :=
      [⟨0, ⟨[.index 1, .index 4], .number, .literal (.num 1)⟩⟩,
        ⟨10, ⟨[.index 1, .index 6], .number, .literal (.num 5)⟩⟩]
    let curve : Expr := ⟨[.index 1], .number, .curve .linear zoom stops⟩
    let e : Expr := ⟨[], .number, .coalesce [curve]⟩
    let search := fun (p : Stop Expr → Bool) xs => (xs.takeWhile p).length
    let s := Session.start (some 5) none
    Expr.parseByPosition data ⟨none, none⟩ = some (.ok e) ∧ curve ∈ e.nodes ∧
      Positional.evalCurve search .linear zoom stops s = some (curve.eval s) ∧
      Color.byPosition "#fff" = some (Color.ofCss? "#fff") := by
  intro data zoom stops curve e search s
  have finds : FindsPartition search := fun _ _ _ => rfl
  have parsed : Expr.parse data ⟨none, none⟩ = .ok e := rfl
  have below : curve ∈ e.nodes := .tail _ (.head _)
  obtain ⟨read, evaluated, colors⟩ := positions_inRange finds
  refine ⟨?_, below, ?_, colors "#fff"⟩
  · rw [read,parsed]
  · exact evaluated data ⟨none, none⟩ e parsed curve below .linear zoom stops rfl s

end MapStyle
