import MapStyle.Proofs.Evaluation.Visits

namespace MapStyle
open Eval

def Session.over (s : Session) (pushed : List (String × Value)) : Session :=
  s.withVariables ⟨pushed ++ s.variables.entries⟩

-- The variables pushed in a session are those of a scope, the innermost first. Each
-- has the name of its binding and the value of the bound expression, evaluated with
-- only the outer ones pushed.
inductive Scope.Holds (s : Session) : Scope → List (String × Value) → Prop
  | nothing : Holds s [] []
  | bound (scope : Scope) (pushed : List (String × Value)) (name : String) (value : Expr) (v : Value) :
      Holds s scope pushed → (value.eval (s.over pushed)).1 = .ok v →
      Holds s ((name, value) :: scope) ((name, v) :: pushed)

theorem Scope.holds_names {s : Session} {scope : Scope} {pushed : List (String × Value)}
    (holds : Holds s scope pushed) : pushed.map Prod.fst = scope.map Prod.fst := by
  induction holds with
  | nothing => rfl
  | bound scope pushed name value v _ _ ih => simp only [List.map_cons,ih]

-- The innermost binding of a name and the variable in its place, with neither the
-- name again further in.
def Scope.Resolves (s : Session) (scope : Scope) (pushed : List (String × Value)) (name : String)
    (bound : Expr) (v : Value) : Prop :=
  ∃ inner outer above below, scope = inner ++ (name, bound) :: outer ∧
    name ∉ inner.map Prod.fst ∧ pushed = above ++ (name, v) :: below ∧
    above.map Prod.fst = inner.map Prod.fst ∧ Holds s outer below ∧
    (bound.eval (s.over below)).1 = .ok v

theorem Scope.holds_lookup {s : Session} {scope : Scope} {pushed : List (String × Value)}
    (holds : Holds s scope pushed) {name : String} {bound : Expr}
    (found : scope.lookup name = some bound) :
    ∃ v, Resolves s scope pushed name bound v ∧
      (pushed ++ s.variables.entries).lookup name = some v := by
  induction holds with
  | nothing => cases found
  | bound outer below other value v before evaluated ih =>
      by_cases same : name = other
      · subst same
        rw [List.lookup_cons_self] at found
        cases found
        refine ⟨v, ⟨[], outer, [], below, rfl, ?_, rfl, rfl, before, evaluated⟩, ?_⟩
        · simp
        · simp only [List.cons_append,List.lookup_cons_self]
      · have unequal : (name == other) = false := by simpa using same
        simp only [List.lookup_cons,unequal] at found
        obtain ⟨w, ⟨inner, outer', above, below', rfl, absent, rfl, names, rest⟩, read⟩ := ih found
        refine ⟨w, ⟨(other, value) :: inner, outer', (other, v) :: above, below', rfl, ?_, rfl, ?_,
          rest⟩, ?_⟩
        · simp only [List.map_cons,List.mem_cons,not_or]
          exact ⟨same, absent⟩
        · simp only [List.map_cons,names]
        · simp only [List.cons_append,List.lookup_cons,unequal]
          exact read

def Scope.Carried (s : Session) (scope : Scope) (v : Variables) : Prop :=
  ∃ pushed, Holds s scope pushed ∧ v.entries = pushed ++ s.variables.entries

def Scope.Aligned (s : Session) (scope : Scope) (t : Session) : Prop :=
  t.zoom = s.zoom ∧ t.feature = s.feature ∧ scope.Carried s t.variables

theorem Scope.carried_push {s t : Session} {scope : Scope} (aligned : scope.Aligned s t)
    {name : String} {value : Expr} {v : Value} (evaluated : (value.eval t).1 = .ok v) :
    Carried s ((name, value) :: scope) (t.variables.push name v) := by
  obtain ⟨zooms, features, pushed, holds, stack⟩ := aligned
  have there : (value.eval (s.over pushed)).1 = .ok v := by
    rw [← evaluated]
    exact value.eval_congr zooms.symm features.symm (congrArg Variables.mk stack).symm
  refine ⟨(name, v) :: pushed, .bound scope pushed name value v holds there, ?_⟩
  simp only [Variables.push,stack,List.cons_append]

def Session.Beside (s x y : Session) : Prop :=
  x.zoom = s.zoom ∧ x.feature = s.feature ∧ y = x.withVariables y.variables

theorem Session.beside_ignoresStacks (s : Session) : IgnoresStacks s.Beside := by
  intro x y v w beside
  obtain ⟨zooms, features, rest⟩ := beside
  refine ⟨zooms, features, ?_⟩
  rw [rest]

theorem Session.beside_property (s : Session) {V : Variables → Variables → Prop}
    {E : EvalError → Prop} (name : String) : Matches V s.Beside E (property name) (property name) := by
  refine property_matches name ?_ ?_
  · intro x y beside
    rw [beside.2.2]
  · intro x y beside
    refine ⟨beside.1, beside.2.1, ?_⟩
    rw [beside.2.2]

theorem Expr.asks_aligned {s t u : Session} {scope : Scope} {e : Expr} {p : Scope × Expr}
    (aligned : scope.Aligned s t) (asks : e.Asks scope t p u) :
    p ∈ (e.node.located scope).children ∧ Scope.Aligned s p.1 u := by
  refine Expr.asks_within (fun p u => p ∈ (e.node.located scope).children ∧ Scope.Aligned s p.1 u)
    ?_ asks
  intro f same
  have run := Node.run_matches (W := fun scope v w => v = w ∧ Scope.Carried s scope v)
    (R := s.Beside) (E := fun _ => True) (f := fun p => p.2.eval) (g := f) e.node scope
    (fun _ _ => trivial) s.beside_ignoresStacks
    (by
      intro _ x y beside
      rw [beside.2.2])
    (fun _ => s.beside_property)
    (fun name _ => lookup_matches name
      (by
        intro v w stacked
        rw [stacked.1])
      fun _ _ _ _ => trivial)
    (by
      intro scope b x y v stacked beside evaluated
      obtain ⟨paired, carried⟩ := stacked
      exact ⟨by rw [paired], Scope.carried_push ⟨beside.1, beside.2.1, carried⟩ evaluated⟩)
    (by
      intro p member x y stacked beside
      obtain ⟨paired, carried⟩ := stacked
      obtain ⟨zooms, features, rest⟩ := beside
      obtain rfl : y = x := by rw [rest,← paired]
      rw [same p y ⟨member, zooms, features, carried⟩]
      obtain ⟨zooms', features', stack⟩ := p.2.eval_keeps y
      exact ⟨rfl, ⟨zooms'.trans zooms, features'.trans features, rfl⟩, stack, stack,
        fun _ _ => trivial⟩)
    t t ⟨rfl, aligned.2.2⟩ ⟨aligned.1, aligned.2.1, rfl⟩
  rw [Node.located_map,← Expr.eval_eq] at run
  refine Prod.ext run.result ?_
  rw [run.related.2.2,run.second,← run.first]

theorem Expr.visits_aligned {s t : Session} {scope : Scope} {e n : Expr}
    (visits : e.Visits [] s scope n t) : scope.Aligned s t := by
  induction visits with
  | whole => exact ⟨rfl, rfl, [], .nothing, rfl⟩
  | inside scope n t p u _ asks aligned => exact (Expr.asks_aligned aligned asks).2

end MapStyle
