import MapStyle.Proofs.Evaluation.Folding

namespace MapStyle
open Eval

-- To evaluate a node asks for the value of a sub-expression in a session when
-- another answer to that, and to nothing else, would make a difference. Every
-- answer is handed on with the session after it, so none that is asked for can go
-- unnoticed.
def Expr.Asks (scope : Scope) (e : Expr) (s : Session) (p : Scope × Expr) (t : Session) : Prop :=
  ∃ f : Scope × Expr → Eval Value, (∀ q u, q = p ∧ u = t ∨ f q u = q.2.eval u) ∧
    ((e.node.located scope).map f).run s ≠ e.eval s

-- The nodes that are evaluated in the course of an evaluation, each in the scope
-- that it is in and the session that it is evaluated in.
inductive Expr.Visits (scope : Scope) (e : Expr) (s : Session) : Scope → Expr → Session → Prop
  | whole : Visits scope e s scope e s
  | inside (scope' : Scope) (n : Expr) (t : Session) (p : Scope × Expr) (u : Session) :
      Visits scope e s scope' n t → n.Asks scope' t p u → Visits scope e s p.1 p.2 u

theorem Expr.asks_within {scope : Scope} {e : Expr} {s : Session} (A : Scope × Expr → Session → Prop)
    (enough : ∀ f : Scope × Expr → Eval Value, (∀ p t, A p t → f p t = p.2.eval t) →
      ((e.node.located scope).map f).run s = e.eval s)
    {p : Scope × Expr} {t : Session} (asks : e.Asks scope s p t) : A p t := by
  obtain ⟨f, elsewhere, noticed⟩ := asks
  refine Classical.byContradiction fun outside => noticed (enough f ?_)
  intro q u inside
  rcases elsewhere q u with ⟨rfl, rfl⟩ | same
  · exact absurd inside outside
  · exact same

theorem Eval.letIn_result {name : String} {a b : Eval Value} {s t : Session} {v : Value}
    (evaluated : a s = (.ok v, t)) :
    ((Node.letIn [⟨name, a⟩] b).run s).1 =
      (b (t.withVariables (t.variables.push name v))).1 := by
  simp only [Node.run,inScope,bindAll_cons,evaluated]
  rfl

def Eval.contrary : Except EvalError Value → Except EvalError Value
  | .ok _ => .error .missingZoom
  | .error _ => .ok .null

theorem Eval.contrary_ne (answer : Except EvalError Value) : contrary answer ≠ answer := by
  cases answer with
  | ok v => intro same; cases same
  | error e => intro same; cases same

theorem Expr.asks_body {scope : Scope} {path : Path} {type : Ty} {name : String} {value body : Expr}
    {s t : Session} {v : Value} (evaluated : value.eval s = (.ok v, t)) :
    Expr.Asks scope ⟨path, type, .letIn [⟨name, value⟩] body⟩ s ((name, value) :: scope, body)
      (t.withVariables (t.variables.push name v)) := by
  classical
  let within : Session := t.withVariables (t.variables.push name v)
  let answer : Scope × Expr → Eval Value := fun q u =>
    if q = ((name, value) :: scope, body) ∧ u = within then
      (contrary (body.eval within).1, within)
    else q.2.eval u
  refine ⟨answer, ?_, ?_⟩
  · intro q u
    by_cases there : q = ((name, value) :: scope, body) ∧ u = within
    · exact .inl there
    · exact .inr (if_neg there)
  · have apart : ¬ ((scope, value) = ((name, value) :: scope, body) ∧ s = within) := by
      intro same
      have lengths := congrArg (fun q : Scope × Expr => q.1.length) same.1
      simp at lengths
    have first : answer (scope, value) s = (.ok v, t) := (if_neg apart).trans evaluated
    have second : answer ((name, value) :: scope, body) within =
        (contrary (body.eval within).1, within) := if_pos ⟨rfl, rfl⟩
    intro unnoticed
    have results := congrArg Prod.fst unnoticed
    rw [Expr.eval_eq] at results
    simp only [Node.located,locatedBindings,Scope.bindAll,Node.map,List.map_cons,List.map_nil] at results
    rw [letIn_result first,letIn_result evaluated,second] at results
    exact contrary_ne _ results

theorem Expr.eval_keeps (e : Expr) (s : Session) :
    (e.eval s).2.zoom = s.zoom ∧ (e.eval s).2.feature = s.feature ∧
      (e.eval s).2.variables = s.variables := by
  have run := e.eval_matches
    (R := fun x y => x.zoom = s.zoom ∧ x.feature = s.feature ∧ y.zoom = s.zoom ∧ y.feature = s.feature)
    (fun _ _ _ _ related => related)
    (fun _ x y related => related.1.trans related.2.2.1.symm)
    (fun _ name => property_matches name (fun _ _ related => related.2.1.trans related.2.2.2.symm)
      fun _ _ related => related) s s rfl ⟨rfl, rfl, rfl, rfl⟩
  exact ⟨run.related.1, run.related.2.1, run.first⟩

theorem Expr.eval_congr (e : Expr) {s t : Session} (zooms : s.zoom = t.zoom)
    (features : s.feature = t.feature) (paired : s.variables = t.variables) :
    (e.eval s).1 = (e.eval t).1 := by
  have run := e.eval_matches (R := fun x y => x.zoom = y.zoom ∧ x.feature = y.feature)
    (fun _ _ _ _ related => related) (fun _ _ _ related => related.1)
    (fun _ name => property_matches name (fun _ _ related => related.2) fun _ _ related => related)
    s t paired ⟨zooms, features⟩
  exact run.result.symm

end MapStyle
