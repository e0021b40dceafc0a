import MapStyle.Evaluation.Compiled
import MapStyle.Proofs.Evaluation.Node

namespace MapStyle
open Eval

theorem Expr.asksZoom_child {c e : Expr} (member : c ∈ e.node.children)
    (asks : c.asksZoom = true) : e.asksZoom = true := by
  unfold asksZoom at asks ⊢
  obtain ⟨n, inside, found⟩ := List.any_eq_true.mp asks
  refine List.any_eq_true.mpr ⟨n, ?_, found⟩
  rw [nodes_eq]
  exact List.mem_cons_of_mem _ (List.mem_flatMap.mpr ⟨c, member, inside⟩)

theorem Expr.asksFeature_child {c e : Expr} (member : c ∈ e.node.children)
    (asks : c.asksFeature = true) : e.asksFeature = true := by
  unfold asksFeature at asks ⊢
  obtain ⟨n, inside, found⟩ := List.any_eq_true.mp asks
  refine List.any_eq_true.mpr ⟨n, ?_, found⟩
  rw [nodes_eq]
  exact List.mem_cons_of_mem _ (List.mem_flatMap.mpr ⟨c, member, inside⟩)

theorem Expr.asksZoom_node {e : Expr} (asks : e.node.asksZoom = true) : e.asksZoom = true := by
  unfold asksZoom
  rw [nodes_eq,List.any_cons,asks,Bool.true_or]

theorem Expr.asksFeature_node {e : Expr} (asks : e.node.asksFeature = true) :
    e.asksFeature = true := by
  unfold asksFeature
  rw [nodes_eq,List.any_cons,asks,Bool.true_or]

-- With the same variables, two surroundings differ only in what they answer. If
-- an expression asks for nothing that they answer differently, it goes through
-- them alike.
theorem Expr.eval_matches {R : Session → Session → Prop} (free : IgnoresStacks R) (e : Expr)
    (zooms : e.asksZoom = true → ∀ s t, R s t → s.zoom = t.zoom)
    (asked : e.asksFeature = true →
      ∀ name, Matches Eq R (fun _ => True) (property name) (property name)) :
    Matches Eq R (fun _ => True) e.eval e.eval := by
  induction e using Expr.induct with
  | step e ih =>
      have run := Node.run_matches (W := fun _ => Eq) (R := R) (E := fun _ => True)
        (f := fun p => p.2.eval) (g := fun p => p.2.eval) e.node [] (fun _ _ => trivial) free
        (fun asks => zooms (asksZoom_node asks)) (fun asks => asked (asksFeature_node asks))
        (fun name _ => lookup_matches name (by intro v w same; rw [same]) fun _ _ _ _ => trivial)
        (by intro scope b s t v paired _ _; rw [paired])
        (by
          intro p member
          have child := Node.mem_located_children member
          exact ih p.2 child (fun asks => zooms (asksZoom_child child asks))
            fun asks => asked (asksFeature_child child asks))
      rw [Node.located_map,← eval_eq] at run
      exact run

def Expr.observe (e : Expr) (s : Session) : Except EvalError Value × List String :=
  ((e.eval s).1, (e.eval s).2.reads)

theorem Expr.observe_zoomless {e : Expr} (zoomless : e.asksZoom = false) (s : Session)
    (zoom : Option Float) : e.observe { s with zoom := zoom } = e.observe s := by
  have run := e.eval_matches (R := fun x y => x.feature = y.feature ∧ x.reads = y.reads)
    (fun _ _ _ _ related => related)
    (fun asks => by rw [zoomless] at asks; cases asks)
    (fun _ name => property_matches name (fun _ _ related => related.1)
      fun _ _ related => ⟨related.1, by rw [related.2]⟩)
    s { s with zoom := zoom } rfl ⟨rfl, rfl⟩
  exact Prod.ext run.result run.related.2.symm

theorem Expr.observe_featureless {e : Expr} (featureless : e.asksFeature = false) (s : Session)
    (feature : Option Feature) :
    e.observe { s with feature := feature } = e.observe s ∧ (e.eval s).2.reads = s.reads := by
  have run := e.eval_matches
    (R := fun x y => x.zoom = y.zoom ∧ x.reads = s.reads ∧ y.reads = s.reads)
    (fun _ _ _ _ related => related) (fun _ _ _ related => related.1)
    (fun asks => by rw [featureless] at asks; cases asks)
    s { s with feature := feature } rfl ⟨rfl, rfl, rfl⟩
  obtain ⟨_, first, second⟩ := run.related
  exact ⟨Prod.ext run.result (second.trans first.symm), first⟩

theorem Expr.eval_constant (e : Expr) (zoomless : e.asksZoom = false)
    (featureless : e.asksFeature = false) (zoom zoom' : Option Float)
    (feature feature' : Option Feature) :
    (e.eval (Session.start zoom feature)).1 = (e.eval (Session.start zoom' feature')).1 ∧
      (e.eval (Session.start zoom feature)).2.reads = [] := by
  obtain ⟨same, unasked⟩ := observe_featureless featureless (Session.start zoom feature) feature'
  have anywhere := observe_zoomless zoomless (Session.start zoom feature') zoom'
  exact ⟨(congrArg Prod.fst (anywhere.trans same)).symm, unasked⟩

theorem Expr.compile_expr (e : Expr) :
    e.compile.expr = e ∨ ∃ v, e.compile.expr.node = .literal v := by
  unfold compile
  dsimp only
  split
  · split
    · exact .inr ⟨_, rfl⟩
    · exact .inl rfl
  · exact .inl rfl

theorem compile_evaluate (e : Expr) (zoom : Option Float) (feature : Option Feature) :
    e.compile.evaluate zoom feature =
      ((e.eval (Session.start zoom feature)).1, (e.eval (Session.start zoom feature)).2.reads) := by
  unfold Compiled.evaluate Expr.compile
  by_cases constant : (!e.asksZoom && !e.asksFeature) = true
  · have flags : e.asksZoom = false ∧ e.asksFeature = false := by
      simpa [Bool.and_eq_true] using constant
    cases alone : (e.eval (Session.start none none)).1 with
    | error _ => simp only [constant,if_true]
    | ok v =>
        obtain ⟨result, reads⟩ := e.eval_constant flags.1 flags.2 zoom none feature none
        simp only [constant,if_true]
        rw [Expr.eval_eq ⟨_, _, .literal v⟩,result,reads,alone]
        rfl
  · simp only [constant]
    rfl

end MapStyle
