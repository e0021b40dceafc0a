import MapStyle.Proofs.Evaluation.Matching
import MapStyle.Proofs.Scope.Basic

namespace MapStyle
open Eval

variable {V : Variables → Variables → Prop} {R : Session → Session → Prop} {E : EvalError → Prop}

theorem Node.plain_matches {ι : Type} (node : Node ι) (plain : node.binds = false)
    {f g : ι → Eval Value} (own : OwnErrors E)
    (zooms : node.asksZoom = true → ∀ s t, R s t → s.zoom = t.zoom)
    (asked : node.asksFeature = true → ∀ name, Matches V R E (property name) (property name))
    (named : ∀ name, node = .var name → Matches V R E (lookup name) (lookup name))
    (each : ∀ c ∈ node.children, Matches V R E (f c) (g c)) :
    Matches V R E (node.map f).run (node.map g).run :=
  matches_composes.plain (f := fun side => bif side then f else g) own node plain
    (fun asks => zoom_matches own (zooms asks)) asked named each

structure Eval.Grows (R : Session → Session → Prop) (E : EvalError → Prop) (s t : Session)
    (x y : Except EvalError Value × Session) : Prop where
  result : y.1 = x.1
  related : R x.2 y.2
  first : ∃ pushed, x.2.variables.entries = pushed ++ s.variables.entries
  second : ∃ pushed, y.2.variables.entries = pushed ++ t.variables.entries
  errors : ∀ e, x.1 = .error e → E e

theorem Eval.bindAll_cons (b : Binding (Eval Value)) (rest : List (Binding (Eval Value)))
    (body : Eval Value) (s : Session) :
    (do bindAll (b :: rest); body : Eval Value) s =
      match b.value s with
      | (.ok v, s') =>
          (do bindAll rest; body : Eval Value)
            (s'.withVariables (s'.variables.push b.name v))
      | (.error e, s') => (.error e, s') := by
  cases now : b.value s with
  | mk result s' => cases result <;> simp [bindAll,now] <;> rfl

def Eval.IgnoresStacks (R : Session → Session → Prop) : Prop :=
  ∀ s t v w, R s t → R (s.withVariables v) (t.withVariables w)

-- When the stacks are related by scope, the value that a binding comes to keeps
-- them related in the scope after it.
def Eval.ExtendsStacks (W : Scope → Variables → Variables → Prop) (R : Session → Session → Prop)
    (f : Scope × Expr → Eval Value) : Prop :=
  ∀ (scope : Scope) (b : Binding Expr) s t v, W scope s.variables t.variables → R s t →
    (f (scope, b.value) s).1 = .ok v →
    W ((b.name, b.value) :: scope) (s.variables.push b.name v) (t.variables.push b.name v)

section Bindings

variable {W : Scope → Variables → Variables → Prop} {f g : Scope × Expr → Eval Value}

theorem Eval.bindAll_grows
    (free : IgnoresStacks R) (pushed : ExtendsStacks W R f)
    (bindings : List (Binding Expr)) (body : Expr) (scope : Scope)
    (values : ∀ b ∈ locatedBindings scope bindings, Matches (W b.value.1) R E (f b.value) (g b.value))
    (last : Matches (W (scope.bindAll bindings)) R E (f (scope.bindAll bindings, body))
      (g (scope.bindAll bindings, body)))
    (s t : Session) (paired : W scope s.variables t.variables) (related : R s t) :
    Grows R E s t
      ((do bindAll ((locatedBindings scope bindings).map fun b => ⟨b.name, f b.value⟩)
           f (scope.bindAll bindings, body) : Eval Value) s)
      ((do bindAll ((locatedBindings scope bindings).map fun b => ⟨b.name, g b.value⟩)
           g (scope.bindAll bindings, body) : Eval Value) t) := by
  induction bindings generalizing scope s t with
  | nil =>
      have done := last s t paired related
      exact ⟨done.result, done.related, ⟨[], by rw [← done.first]; rfl⟩,
        ⟨[], by rw [← done.second]; rfl⟩, done.errors⟩
  | cons b rest ih =>
      have now := values ⟨b.name, (scope, b.value)⟩ (by simp [locatedBindings]) s t paired related
      simp only [locatedBindings,List.map_cons,bindAll_cons]
      cases left : f (scope, b.value) s with
      | mk result s' =>
          cases right : g (scope, b.value) t with
          | mk result' t' =>
              simp only [left,right] at now
              obtain rfl : result' = result := now.result
              have sameFirst : s'.variables = s.variables := now.first
              have sameSecond : t'.variables = t.variables := now.second
              cases result' with
              | error e =>
                  refine ⟨rfl, now.related, ⟨[], ?_⟩, ⟨[], ?_⟩, now.errors⟩
                  · rw [sameFirst]; rfl
                  · rw [sameSecond]; rfl
              | ok v =>
                  have paired' := pushed scope b s t v paired related (by rw [left])
                  rw [← sameFirst,← sameSecond] at paired'
                  have rested := ih ((b.name, b.value) :: scope)
                    (fun b' member => values b' (by simp [locatedBindings,member])) last
                    (s'.withVariables (s'.variables.push b.name v))
                    (t'.withVariables (t'.variables.push b.name v)) paired'
                    (free _ _ _ _ now.related)
                  obtain ⟨more, grown⟩ := rested.first
                  obtain ⟨more', grown'⟩ := rested.second
                  refine ⟨rested.result, rested.related, ⟨more ++ [(b.name, v)], grown.trans ?_⟩,
                    ⟨more' ++ [(b.name, v)], grown'.trans ?_⟩, rested.errors⟩
                  · simp [Variables.push,sameFirst]
                  · simp [Variables.push,sameSecond]

theorem Eval.inScope_matches {a b : Eval Value}
    (free : IgnoresStacks R)
    (grows : ∀ s t, V s.variables t.variables → R s t → Grows R E s t (a s) (b t)) :
    Matches V R E (inScope a) (inScope b) := by
  intro s t paired related
  have inside := grows s t paired related
  obtain ⟨more, grown⟩ := inside.first
  obtain ⟨more', grown'⟩ := inside.second
  refine ⟨inside.result, free _ _ _ _ inside.related, ?_, ?_, inside.errors⟩
  · have shape : (a s).2.variables = ⟨more ++ s.variables.entries⟩ := by rw [← grown]
    simp [inScope,shape]
  · have shape : (b t).2.variables = ⟨more' ++ t.variables.entries⟩ := by rw [← grown']
    simp [inScope,shape]

theorem Node.run_matches (node : Node Expr) (scope : Scope) (own : OwnErrors E)
    (free : IgnoresStacks R)
    (zooms : node.asksZoom = true → ∀ s t, R s t → s.zoom = t.zoom)
    (asked : node.asksFeature = true →
      ∀ name, Matches (W scope) R E (property name) (property name))
    (named : ∀ name, node = .var name → Matches (W scope) R E (lookup name) (lookup name))
    (pushed : ExtendsStacks W R f)
    (each : ∀ p ∈ (node.located scope).children, Matches (W p.1) R E (f p) (g p)) :
    Matches (W scope) R E ((node.located scope).map f).run ((node.located scope).map g).run := by
  by_cases binding : node.binds = true
  · cases node with
    | letIn bindings body =>
        refine inScope_matches free (bindAll_grows free pushed bindings body scope ?_ ?_)
        · intro b member
          exact each b.value (by simp only [Node.located,Node.children]; grind)
        · exact each (scope.bindAll bindings, body) (by simp [Node.located,Node.children])
    | _ => cases binding
  · have plain : node.binds = false := by simpa using binding
    rw [Node.located_eq_map scope node plain] at each ⊢
    rw [Node.map_map,Node.map_map]
    refine Node.plain_matches node plain own zooms asked named ?_
    intro c member
    exact each (scope, c) (by rw [Node.children_map]; exact List.mem_map_of_mem member)

end Bindings

end MapStyle
