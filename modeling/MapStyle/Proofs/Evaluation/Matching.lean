import MapStyle.Proofs.Evaluation.Composition

namespace MapStyle.Eval

-- One evaluation in two surroundings. The stacks are related by `V` before and
-- are both left as they were; `R` relates the rest of the sessions before and
-- after. Besides, every error that comes up is one of `E`.
variable {V : Variables → Variables → Prop} {R : Session → Session → Prop} {E : EvalError → Prop}
  {α β : Type}

structure Agrees (R : Session → Session → Prop) (E : EvalError → Prop) (s t : Session)
    (x y : Except EvalError α × Session) : Prop where
  result : y.1 = x.1
  related : R x.2 y.2
  first : x.2.variables = s.variables
  second : y.2.variables = t.variables
  errors : ∀ e, x.1 = .error e → E e

def Matches (V : Variables → Variables → Prop) (R : Session → Session → Prop)
    (E : EvalError → Prop) (a b : Eval α) : Prop :=
  ∀ s t, V s.variables t.variables → R s t → Agrees R E s t (a s) (b t)

theorem agrees_after {x y : Except EvalError α × Session} {x' y' : Except EvalError β × Session}
    (before : Agrees R E s t x y) (after : Agrees R E x.2 y.2 x' y') : Agrees R E s t x' y' :=
  ⟨after.result, after.related, after.first.trans before.first, after.second.trans before.second,
    after.errors⟩

theorem matches_composes :
    Composes E fun α (a : Bool → Eval α) => Matches V R E (a true) (a false) where
  value x := by
    intro s t _ related
    exact ⟨rfl, related, rfl, rfl, fun e failed => by cases failed⟩
  failure e own := by
    intro s t _ related
    refine ⟨rfl, related, rfl, rfl, ?_⟩
    intro e' failed
    cases failed
    exact own
  onward := by
    intro α β A F head tail s t paired related
    have now := head s t paired related
    have next := tail (A true s).1 now.errors (A true s).2 (A false t).2
      (by rw [now.first,now.second]; exact paired) now.related
    show Agrees R E s t (F (A true s).1 true (A true s).2) (F (A false t).1 false (A false t).2)
    rw [now.result]
    exact agrees_after now next

theorem zoom_matches (own : OwnErrors E) (same : ∀ s t, R s t → s.zoom = t.zoom) :
    Matches V R E zoom zoom := by
  intro s t _ related
  unfold zoom
  rw [← same s t related]
  cases s.zoom with
  | none =>
      refine ⟨rfl, related, rfl, rfl, ?_⟩
      intro e failed
      cases failed
      exact own _ (by intro name same; cases same)
  | some z => exact ⟨rfl, related, rfl, rfl, fun e failed => by cases failed⟩

theorem property_none {s : Session} (absent : s.feature = none) (name : String) :
    property name s = (.ok .none, s) := by
  simp only [property,absent]

theorem property_some {s : Session} {feature : Feature} (known : s.feature = some feature)
    (name : String) :
    property name s = (.ok (feature name), { s with reads := s.reads ++ [name] }) := by
  simp only [property,known]

theorem property_matches (name : String) (same : ∀ s t, R s t → s.feature = t.feature)
    (noted : ∀ s t, R s t →
      R { s with reads := s.reads ++ [name] } { t with reads := t.reads ++ [name] }) :
    Matches V R E (property name) (property name) := by
  intro s t _ related
  have other := same s t related
  cases found : s.feature with
  | none =>
      rw [found] at other
      rw [property_none found,property_none other.symm]
      exact ⟨rfl, related, rfl, rfl, fun e failed => by cases failed⟩
  | some feature =>
      rw [found] at other
      rw [property_some found,property_some other.symm]
      exact ⟨rfl, noted s t related, rfl, rfl, fun e failed => by cases failed⟩

theorem lookup_matches (name : String) (same : ∀ v w, V v w → v.get? name = w.get? name)
    (own : ∀ v w, V v w → v.get? name = none → E (.unboundVariable name)) :
    Matches V R E (lookup name) (lookup name) := by
  intro s t paired related
  unfold lookup
  rw [← same _ _ paired]
  cases found : s.variables.get? name with
  | some v => exact ⟨rfl, related, rfl, rfl, fun e failed => by cases failed⟩
  | none =>
      refine ⟨rfl, related, rfl, rfl, ?_⟩
      intro e failed
      cases failed
      exact own _ _ paired found

end MapStyle.Eval
