import MapStyle.Proofs.Evaluation.Visits

namespace MapStyle

namespace Eval

variable {ι α β : Type}

def SaveFor (p : ι) (t : Session) (h f : ι → Eval Value) : Prop :=
  ∀ q u, q = p ∧ u = t ∨ h q u = f q u

def KeepsZoom (z : Option Float) (f : ι → Eval Value) : Prop :=
  ∀ q u, u.zoom = z → (f q u).2.zoom = z

theorem keepsZoom_of_saveFor {p : ι} {t : Session} {h f : ι → Eval Value} {z : Option Float}
    (save : SaveFor p t h f) (keeps : KeepsZoom z f) (other : z ≠ t.zoom) : KeepsZoom z h := by
  intro q u here
  rcases save q u with ⟨_, same⟩ | same
  · rw [same] at here
    exact absurd here.symm other
  · rw [same]
    exact keeps q u here

-- An evaluation that asks for one answer after the other and hands on the session
-- that comes with each. Where two ways of answering lead to different ends, it asks for
-- an answer in which they differ before anything else differs, and another zoom that
-- comes with this answer is there at the end.
structure Sequential (G : (ι → Eval Value) → Eval α) : Prop where
  keeps : ∀ f s, KeepsZoom s.zoom f → (G f s).2.zoom = s.zoom
  first : ∀ f g s, (∀ z, KeepsZoom z f) → G g s ≠ G f s →
    ∃ p t, g p t ≠ f p t ∧ t.zoom = s.zoom ∧
      ∀ h, SaveFor p t h f → (h p t).2.zoom ≠ s.zoom → (G h s).2.zoom ≠ s.zoom

theorem ask_sequential (p : ι) : Sequential fun f => f p := by
  constructor
  · intro f s keeps
    exact keeps p s rfl
  · intro f g s _ different
    exact ⟨p, s, different, rfl, fun _ _ marked => marked⟩

theorem alone_sequential {a : Eval α} (kept : ∀ s, (a s).2.zoom = s.zoom) :
    Sequential fun _ : ι → Eval Value => a := by
  constructor
  · intro f s _
    exact kept s
  · intro f g s _ different
    exact absurd rfl different

theorem settle_sequential {A : (ι → Eval Value) → Eval α}
    {F : Except EvalError α → (ι → Eval Value) → Eval β} (head : Sequential A)
    (tail : ∀ r, Sequential (F r)) : Sequential fun f => settle (A f) fun r => F r f := by
  constructor
  · intro f s keeps
    have now := head.keeps f s keeps
    unfold settle
    rw [(tail _).keeps f (A f s).2 (by rw [now]; exact keeps),now]
  · intro f g s keeps different
    -- A zoom that is marked while the first evaluation goes on stays marked.
    have stays : ∀ p t h, SaveFor p t h f → t.zoom = s.zoom → (A h s).2.zoom ≠ s.zoom →
        (settle (A h) (fun r => F r h) s).2.zoom ≠ s.zoom := by
      intro p t h save there marked
      have others : KeepsZoom (A h s).2.zoom h := by
        apply keepsZoom_of_saveFor save (keeps _)
        rw [there]
        exact marked
      unfold settle
      rw [(tail _).keeps h (A h s).2 others]
      exact marked
    by_cases same : A g s = A f s
    · have now := head.keeps f s (keeps _)
      have after : F (A f s).1 g (A f s).2 ≠ F (A f s).1 f (A f s).2 := by
        intro equal
        apply different
        unfold settle
        rw [same]
        exact equal
      obtain ⟨p, t, unlike, there, noticed⟩ := (tail _).first f g (A f s).2 keeps after
      rw [now] at there noticed
      refine ⟨p, t, unlike, there, ?_⟩
      intro h save marked
      by_cases before : A h s = A f s
      · unfold settle
        rw [before]
        exact noticed h save marked
      · obtain ⟨p', t', unlike', _, noticed'⟩ := head.first f h s keeps before
        rcases save p' t' with ⟨rfl, rfl⟩ | same'
        · exact stays p' t' h save there (noticed' h save marked)
        · exact absurd same' unlike'
    · obtain ⟨p, t, unlike, there, noticed⟩ := head.first f g s keeps same
      refine ⟨p, t, unlike, there, ?_⟩
      intro h save marked
      exact stays p t h save there (noticed h save marked)

theorem inScope_sequential {G : (ι → Eval Value) → Eval α} (inside : Sequential G) :
    Sequential fun f => inScope (G f) := by
  constructor
  · intro f s keeps
    exact inside.keeps f s keeps
  · intro f g s keeps different
    refine inside.first f g s keeps ?_
    intro same
    apply different
    simp only [inScope,same]

theorem sequential_composes :
    ComposesScopes fun α (G : (ι → Eval Value) → Eval α) => Sequential G where
  value _ := alone_sequential fun _ => rfl
  failure _ _ := alone_sequential fun _ => rfl
  onward head tail := settle_sequential head fun r => tail r fun _ _ => trivial
  zoom := by
    apply alone_sequential
    intro s
    unfold zoom
    split <;> rfl
  asked name := by
    apply alone_sequential
    intro s
    unfold property
    split <;> rfl
  named name := by
    apply alone_sequential
    intro s
    unfold lookup
    split <;> rfl
  pushed _ _ := alone_sequential fun _ => rfl
  enclosed := inScope_sequential

end Eval

open Eval

theorem Node.run_sequential {ι : Type} (node : Node ι) :
    Sequential fun f => (node.map f).run :=
  sequential_composes.run node fun c _ => ask_sequential c

theorem Expr.evals_keepZoom (z : Option Float) : KeepsZoom z fun p : Scope × Expr => p.2.eval := by
  intro p u here
  rw [(p.2.eval_keeps u).1]
  exact here

-- What is asked for is all that an evaluation depends on, so no sub-expression is
-- evaluated that is not asked for.
theorem Expr.asks_enough {scope : Scope} {e : Expr} {s : Session} {f : Scope × Expr → Eval Value}
    (same : ∀ p t, e.Asks scope s p t → f p t = p.2.eval t) :
    ((e.node.located scope).map f).run s = e.eval s := by
  classical
  have whole : ((e.node.located scope).map fun p => p.2.eval).run s = e.eval s := by
    rw [Node.located_map,← Expr.eval_eq]
  refine Classical.byContradiction fun different => ?_
  rw [← whole] at different
  obtain ⟨p, t, unlike, _, noticed⟩ :=
    (Node.run_sequential (e.node.located scope)).first _ f s evals_keepZoom different
  obtain ⟨z, other⟩ : ∃ z, z ≠ s.zoom := by
    cases s.zoom with
    | none => exact ⟨some 0, by simp⟩
    | some x => exact ⟨none, by simp⟩
  let marked : Scope × Expr → Eval Value := fun q u =>
    if q = p ∧ u = t then (.ok .null, { t with zoom := z }) else q.2.eval u
  have save : SaveFor p t marked fun p => p.2.eval := by
    intro q u
    by_cases there : q = p ∧ u = t
    · exact .inl there
    · exact .inr (if_neg there)
  have mark : marked p t = (.ok .null, { t with zoom := z }) := if_pos ⟨rfl, rfl⟩
  apply unlike
  refine same p t ⟨marked, save, ?_⟩
  intro unnoticed
  apply noticed marked save
  · rw [mark]
    exact other
  · rw [unnoticed]
    exact (e.eval_keeps s).1

end MapStyle
