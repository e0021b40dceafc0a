import MapStyle.Proofs.Evaluation.Visits
import MapStyle.Reading.Expression

-- What an evaluation depends on and what it leaves behind. It depends on the zoom and the
-- feature only where the expression asks for them, and on no more of a feature than the
-- properties that it asked for. All that it leaves behind are their names.

namespace MapStyle
open Eval

def Session.given (s : Session) (feature : Feature) : Session :=
  { s with feature := some feature }

namespace Eval

variable {α : Type}

-- The evaluation notes what it asks of the feature, and goes the same way for another
-- feature with the same answers.
def Noted (a : Eval α) : Prop :=
  ∀ s, ∃ asked, (a s).2.reads = s.reads ++ asked ∧ (a s).2.feature = s.feature ∧
    ∀ f g, s.feature = some f → (∀ name ∈ asked, f name = g name) →
      a (s.given g) = ((a s).1, (a s).2.given g)

theorem noted_of_blind {a : Eval α} (kept : ∀ s, (a s).2 = s)
    (blind : ∀ s g, (a (s.given g)).1 = (a s).1) : Noted a := by
  intro s
  refine ⟨[], ?_, ?_, ?_⟩
  · rw [kept,List.append_nil]
  · rw [kept]
  · intro f g _ _
    refine Prod.ext (blind s g) ?_
    rw [kept,kept]

theorem zoom_noted : Noted zoom := by
  refine noted_of_blind ?_ ?_
  · intro s
    unfold zoom
    split <;> rfl
  · intro s g
    have same : (s.given g).zoom = s.zoom := rfl
    unfold zoom
    rw [same]
    cases s.zoom <;> rfl

theorem lookup_noted (name : String) : Noted (lookup name) := by
  refine noted_of_blind ?_ ?_
  · intro s
    unfold lookup
    split <;> rfl
  · intro s g
    have same : (s.given g).variables = s.variables := rfl
    unfold lookup
    rw [same]
    cases s.variables.get? name <;> rfl

theorem property_noted (name : String) : Noted (property name) := by
  intro s
  cases known : s.feature with
  | none =>
      rw [property_none known]
      refine ⟨[], (List.append_nil _).symm, known, ?_⟩
      intro f g found
      cases found
  | some feature =>
      rw [property_some known]
      refine ⟨[name], rfl, known, ?_⟩
      intro f g found alike
      obtain rfl := Option.some.inj found
      rw [property_some (rfl : (s.given g).feature = some g),alike name List.mem_cons_self]
      rfl

theorem settle_noted {β : Type} {a : Eval α} {next : Except EvalError α → Eval β} (head : Noted a)
    (tail : ∀ r, Noted (next r)) : Noted (settle a next) := by
  intro s
  obtain ⟨asked, reads, kept, same⟩ := head s
  obtain ⟨asked', reads', kept', same'⟩ := tail (a s).1 (a s).2
  refine ⟨asked ++ asked', ?_, kept'.trans kept, ?_⟩
  · rw [settle,reads',reads,List.append_assoc]
  · intro f g known alike
    have first := same f g known fun name member => alike name (List.mem_append_left _ member)
    have second := same' f g (kept.trans known) fun name member =>
      alike name (List.mem_append_right _ member)
    rw [settle,settle,first]
    exact second

theorem inScope_noted {a : Eval Value} (inside : Noted a) : Noted (inScope a) := by
  intro s
  obtain ⟨asked, reads, kept, same⟩ := inside s
  refine ⟨asked, reads, kept, ?_⟩
  intro f g known alike
  unfold inScope
  rw [same f g known alike]
  rfl

theorem noted_composes : ComposesScopes fun α (a : Unit → Eval α) => Noted (a ()) where
  value _ := noted_of_blind (fun _ => rfl) fun _ _ => rfl
  failure _ _ := noted_of_blind (fun _ => rfl) fun _ _ => rfl
  onward head tail := settle_noted head fun r => tail r fun _ _ => trivial
  zoom := zoom_noted
  asked := property_noted
  named := lookup_noted
  pushed name v := by
    intro s
    exact ⟨[], (List.append_nil _).symm, rfl, fun _ _ _ _ => rfl⟩
  enclosed := inScope_noted

end Eval

theorem Expr.eval_noted (e : Expr) : Noted e.eval :=
  noted_composes.eval e

theorem Expr.eval_frame (e : Expr) (s : Session) :
    ∃ asked, (e.eval s).2 = { s with reads := s.reads ++ asked } := by
  obtain ⟨zooms, features, stack⟩ := e.eval_keeps s
  obtain ⟨asked, reads, _⟩ := e.eval_noted s
  refine ⟨asked, ?_⟩
  rw [← zooms,← features,← stack,← reads]

theorem Expr.reads_suffice (e : Expr) (zoom : Option Float) (vars : Variables) (f g : Feature)
    (alike : ∀ name ∈ (e.observe ((Session.start zoom (some f)).withVariables vars)).2,
      f name = g name) :
    e.observe ((Session.start zoom (some g)).withVariables vars) =
      e.observe ((Session.start zoom (some f)).withVariables vars) := by
  let s := (Session.start zoom (some f)).withVariables vars
  obtain ⟨asked, reads, _, same⟩ := e.eval_noted s
  have run : e.eval (s.given g) = ((e.eval s).1, (e.eval s).2.given g) := by
    refine same f g rfl fun name member => alike name ?_
    show name ∈ (e.eval s).2.reads
    rw [reads]
    exact List.mem_append_right _ member
  show ((e.eval (s.given g)).1, (e.eval (s.given g)).2.reads) = _
  rw [run]
  rfl

theorem reads_suffice_chosen :
    ∃ e, Expr.parse (.arr [.str "coalesce", .arr [.str "get", .arr [.str "string",
        .arr [.str "get", .str "key"]]], .arr [.str "get", .str "other"]]) ⟨none, none⟩ = .ok e ∧
      let f := Feature.ofMembers [("key", .str "name"), ("name", .str "a")]
      let g := Feature.ofMembers [("key", .str "name"), ("name", .str "a"), ("other", .str "b")]
      e.observe (Session.start none (some f)) = (.ok (.str "a"), ["key", "name"]) ∧
        f "key" = g "key" ∧ f "name" = g "name" ∧ (f "other").isSome ≠ (g "other").isSome ∧
        e.observe (Session.start none (some g)) = (.ok (.str "a"), ["key", "name"]) := by
  refine ⟨_, rfl, ?_⟩
  intro f g
  refine ⟨rfl, rfl, rfl, by decide, ?_⟩
  refine (Expr.reads_suffice _ none .empty f g ?_).trans rfl
  intro name member
  rcases List.mem_cons.mp member with rfl | member
  · rfl
  · obtain rfl := List.mem_singleton.mp member
    rfl

theorem compile_asks (e : Expr) :
    (e.compile.zoomConstant = true → e.compile.expr.asksZoom = false) ∧
      (e.compile.featureConstant = true → e.compile.expr.asksFeature = false) := by
  obtain same | ⟨v, folded⟩ := e.compile_expr
  · rw [same]
    have zoomConstant : e.compile.zoomConstant = !e.asksZoom := rfl
    have featureConstant : e.compile.featureConstant = !e.asksFeature := rfl
    rw [zoomConstant,featureConstant,Bool.not_eq_true',Bool.not_eq_true']
    exact ⟨id, id⟩
  · constructor
    · intro _
      rw [Expr.asksZoom,Expr.nodes_eq,folded]
      simp [folded,Node.children,Node.asksZoom]
    · intro _
      rw [Expr.asksFeature,Expr.nodes_eq,folded]
      simp [folded,Node.children,Node.asksFeature]

theorem Expr.flags_sound (e : Expr) :
    (e.asksZoom = false → ∀ (s : Session) (zoom : Option Float),
      e.observe { s with zoom := zoom } = e.observe s) ∧
    (e.asksFeature = false → ∀ (s : Session) (feature : Option Feature),
      e.observe { s with feature := feature } = e.observe s ∧ (e.eval s).2.reads = s.reads) ∧
    (e.compile.zoomConstant = true → ∀ zoom zoom' feature,
      e.compile.evaluate zoom feature = e.compile.evaluate zoom' feature) ∧
    (e.compile.featureConstant = true → ∀ zoom feature feature',
      e.compile.evaluate zoom feature = e.compile.evaluate zoom feature' ∧
        (e.compile.evaluate zoom feature).2 = []) := by
  obtain ⟨zoomless, featureless⟩ := compile_asks e
  refine ⟨observe_zoomless, observe_featureless, ?_, ?_⟩
  · intro flag zoom zoom' feature
    exact observe_zoomless (zoomless flag) (Session.start zoom' feature) zoom
  · intro flag zoom feature feature'
    constructor
    · exact (observe_featureless (featureless flag) (Session.start zoom feature') feature).1
    · exact (observe_featureless (featureless flag) (Session.start zoom feature) feature).2

theorem flags_sound_each :
    (∃ e, Expr.parse (.arr [.str "let", .str "key", .str "name",
        .arr [.str "get", .arr [.str "var", .str "key"]]]) ⟨none, none⟩ = .ok e ∧
      e.asksZoom = false ∧ e.compile.zoomConstant = true ∧
      let f := Feature.ofMembers [("name", .str "a")]
      e.observe (Session.start (some 1) (some f)) = e.observe (Session.start none (some f)) ∧
        e.compile.evaluate (some 1) (some f) = e.compile.evaluate none (some f)) ∧
    ∃ e, Expr.parse (.arr [.str "case", .arr [.str "has", .str "name",
        .arr [.str "literal", .obj [("name", .null)]]], .arr [.str "zoom"],
        .arr [.str "error", .str "no name"]]) ⟨none, none⟩ = .ok e ∧
      e.asksFeature = false ∧ e.compile.featureConstant = true ∧
      let f := Feature.ofMembers [("name", .str "a")]
      e.observe (Session.start (some 1) (some f)) = e.observe (Session.start (some 1) none) ∧
        e.compile.evaluate (some 1) (some f) = e.compile.evaluate (some 1) none ∧
        (e.compile.evaluate (some 1) (some f)).2 = [] := by
  constructor
  · refine ⟨_, rfl, rfl, rfl, ?_⟩
    intro f
    obtain ⟨zoomless, _, folded, _⟩ := Expr.flags_sound _
    exact ⟨zoomless rfl (Session.start none (some f)) (some 1), folded rfl (some 1) none (some f)⟩
  · refine ⟨_, rfl, rfl, rfl, ?_⟩
    intro f
    obtain ⟨_, featureless, _, folded⟩ := Expr.flags_sound _
    exact ⟨(featureless rfl (Session.start (some 1) none) (some f)).1, folded rfl (some 1) (some f) none⟩

end MapStyle
