import MapStyle.Proofs.Reading.Operators
import MapStyle.Proofs.RoundTrip.Alike

namespace MapStyle

open List (Forall₂)

def Value.Twin (v v' : Value) : Prop :=
  v' = v ∨ ∃ x x', v = .num x ∧ v' = .num x' ∧ (x' == x) = true

namespace Value.Twin

theorem beq_left {v v' : Value} (twin : v.Twin v') (w : Value) : (v' == w) = (v == w) := by
  rcases twin with rfl | ⟨x, x', rfl, rfl, same⟩
  · rfl
  · cases w with
    | num y =>
        show (x' == y) = (x == y)
        exact BEq.congr_left same
    | _ => rfl

theorem beq_right {v v' : Value} (twin : v.Twin v') (w : Value) : (w == v') = (w == v) := by
  rcases twin with rfl | ⟨x, x', rfl, rfl, same⟩
  · rfl
  · cases w with
    | num y =>
        show (y == x') = (y == x)
        exact BEq.congr_right same
    | _ => rfl

theorem contains {v v' : Value} {vs vs' : List Value} (twin : v.Twin v')
    (twins : Forall₂ Value.Twin vs vs') : vs'.contains v' = vs.contains v := by
  induction twins with
  | nil => rfl
  | cons first _ ih =>
      rw [List.contains_cons,List.contains_cons,ih,twin.beq_left,first.beq_right]

end Value.Twin

namespace Reading

open Attempt

theorem label_again {j : Json} {type : Ty} (kind : labelType? j = some type) :
    labelType? j.again = some type ∧ (Value.ofJson j).Twin (Value.ofJson j.again) := by
  cases j with
  | num n =>
      obtain ⟨m, written, same, _⟩ := Json.again_num n
      rw [written]
      exact ⟨kind, .inr ⟨_, _, rfl, rfl, same⟩⟩
  | bool b => exact ⟨kind, .inl rfl⟩
  | str s => exact ⟨kind, .inl rfl⟩
  | _ => cases kind

structure LabelState.Like (state state' : LabelState) : Prop where
  type : state'.type? = state.type?
  seen : Forall₂ Value.Twin state.seen state'.seen

variable {ctx : Context}

theorem labels_return {position : Nat} {state state' final : LabelState} {js : List Json}
    {vs : List Value} (like : state.Like state')
    (success : labels ctx position state js = (final, pure vs)) (ctx' : Context)
    (position' : Nat) :
    ∃ final' vs', labels ctx' position' state' (vs.map Value.toJson) = (final', pure vs') ∧
      final.Like final' ∧ Forall₂ Value.Alike vs vs' := by
  induction js generalizing state state' vs with
  | nil =>
      obtain ⟨rfl, ended⟩ := Prod.mk.inj success
      obtain rfl := pure_eq_pure.mp ended
      exact ⟨state', [], rfl, like, .nil⟩
  | cons j rest ih =>
      obtain ⟨type, others, kind, shared, fresh, after, rfl⟩ := labels_cons_eq_pure.mp success
      obtain ⟨kind', twin⟩ := label_again kind
      have next : LabelState.Like ⟨some type, Value.ofJson j :: state.seen⟩
          ⟨some type, Value.ofJson j.again :: state'.seen⟩ := ⟨rfl, .cons twin like.seen⟩
      obtain ⟨final', vs', after', like', alikes⟩ := ih next after
      refine ⟨final', Value.ofJson j.again :: vs', ?_, like', .cons ?_ alikes⟩
      · rw [List.map_cons]
        refine labels_cons_eq_pure.mpr ⟨type, vs', kind', ?_, ?_, after', rfl⟩
        · rw [like.type]
          exact shared
        · rw [← fresh]
          exact twin.contains like.seen
      · exact ⟨Json.ofJson_again j, Json.again_again j, rfl⟩

-- A label that is written bare is read as one label, since no label is written
-- as an array.
theorem armLabels_written {j : Json} {type : Ty} (kind : labelType? j = some type)
    (vs : List Value) (output : Json) (ctx : Context) (position : Nat) (state : LabelState) :
    armLabels ctx position state (Arm.writtenLabels ⟨Value.ofJson j :: vs, output⟩) =
      labels ctx position state ((Value.ofJson j :: vs).map Value.toJson) := by
  cases vs with
  | cons w ws => rfl
  | nil =>
      obtain ⟨kind', _⟩ := label_again kind
      show armLabels ctx position state j.again = labels ctx position state [j.again]
      cases h : j.again with
      | arr items => rw [h] at kind'; cases kind'
      | _ => rfl

theorem armLabels_return {position : Nat} {state state' final : LabelState} {data : Json}
    {vs : List Value} (like : state.Like state')
    (success : armLabels ctx position state data = (final, pure vs)) (output : Json)
    (ctx' : Context) (position' : Nat) :
    ∃ final' vs', armLabels ctx' position' state' (Arm.writtenLabels ⟨vs, output⟩) =
      (final', pure vs') ∧ final.Like final' ∧ Forall₂ Value.Alike vs vs' := by
  obtain ⟨j, js, read⟩ := armLabels_eq_pure success
  obtain ⟨final', vs', read', like', alikes⟩ := labels_return like read ctx' position'
  obtain ⟨type, others, kind, _, _, _, rfl⟩ := labels_cons_eq_pure.mp read
  rw [← armLabels_written kind others output] at read'
  exact ⟨final', vs', read', like', alikes⟩

end Reading

end MapStyle
