import MapStyle.Proofs.RoundTrip.Data
import MapStyle.Proofs.Reading.Composition

-- An attempt is without a value exactly where it has reported something. No reader
-- gives up in silence, and none keeps a value of which a part has failed.

namespace MapStyle

def Attempt.Honest {α : Type} (a : Attempt α) : Prop :=
  a.value? = none ↔ a.errors ≠ []

namespace Attempt.Honest

variable {α β : Type}

theorem of_value {x : α} : Honest (pure x) := by
  constructor
  · exact nofun
  · intro reported
    exact absurd rfl reported

theorem silent {a : Attempt α} {x : α} (honest : a.Honest) (found : a.value? = some x) :
    a = pure x := by
  obtain ⟨value?, errors⟩ := a
  subst found
  cases errors with
  | nil => rfl
  | cons first rest => cases honest.mpr (List.cons_ne_nil first rest)

theorem andThen {a : Attempt α} {next : α → Attempt β} (honest : a.Honest)
    (after : ∀ x, a.value? = some x → (next x).Honest) : (a.andThen next).Honest := by
  cases found : a.value? with
  | none =>
      have stops : a.andThen next = ⟨none, a.errors⟩ := by simp only [Attempt.andThen,found]
      rw [stops]
      exact iff_of_true rfl (honest.mp found)
  | some x =>
      have goes : a.andThen next = next x := by
        rw [honest.silent found]
        rfl
      rw [goes]
      exact after x found

theorem both {a : Attempt α} {b : Attempt β} (honest : a.Honest) (honest' : b.Honest) :
    (a.both b).Honest := by
  cases found : a.value? with
  | none =>
      have reported := honest.mp found
      apply iff_of_true
      · simp only [Attempt.both,found,Option.bind_none]
      · exact List.append_ne_nil_of_left_ne_nil reported _
  | some x =>
      rw [honest.silent found]
      cases found' : b.value? with
      | none =>
          have reported := honest'.mp found'
          apply iff_of_true
          · simp only [Attempt.both,found',Option.map_none,Option.bind_fun_none]
          · exact List.append_ne_nil_of_right_ne_nil _ reported
      | some y =>
          rw [honest'.silent found']
          exact of_value

theorem composes : Attempt.Composes fun _ a => a.Honest :=
  ⟨fun _ => of_value, andThen, both⟩

theorem failure {e : ParseError} : Honest (⟨none, [e]⟩ : Attempt α) :=
  iff_of_true rfl (List.cons_ne_nil _ _)

end Attempt.Honest

open Attempt

-- The induction is on the data: operands are smaller, and each is honest wherever it
-- is read.
theorem Expr.read_honest (data : Json) : ∀ ctx, (Expr.read data ctx).Honest := by
  induction data using Json.induction with
  | arr items ih =>
      intro ctx
      refine Expr.read_composes Honest.composes (fun _ => Honest.failure) fun position part place => ?_
      exact ⟨fun _ _ => Honest.failure, fun here _ => ih part (List.mem_of_getElem? place) here⟩
  | _ =>
      intro ctx
      exact Expr.read_composes Honest.composes (fun _ => Honest.failure) (fun _ _ place => nomatch place)

end MapStyle
