import Mathlib
import MapStyle.Json

namespace MapStyle.Double

open Float.Model Float.Model.UnpackedFloat

-- A double as sign, digits and exponent. Its comparisons, its size and its
-- conversions all go by these.
def parts (x : Float) : UnpackedFloat :=
  x.toModel.unpack

theorem beq_iff (x y : Float) :
    (x == y) = true ↔ (parts x).compare (parts y) = some .eq := by
  show ((parts x).compare (parts y) == some .eq) = true ↔ _
  exact beq_iff_eq

theorem lt_iff (x y : Float) : x < y ↔ (parts x).compare (parts y) = some .lt := by
  show decide (((parts x).compare (parts y) == some .lt) = true) = true ↔ _
  rw [decide_eq_true_iff]
  exact beq_iff_eq

theorem le_iff (x y : Float) :
    x ≤ y ↔ ((parts x).compare (parts y)).any (·.isLE) = true := by
  show decide (((parts x).compare (parts y)).any (·.isLE) = true) = true ↔ _
  exact decide_eq_true_iff

theorem isFinite_eq (x : Float) : x.isFinite = (parts x).isFinite := rfl

theorem isNaN_eq (x : Float) : x.isNaN = (parts x).isNaN := rfl

theorem compare_eq_cases {p q : UnpackedFloat} (same : p.compare q = some .eq) :
    p = q ∨ ∃ s t, p = .zero s ∧ q = .zero t := by
  have equal : p.beq q = true := beq_iff_eq.mpr same
  obtain ⟨_, _, one | ⟨left, right⟩ | ⟨left, right⟩⟩ := (beq_iff_ne_notANumber_and_eq p q).mp equal
  · exact .inl one
  · exact .inr ⟨_, _, left, right⟩
  · exact .inr ⟨_, _, left, right⟩

theorem compare_self {p : UnpackedFloat} (number : p.isNaN = false) : p.compare p = some .eq := by
  have known : p ≠ .notANumber := by
    intro same
    subst same
    cases number
  exact beq_iff_eq.mp ((beq_iff_ne_notANumber_and_eq p p).mpr ⟨known, known, .inl rfl⟩)

theorem compare_zero_left (s t : Sign) (q : UnpackedFloat) :
    (UnpackedFloat.zero s).compare q = (UnpackedFloat.zero t).compare q := by
  cases q with
  | infinity u => cases u <;> rfl
  | finite u m e positive => cases u <;> rfl
  | _ => rfl

theorem compare_zero_right (s t : Sign) (p : UnpackedFloat) :
    p.compare (.zero s) = p.compare (.zero t) := by
  cases p with
  | infinity u => cases u <;> rfl
  | finite u m e positive => cases u <;> rfl
  | _ => rfl

theorem isNaN_of_beq {x y : Float} (same : (x == y) = true) : x.isNaN = false := by
  rw [Float.isNaN_eq_decide_eq_nan,decide_eq_false_iff_not]
  exact (Float.beq_iff_ne_nan_and_eq.mp same).1

theorem beq_self {x : Float} (number : x.isNaN = false) : (x == x) = true := by
  rw [Float.isNaN_eq_decide_eq_nan,decide_eq_false_iff_not] at number
  exact Float.beq_self_iff.mpr number

theorem isNaN_of_isFinite {x : Float} (finite : x.isFinite = true) : x.isNaN = false := by
  rw [isFinite_eq] at finite
  rw [isNaN_eq]
  cases h : parts x with
  | notANumber => rw [h] at finite; cases finite
  | _ => rfl

theorem compare_left {x y : Float} (same : (x == y) = true) (q : UnpackedFloat) :
    (parts x).compare q = (parts y).compare q := by
  rcases compare_eq_cases ((beq_iff x y).mp same) with one | ⟨s, t, left, right⟩
  · rw [one]
  · rw [left,right,compare_zero_left]

theorem compare_right {x y : Float} (same : (x == y) = true) (p : UnpackedFloat) :
    p.compare (parts x) = p.compare (parts y) := by
  rcases compare_eq_cases ((beq_iff x y).mp same) with one | ⟨s, t, left, right⟩
  · rw [one]
  · rw [left,right,compare_zero_right]

theorem le_congr {x x' y y' : Float} (left : (x == x') = true) (right : (y == y') = true) :
    x ≤ y ↔ x' ≤ y' := by
  rw [le_iff,le_iff,compare_left left,compare_right right]

theorem lt_congr {x x' y y' : Float} (left : (x == x') = true) (right : (y == y') = true) :
    x < y ↔ x' < y' := by
  rw [lt_iff,lt_iff,compare_left left,compare_right right]

theorem isFinite_congr {x y : Float} (same : (x == y) = true) : x.isFinite = y.isFinite := by
  rw [isFinite_eq,isFinite_eq]
  rcases compare_eq_cases ((beq_iff x y).mp same) with one | ⟨s, t, left, right⟩
  · rw [one]
  · rw [left,right]
    rfl

end MapStyle.Double
