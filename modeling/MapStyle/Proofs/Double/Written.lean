import MapStyle.Proofs.Double.Numeral

namespace MapStyle.Number

open Double

theorem toFloat_isFinite (n : Number) : n.toFloat.isFinite = true := by
  cases n with
  | float x finite => exact finite
  | int value inRange =>
      cases value with
      | ofNat n =>
          rw [Int.ofNat_eq_natCast] at inRange
          exact ofNat_isFinite (by omega)
      | negSucc n => exact (isFinite_neg _).trans (ofNat_isFinite (by omega))

def isWhole (x : Float) : Bool :=
  x.abs.toUInt64.toNat < 9007199254740992 && x.abs.toUInt64.toFloat == x.abs

def whole (x : Float) : Int :=
  if x < 0 then -(x.abs.toUInt64.toNat : Int) else x.abs.toUInt64.toNat

theorem ofFloat?_eq (x : Float) :
    ofFloat? x = if isWhole x then ofInt? (whole x) else ofFinite? x := rfl

theorem toUInt64_abs {x y : Float} (same : (x == y) = true) : x.abs.toUInt64 = y.abs.toUInt64 := by
  show (parts x.abs).toUInt64 = (parts y.abs).toUInt64
  rw [abs_congr same]

theorem isWhole_congr {x y : Float} (same : (x == y) = true) : isWhole x = isWhole y := by
  unfold isWhole
  rw [toUInt64_abs same,Bool.eq_iff_iff,Bool.and_eq_true,Bool.and_eq_true,beq_iff,beq_iff,
    abs_congr same]

theorem whole_congr {x y : Float} (same : (x == y) = true) : whole x = whole y := by
  have below : x < 0 ↔ y < 0 := lt_congr same rfl
  unfold whole
  rw [toUInt64_abs same]
  simp only [below]

theorem ofInt_whole {x : Float} (finite : x.isFinite = true) (isWhole : isWhole x = true) :
    (Float.ofInt (whole x) == x) = true := by
  unfold Number.isWhole at isWhole
  rw [Bool.and_eq_true,decide_eq_true_iff] at isWhole
  obtain ⟨small, size⟩ := isWhole
  have digits := BEq.trans (ofNat_beq _ (by omega)) size
  unfold whole
  split
  · rename_i negative
    exact BEq.trans (ofInt_neg (by omega)) (BEq.trans (neg_congr digits) (neg_abs negative))
  · rename_i above
    exact BEq.trans digits (abs_beq (isNaN_of_isFinite finite) above)

theorem ofFloat?_finite {x : Float} (finite : x.isFinite = true) :
    ∃ n, ofFloat? x = some n ∧ (n.toFloat == x) = true ∧ ofFloat? n.toFloat = some n := by
  cases h : isWhole x with
  | false =>
      refine ⟨.float x finite, ?_, beq_self (isNaN_of_isFinite finite), ?_⟩ <;>
        simp only [toFloat,ofFloat?_eq,h,ofFinite?,dif_pos finite,Bool.false_eq_true,if_false]
  | true =>
      have same := ofInt_whole finite h
      have small := h
      unfold isWhole at small
      rw [Bool.and_eq_true,decide_eq_true_iff] at small
      have inRange : -9223372036854775808 ≤ whole x ∧ whole x < 18446744073709551616 := by
        unfold whole
        split <;> omega
      refine ⟨.int (whole x) inRange, ?_, same, ?_⟩
      · rw [ofFloat?_eq,h,if_pos rfl,ofInt?,dif_pos inRange]
      · simp only [toFloat]
        rw [ofFloat?_eq,isWhole_congr same,whole_congr same,h,if_pos rfl,ofInt?,dif_pos inRange]

end MapStyle.Number
