import MapStyle.Proofs.Double.Rounding

-- How large results of arithmetic can get. What counts is where the first digit of a
-- double stands, and each operation moves that by few places, so one that is far from the
-- end of the range stays finite.

namespace MapStyle.Double

open Float.Model Float.Model.UnpackedFloat

theorem log2_div_pow (m k : Nat) : (m / 2 ^ k).log2 = m.log2 - k := by
  rw [Nat.log2_eq_log_two,Nat.log2_eq_log_two,Nat.log_div_base_pow]

theorem log2_succ_le (m : Nat) : (m + 1).log2 ≤ m.log2 + 1 := by
  have above : m < 2 ^ (m.log2 + 1) := Nat.lt_log2_self
  refine log2_le ?_
  rw [Nat.pow_succ]
  omega

theorem log2_mul_le (m n : Nat) : (m * n).log2 ≤ m.log2 + n.log2 + 1 := by
  have left : m < 2 ^ (m.log2 + 1) := Nat.lt_log2_self
  have right : n < 2 ^ (n.log2 + 1) := Nat.lt_log2_self
  refine log2_le ?_
  calc m * n < 2 ^ (m.log2 + 1) * 2 ^ (n.log2 + 1) := Nat.mul_lt_mul'' left right
    _ = 2 ^ (m.log2 + n.log2 + 1 + 1) := by rw [← Nat.pow_add]; congr 1; omega

theorem log2_add_le {m n k : Nat} (left : m.log2 ≤ k) (right : n.log2 ≤ k) :
    (m + n).log2 ≤ k + 1 := by
  have below : ∀ {i : Nat}, i.log2 ≤ k → i < 2 ^ (k + 1) := fun small =>
    Nat.lt_of_lt_of_le Nat.lt_log2_self (Nat.pow_le_pow_right (by decide) (by omega))
  have first := below left
  have second := below right
  refine log2_le ?_
  rw [Nat.pow_succ]
  omega

theorem log2_shiftLeft_le (m k : Nat) : (m <<< k).log2 ≤ m.log2 + k := by
  rw [Nat.shiftLeft_eq]
  by_cases zero : m = 0
  · subst zero
    simp
  · exact (log2_mul_pow zero k).le

-- The double is zero, or its first digit stands below the place: its size is less than
-- two to that power.
def Below (k : Int) : UnpackedFloat → Prop
  | .zero _ => True
  | .finite _ m e _ => totalExponent m e ≤ k
  | _ => False

theorem Below.mono {j k : Int} {p : UnpackedFloat} (below : Below j p) (upTo : j ≤ k) : Below k p := by
  cases p with
  | finite s m e positive => exact Int.le_trans below upTo
  | zero s => trivial
  | _ => cases below

def places (m : Nat) (e : Int) : Nat :=
  (max (totalExponent m e - 53) (-1074) - e).toNat

theorem log2_le_shifted {m n k : Nat} (kept : m / 2 ^ k ≠ 0) (carried : n ≤ m / 2 ^ k + 1) :
    k ≤ m.log2 ∧ n.log2 ≤ m.log2 - k + 1 := by
  have digits : 2 ^ k ≤ m := by
    refine Nat.le_of_not_lt fun short => kept ?_
    exact Nat.div_eq_of_lt short
  have positive : m ≠ 0 := fun zero => kept (by rw [zero,Nat.zero_div])
  refine ⟨(Nat.le_log2 positive).mpr digits, ?_⟩
  have last := log2_succ_le (m / 2 ^ k)
  rw [log2_div_pow] at last
  refine Nat.le_trans ?_ last
  rw [Nat.log2_eq_log_two,Nat.log2_eq_log_two]
  exact Nat.log_mono_right carried

theorem rounded_digits {m n : Nat} {e k : Int} (carried : n ≤ m / 2 ^ places m e + 1)
    (below : totalExponent m e < k) (least : -1073 ≤ k) :
    totalExponent n (e + places m e) ≤ k := by
  by_cases lost : m / 2 ^ places m e = 0
  · have one : n.log2 = 0 := by
      rw [lost] at carried
      interval_cases n <;> rfl
    have short : m = 0 ∨ m.log2 < places m e := by
      rcases Nat.eq_zero_or_pos m with zero | positive
      · exact .inl zero
      · refine .inr ((Nat.log2_lt (by omega)).mpr ?_)
        exact (Nat.div_eq_zero_iff_lt (Nat.two_pow_pos _)).mp lost
    have zero : m = 0 → m.log2 = 0 := by
      rintro rfl
      rfl
    unfold places totalExponent at *
    omega
  · obtain ⟨inside, digits⟩ := log2_le_shifted lost carried
    unfold totalExponent at *
    omega

theorem shifted_digits {m : Nat} {e k : Int} (kept : m / 2 ^ places m e ≠ 0)
    (below : totalExponent m e ≤ k) : totalExponent (m / 2 ^ places m e) (e + places m e) ≤ k := by
  obtain ⟨inside, _⟩ := log2_le_shifted kept (Nat.le_succ _)
  unfold totalExponent at *
  rw [log2_div_pow]
  omega

theorem mantissa_ofAccuracy (m : Nat) (accuracy : Accuracy) :
    (ExtendedMantissa.ofMantissaAndAccuracy m accuracy).mantissa = m := by
  cases accuracy with
  | exact => rfl
  | inexact o => cases o <;> rfl

theorem roundWithAccuracy_below (s : Sign) {m : Nat} {e k : Int} (accuracy : Accuracy)
    (below : totalExponent m e < k) (least : -1073 ≤ k) :
    Below k (roundWithAccuracy .binary64 s m e accuracy) := by
  let shifted := ExtendedMantissa.ofMantissaAndAccuracy m accuracy >>> places m e
  have carried : shifted.roundedMantissa ≤ m / 2 ^ places m e + 1 := by
    have rounded := roundedMantissa_le shifted
    rwa [shiftRight_mantissa,mantissa_ofAccuracy] at rounded
  have first := rounded_digits carried below least
  have made : roundWithAccuracy .binary64 s m e accuracy =
      let n := shifted.roundedMantissa
      let f := e + places m e
      let last := (⟨n, false, false⟩ : ExtendedMantissa) >>> places n f
      if h : last.mantissa = 0 then .zero s
      else .finite s last.mantissa (f + places n f) (Nat.pos_of_ne_zero h) := rfl
  rw [made]
  generalize shifted.roundedMantissa = n at first
  dsimp only
  split
  · trivial
  · rename_i kept
    simp only [Below,shiftRight_mantissa] at kept ⊢
    exact shifted_digits kept first

theorem round_below (s : Sign) {m : Nat} {e k : Int} (below : totalExponent m e < k)
    (least : -1073 ≤ k) : Below k (UnpackedFloat.round .binary64 s m e) := by
  unfold UnpackedFloat.round decreaseExponent
  refine roundWithAccuracy_below s .exact ?_ least
  generalize (e - _ : Int).toNat = j
  have digits := log2_shiftLeft_le m j
  unfold totalExponent at *
  omega

theorem ofFields_below {s : Sign} {e : BitVec 11} {m : BitVec 52} {k : Int} (notLast : e ≠ -1#11)
    (below : (e.toNat : Int) - 1022 ≤ k) (least : -1022 ≤ k) : Below k (ofFields s e m) := by
  have digits := m.isLt
  unfold ofFields
  rw [if_neg notLast]
  split
  · split
    · trivial
    · have few : m.toNat.log2 ≤ 51 := log2_le digits
      simp only [Below,totalExponent]
      omega
  · have full : (2 ^ 52 + m.toNat).log2 = 52 := log2_of_bounds (Nat.le_add_right _ _) (by omega)
    simp only [Below,totalExponent,full]
    omega

theorem unpack_pack_below {p : UnpackedFloat} {k : Int} (below : Below k p) (least : -1022 ≤ k)
    (most : k ≤ 971) : Below k (UnpackedFloat.unpack .binary64 (UnpackedFloat.pack .binary64 p)) := by
  cases p with
  | notANumber => cases below
  | infinity s => cases below
  | zero s =>
      rw [unpack_pack (p := .zero s) trivial]
      trivial
  | finite s m e positive =>
      have digits : (m.log2 : Int) + 1 + e ≤ k := below
      rw [pack_finite,if_neg (by omega)]
      split
      · rename_i full
        have exponent : (BitVec.ofNat 11 (e + 1075).toNat).toNat = (e + 1075).toNat := by
          rw [BitVec.toNat_ofNat]
          omega
        rw [unpack_packComponents]
        refine ofFields_below ?_ ?_ least
        · intro last
          rw [last] at exponent
          simp at exponent
          omega
        · omega
      · rw [unpack_packComponents]
        exact ofFields_below (by decide) least least

theorem below_neg {p : UnpackedFloat} {k : Int} (below : Below k p) : Below k p.neg := by
  cases p <;> exact below

theorem normalize_below {m e k : Int} (zero : Sign) (below : totalExponent m.natAbs e < k)
    (least : -1073 ≤ k) : Below k (UnpackedFloat.normalize .binary64 m e zero) := by
  unfold UnpackedFloat.normalize
  split
  · rename_i negative
    rw [Int.compare_eq_lt] at negative
    refine round_below _ ?_ least
    rwa [show (-m).toNat = m.natAbs by omega]
  · trivial
  · rename_i positive
    rw [Int.compare_eq_gt] at positive
    refine round_below _ ?_ least
    rwa [show m.toNat = m.natAbs by omega]

theorem decreaseExponent_below {m : Nat} {e f k : Int} (below : totalExponent m e ≤ k) (upTo : f ≤ e) :
    totalExponent (decreaseExponent m e f).1 f ≤ k := by
  have digits := log2_shiftLeft_le m (e - f).toNat
  unfold decreaseExponent totalExponent at *
  simp only at *
  omega

theorem natAbs_apply_le (s t : Sign) (m n : Nat) :
    (s.apply (m : Int) + t.apply (n : Int)).natAbs ≤ m + n := by
  cases s <;> cases t <;> simp only [Sign.apply] <;> omega

theorem apply_below (s t : Sign) {m n : Nat} {e k : Int} (left : totalExponent m e ≤ k)
    (right : totalExponent n e ≤ k) :
    totalExponent (s.apply (m : Int) + t.apply (n : Int)).natAbs e < k + 2 := by
  unfold totalExponent at *
  have first : m.log2 ≤ (k - 1 - e).toNat := by omega
  have second : n.log2 ≤ (k - 1 - e).toNat := by omega
  have sum := log2_add_le first second
  have size := Nat.log_mono_right (b := 2) (natAbs_apply_le s t m n)
  rw [← Nat.log2_eq_log_two,← Nat.log2_eq_log_two] at size
  omega

theorem add_below {p q : UnpackedFloat} {k : Int} (left : Below k p) (right : Below k q)
    (least : -1075 ≤ k) : Below (k + 2) (UnpackedFloat.add .binary64 p q) := by
  have more : k ≤ k + 2 := by omega
  cases p with
  | notANumber => cases left
  | infinity s => cases left
  | zero s =>
      cases q with
      | notANumber => cases right
      | infinity t => cases right
      | zero t =>
          simp only [UnpackedFloat.add]
          split <;> trivial
      | finite t n f positive => exact right.mono more
  | finite s m e positive =>
      cases q with
      | notANumber => cases right
      | infinity t => cases right
      | zero t => exact left.mono more
      | finite t n f positive' =>
          have first := decreaseExponent_below left (Int.min_le_left e f)
          have second := decreaseExponent_below right (Int.min_le_right e f)
          exact normalize_below _ (apply_below s t first second) (by omega)

theorem apply_neg (s : Sign) (m : Int) : (-s).apply m = -s.apply m := by
  cases s
  · exact (Int.neg_neg m).symm
  · rfl

theorem sub_eq_add (p q : UnpackedFloat) :
    UnpackedFloat.sub .binary64 p q = UnpackedFloat.add .binary64 p q.neg := by
  cases p with
  | finite s m e positive =>
      cases q with
      | finite t n f positive' =>
          simp only [UnpackedFloat.sub,UnpackedFloat.add,UnpackedFloat.neg,apply_neg,Int.sub_eq_add_neg]
      | _ => rfl
  | _ => cases q <;> rfl

theorem mul_below {p q : UnpackedFloat} {j k : Int} (left : Below j p) (right : Below k q)
    (least : -1074 ≤ j + k) : Below (j + k + 1) (UnpackedFloat.mul .binary64 p q) := by
  cases p with
  | notANumber => cases left
  | infinity s => cases left
  | zero s =>
      cases q with
      | notANumber => cases right
      | infinity t => cases right
      | _ => trivial
  | finite s m e positive =>
      cases q with
      | notANumber => cases right
      | infinity t => cases right
      | zero t => trivial
      | finite t n f positive' =>
          have digits := log2_mul_le m n
          refine roundWithAccuracy_below _ _ ?_ (by omega)
          simp only [Below,totalExponent] at *
          omega

theorem log2_div_le (m n : Nat) (positive : 0 < n) : (m / n).log2 ≤ m.log2 - n.log2 := by
  rw [← log2_div_pow,Nat.log2_eq_log_two,Nat.log2_eq_log_two]
  refine Nat.log_mono_right ?_
  exact Nat.div_le_div_left (Nat.log2_self_le (by omega)) (Nat.two_pow_pos _)

theorem div_below {p : UnpackedFloat} {t : Sign} {n : Nat} {f j k : Int} {positive : 0 < n}
    (below : Below j p) (more : j - totalExponent n f + 2 ≤ k) (least : -1072 ≤ k) :
    Below k (UnpackedFloat.div .binary64 p (.finite t n f positive)) := by
  cases p with
  | notANumber => cases below
  | infinity s => cases below
  | zero s => trivial
  | finite s m e positive' =>
      simp only [UnpackedFloat.div,divCore]
      refine roundWithAccuracy_below _ _ ?_ (by omega)
      have target : ∀ d, Format.binary64.targetExponent d = max (d - 53) (-1074) := fun _ => rfl
      rw [target]
      generalize place : min (e - f) _ = g
      have shifted := log2_shiftLeft_le m (e - f - g).toNat
      have digits := log2_div_le (m <<< (e - f - g).toNat) n positive
      simp only [Below,totalExponent] at *
      omega

def Within (k : Int) (x : Float) : Prop :=
  Below k (parts x)

theorem Within.mono {j k : Int} {x : Float} (within : Within j x) (upTo : j ≤ k) : Within k x :=
  Below.mono within upTo

theorem Within.isNaN {k : Int} {x : Float} (within : Within k x) : x.isNaN = false := by
  unfold Within at within
  rw [isNaN_eq]
  cases known : parts x with
  | notANumber => rw [known] at within; cases within
  | _ => rfl

section Arithmetic

variable {x y : Float} {i j k : Int}

theorem within_add (left : Within j x) (right : Within j y)
    (fits : j + 2 ≤ k ∧ -1022 ≤ k ∧ k ≤ 971) : Within k (x + y) := by
  obtain ⟨more, least, most⟩ := fits
  have near : j ≤ k - 2 := by omega
  have sum := add_below (left.mono near) (right.mono near) (by omega)
  exact unpack_pack_below (sum.mono (by omega)) least most

theorem within_sub (left : Within j x) (right : Within j y)
    (fits : j + 2 ≤ k ∧ -1022 ≤ k ∧ k ≤ 971) : Within k (x - y) := by
  obtain ⟨more, least, most⟩ := fits
  have near : j ≤ k - 2 := by omega
  have difference := add_below (left.mono near) (below_neg (right.mono near)) (by omega)
  rw [← sub_eq_add] at difference
  exact unpack_pack_below (difference.mono (by omega)) least most

theorem within_mul (left : Within i x) (right : Within j y)
    (fits : i + j + 1 ≤ k ∧ -1022 ≤ k ∧ k ≤ 971) : Within k (x * y) := by
  obtain ⟨more, least, most⟩ := fits
  have near : i ≤ k - 1 - j := by omega
  have product := mul_below (left.mono near) right (by omega)
  exact unpack_pack_below (product.mono (by omega)) least most

theorem within_div {t : Sign} {n : Nat} {f : Int} {positive : 0 < n} (left : Within j x)
    (divisor : parts y = .finite t n f positive)
    (fits : j - totalExponent n f + 2 ≤ k ∧ -1022 ≤ k ∧ k ≤ 971) : Within k (x / y) := by
  obtain ⟨more, least, most⟩ := fits
  have quotient : Below k (UnpackedFloat.div .binary64 (parts x) (parts y)) := by
    rw [divisor]
    exact div_below left more (by omega)
  exact unpack_pack_below quotient least most

end Arithmetic

theorem pack_isNaN {p : UnpackedFloat} (number : p.isNaN = false) :
    (UnpackedFloat.unpack .binary64 (UnpackedFloat.pack .binary64 p)).isNaN = false := by
  cases p with
  | notANumber => cases number
  | infinity s => cases s <;> rfl
  | zero s => cases s <;> rfl
  | finite s m e positive =>
      by_cases large : 2047 ≤ (e + 1075).toNat
      · have overflow : packedInfinity .binary64 s = UnpackedFloat.pack .binary64 (.infinity s) := rfl
        rw [pack_finite,if_pos large,overflow,unpack_pack (p := .infinity s) trivial]
        rfl
      · have number := isNaN_of_isFinite (isFinite_pack s m e positive (by omega))
        rw [isNaN_eq] at number
        exact number

theorem div_isNaN {x y : Float} {t : Sign} {n : Nat} {f : Int} {positive : 0 < n}
    (number : x.isNaN = false) (divisor : parts y = .finite t n f positive) :
    (x / y).isNaN = false := by
  refine pack_isNaN (p := UnpackedFloat.div .binary64 (parts x) (parts y)) ?_
  rw [isNaN_eq] at number
  rw [divisor]
  cases dividend : parts x with
  | notANumber => rw [dividend] at number; cases number
  | infinity s => rfl
  | zero s => rfl
  | finite s m e positive' =>
      simp only [UnpackedFloat.div,roundWithAccuracy]
      split <;> rfl

end MapStyle.Double
