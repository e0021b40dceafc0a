import MapStyle.Proofs.Double.Rounding

namespace MapStyle.Double

open Float.Model Float.Model.UnpackedFloat

-- The double one, as it stands among the powers of ten by which a numeral is
-- scaled.
def one : Float :=
  Float.ofBits 0x3FF0000000000000

theorem parts_one : parts one = .finite .positive (2 ^ 52) (-52) (by decide) := rfl

theorem parts_mul (x y : Float) :
    parts (x * y) =
      UnpackedFloat.unpack .binary64
        (UnpackedFloat.pack .binary64 (UnpackedFloat.mul .binary64 (parts x) (parts y))) := rfl

theorem mul_positive (s : Sign) : s * .positive = s := by
  cases s <;> rfl

theorem parts_mul_one {x : Float} (finite : x.isFinite = true) : parts (x * one) = parts x := by
  rw [isFinite_eq] at finite
  have packs := packs_parts x
  rw [parts_mul,parts_one]
  cases h : parts x with
  | notANumber => rw [h] at finite; cases finite
  | infinity s => rw [h] at finite; cases finite
  | zero s =>
      simp only [UnpackedFloat.mul,mul_positive]
      exact unpack_pack trivial
  | finite s m e positive =>
      rw [h] at packs
      simp only [UnpackedFloat.mul,mul_positive]
      rw [show e + -52 = e - (52 : Nat) from rfl,round_exact s m 52 e positive packs]
      exact unpack_pack packs

theorem ofNat_below {n : Nat} (small : n < 2 ^ 53) :
    Float.ofNat n = n.toUInt64.toFloat * one := by
  show Float.ofScientific n false 0 = _
  unfold Float.ofScientific
  rw [dif_pos ⟨small, by decide⟩]
  rfl

theorem ofNat_above {n : Nat} (large : ¬ n < 2 ^ 53) :
    Float.ofNat n = Float.ofModel (.pack (UnpackedFloat.ofScientific .binary64 n 0)) := by
  show Float.ofScientific n false 0 = _
  unfold Float.ofScientific
  rw [dif_neg (by omega)]
  rfl

theorem ofScientific_zero {n : Nat} (positive : n ≠ 0) :
    UnpackedFloat.ofScientific .binary64 n 0 =
      roundWithAccuracy .binary64 .positive (n <<< 53 * 1) (-53 + 0) .exact := by
  have representable : ¬ 0 < -(2 ^ Format.binary64.exponentBits + (n.log2 : Int)) := by
    have wide : (0 : Int) ≤ 2 ^ Format.binary64.exponentBits := by decide
    omega
  unfold UnpackedFloat.ofScientific
  rw [dif_neg positive,if_neg (by decide),if_neg representable,if_pos (Int.le_refl 0)]
  rfl

theorem toFloat_isFinite (n : UInt64) : n.toFloat.isFinite = true := by
  show (Float.ofModel (.pack
    (UnpackedFloat.normalize .binary64 (n.toNat : Int) 0 .positive))).isFinite = true
  have bound : n.toNat < 2 ^ 64 := n.toNat_lt
  generalize n.toNat = m at bound
  unfold UnpackedFloat.normalize
  split
  · rename_i negative
    rw [Int.compare_eq_lt] at negative
    omega
  · rw [isFinite_eq,parts_ofModel_pack (p := .zero .positive) trivial]
    rfl
  · unfold UnpackedFloat.round decreaseExponent
    apply round_isFinite
    · show m <<< ((0 : Int) - max ((m.log2 : Int) + 1 + 0 - 53) (-1074)).toNat < 2 ^ 200
      generalize shift : ((0 : Int) - max ((m.log2 : Int) + 1 + 0 - 53) (-1074)).toNat = k
      have few : 2 ^ k ≤ 2 ^ 52 := Nat.pow_le_pow_right (by decide) (by omega)
      rw [Nat.shiftLeft_eq]
      calc m * 2 ^ k ≤ m * 2 ^ 52 := Nat.mul_le_mul_left m few
        _ < 2 ^ 200 := by omega
    · show (0 : Int) - ((0 : Int) - max ((m.log2 : Int) + 1 + 0 - 53) (-1074)).toNat ≤ 100
      omega

theorem ofNat_isFinite {n : Nat} (small : n ≤ 2 ^ 64) : (Float.ofNat n).isFinite = true := by
  by_cases below : n < 2 ^ 53
  · have whole := toFloat_isFinite n.toUInt64
    rw [ofNat_below below,isFinite_eq,parts_mul_one whole,← isFinite_eq,whole]
  · rw [ofNat_above below,ofScientific_zero (by omega)]
    apply round_isFinite
    · rw [Nat.shiftLeft_eq,Nat.mul_one]
      omega
    · decide

theorem beq_of_parts {x y : Float} (number : x.isNaN = false) (same : parts x = parts y) :
    (x == y) = true := by
  rw [beq_iff,← same]
  exact compare_self number

theorem abs_congr {x y : Float} (same : (x == y) = true) : parts x.abs = parts y.abs := by
  rw [parts_abs,parts_abs]
  rcases compare_eq_cases ((beq_iff x y).mp same) with one | ⟨s, t, left, right⟩
  · rw [one]
  · rw [left,right]
    rfl

theorem neg_congr {x y : Float} (same : (x == y) = true) : (-x == -y) = true := by
  rw [beq_iff,parts_neg,parts_neg]
  rcases compare_eq_cases ((beq_iff x y).mp same) with one | ⟨s, t, left, right⟩
  · rw [one]
    have number := isNaN_of_beq (BEq.symm same)
    rw [isNaN_eq] at number
    apply compare_self
    cases h : parts y with
    | notANumber => rw [h] at number; cases number
    | _ => rfl
  · rw [left,right]
    rfl

theorem parts_zero : parts 0 = .zero .positive := rfl

theorem neg_abs {x : Float} (negative : x < 0) : (-x.abs == x) = true := by
  rw [lt_iff,parts_zero] at negative
  rw [beq_iff,parts_neg,parts_abs]
  cases h : parts x with
  | notANumber => rw [h] at negative; cases negative
  | zero s => rw [h] at negative; cases negative
  | infinity s => rw [h] at negative; cases s with
      | negative => rfl
      | positive => cases negative
  | finite s m e positive => rw [h] at negative; cases s with
      | negative => exact compare_self (p := .finite .negative m e positive) rfl
      | positive => cases negative

theorem abs_beq {x : Float} (number : x.isNaN = false) (above : ¬ x < 0) :
    (x.abs == x) = true := by
  rw [isNaN_eq] at number
  rw [lt_iff,parts_zero] at above
  rw [beq_iff,parts_abs]
  cases h : parts x with
  | notANumber => rw [h] at number; cases number
  | zero s => cases s <;> rfl
  | infinity s => rw [h] at above; cases s with
      | negative => exact absurd rfl above
      | positive => rfl
  | finite s m e positive => rw [h] at above; cases s with
      | negative => exact absurd rfl above
      | positive => exact compare_self (p := .finite .positive m e positive) rfl

theorem ofNat_beq (n : UInt64) (small : n.toNat < 2 ^ 53) :
    (Float.ofNat n.toNat == n.toFloat) = true := by
  have finite := toFloat_isFinite n
  rw [ofNat_below small,show n.toNat.toUInt64 = n from UInt64.ofNat_toNat]
  apply BEq.symm
  exact beq_of_parts (isNaN_of_isFinite finite) (parts_mul_one finite).symm

theorem ofInt_neg {n : Nat} (small : n ≤ 2 ^ 64) :
    (Float.ofInt (-(n : Int)) == -Float.ofNat n) = true := by
  cases n with
  | zero => rfl
  | succ n => exact beq_self (isNaN_of_isFinite ((isFinite_neg _).trans (ofNat_isFinite small)))

end MapStyle.Double
