import MapStyle.Proofs.Double.Packing

namespace MapStyle.Double

open Float.Model Float.Model.UnpackedFloat

theorem shiftRight_succ (em : ExtendedMantissa) (k : Nat) :
    em >>> (k + 1) = (em >>> k).shiftRightOne := rfl

theorem shiftRight_exact (m k : Nat) :
    (⟨m * 2 ^ k, false, false⟩ : ExtendedMantissa) >>> k = ⟨m, false, false⟩ := by
  induction k generalizing m with
  | zero =>
      rw [Nat.pow_zero,Nat.mul_one]
      rfl
  | succ k ih =>
      have next : m * 2 ^ (k + 1) = (m * 2) * 2 ^ k := by rw [Nat.pow_succ]; ac_rfl
      rw [next,shiftRight_succ,ih]
      simp [ExtendedMantissa.shiftRightOne]

theorem shiftRight_mantissa (em : ExtendedMantissa) (k : Nat) :
    (em >>> k).mantissa = em.mantissa / 2 ^ k := by
  induction k with
  | zero => exact (Nat.div_one _).symm
  | succ k ih =>
      rw [shiftRight_succ,Nat.pow_succ,← Nat.div_div_eq_div_mul,← ih]
      rfl

theorem shiftRight_le (em : ExtendedMantissa) (k : Nat) : (em >>> k).mantissa ≤ em.mantissa := by
  rw [shiftRight_mantissa]
  exact Nat.div_le_self _ _

theorem roundedMantissa_le (em : ExtendedMantissa) : em.roundedMantissa ≤ em.mantissa + 1 := by
  obtain ⟨m, round, sticky⟩ := em
  have parity : m % 2 < 2 := Nat.mod_lt _ (by decide)
  cases round <;> cases sticky <;>
    simp only [ExtendedMantissa.roundedMantissa,ExtendedMantissa.accuracy,
      Accuracy.roundToNearestEven] <;> omega

theorem shiftToTargetExponent_exact (m : Nat) (e : Int) :
    shiftToTargetExponent .binary64 m e .exact =
      let k := (max (m.log2 + 1 + e - 53) (-1074) - e).toNat
      ((⟨m, false, false⟩ : ExtendedMantissa) >>> k, e + k) := rfl

theorem log2_le {m k : Nat} (small : m < 2 ^ (k + 1)) : m.log2 ≤ k := by
  by_cases zero : m = 0
  · subst zero
    simp
  · have := (Nat.log2_lt zero).mpr small
    omega

theorem log2_mul_pow {m : Nat} (positive : m ≠ 0) (k : Nat) : (m * 2 ^ k).log2 = m.log2 + k := by
  induction k with
  | zero => simp
  | succ k ih =>
      have next : m * 2 ^ (k + 1) = 2 * (m * 2 ^ k) := by rw [Nat.pow_succ]; ac_rfl
      have nonzero : m * 2 ^ k ≠ 0 := Nat.mul_ne_zero positive (Nat.ne_of_gt (Nat.two_pow_pos k))
      rw [next,Nat.log2_two_mul nonzero,ih]
      rfl

theorem round_exact (s : Sign) (m k : Nat) (e : Int) (positive : 0 < m)
    (packs : Packs (.finite s m e positive)) :
    roundWithAccuracy .binary64 s (m * 2 ^ k) (e - k) .exact = .finite s m e positive := by
  have digits : (m * 2 ^ k).log2 = m.log2 + k := log2_mul_pow (by omega) k
  have target : max ((m.log2 : Int) + 1 + e - 53) (-1074) = e := by
    rcases packs with ⟨low, high, least, most⟩ | ⟨below, rfl⟩
    · rw [log2_of_bounds low high]
      omega
    · have short : m.log2 < 52 := (Nat.log2_lt (by omega)).mpr below
      omega
  have first : shiftToTargetExponent .binary64 (m * 2 ^ k) (e - k) .exact =
      (⟨m, false, false⟩, e) := by
    have amount : (max (((m.log2 + k : Nat) : Int) + 1 + (e - k) - 53) (-1074) - (e - k)).toNat
        = k := by
      omega
    simp only [shiftToTargetExponent_exact,digits,amount,shiftRight_exact,Int.sub_add_cancel]
  have second : shiftToTargetExponent .binary64 m e .exact = (⟨m, false, false⟩, e) := by
    simp only [shiftToTargetExponent_exact,target,Int.sub_self]
    exact Prod.ext rfl (Int.add_zero e)
  have rounded : (⟨m, false, false⟩ : ExtendedMantissa).roundedMantissa = m := rfl
  unfold roundWithAccuracy
  simp only [first,rounded,second]
  rw [dif_neg (by omega)]

theorem round_isFinite (s : Sign) {m : Nat} {e : Int} (digits : m < 2 ^ 200) (small : e ≤ 100) :
    (Float.ofModel (.pack (roundWithAccuracy .binary64 s m e .exact))).isFinite = true := by
  have length : m.log2 ≤ 199 := log2_le digits
  unfold roundWithAccuracy
  rw [shiftToTargetExponent_exact m e]
  simp only
  generalize amount : (max ((m.log2 : Int) + 1 + e - 53) (-1074) - e).toNat = k
  have rounded := roundedMantissa_le ((⟨m, false, false⟩ : ExtendedMantissa) >>> k)
  have kept := shiftRight_le ⟨m, false, false⟩ k
  generalize ((⟨m, false, false⟩ : ExtendedMantissa) >>> k).roundedMantissa = n at rounded
  have length' : n.log2 ≤ 200 := log2_le (by simp only at kept; omega)
  rw [shiftToTargetExponent_exact n (e + k)]
  split
  · rw [isFinite_eq,parts_ofModel_pack (p := .zero s) trivial]
    rfl
  · apply isFinite_pack
    simp only
    omega

end MapStyle.Double
