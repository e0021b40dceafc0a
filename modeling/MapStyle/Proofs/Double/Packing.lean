import MapStyle.Proofs.Double.Comparison

namespace MapStyle.Double

open Float.Model Float.Model.UnpackedFloat

-- The parts that a double can have: 53 digits of which the first is set, or
-- fewer at the least exponent.
def Packs : UnpackedFloat → Prop
  | .finite _ m e _ =>
      (2 ^ 52 ≤ m ∧ m < 2 ^ 53 ∧ -1074 ≤ e ∧ e ≤ 971) ∨ (m < 2 ^ 52 ∧ e = -1074)
  | _ => True

theorem eq_of_parts {x y : Float} (same : parts x = parts y) : x = y := by
  obtain ⟨⟨b, valid⟩⟩ := x
  obtain ⟨⟨c, valid'⟩⟩ := y
  obtain rfl : b = c := UInt64.toBitVec_inj.mp ((unpack_inj_of_valid valid valid').mp same)
  rfl

def ofFields (s : Sign) (e : BitVec 11) (m : BitVec 52) : UnpackedFloat :=
  if e = -1#11 then
    if m = 0#52 then .infinity s else .notANumber
  else if e = 0#11 then
    if h : m = 0#52 then .zero s
    else .finite s m.toNat (-1074) (by simpa [BitVec.toNat_pos,BitVec.pos_iff_ne_zero])
  else
    .finite s (2 ^ 52 + m.toNat) (e.toNat - 1075) (by omega)

theorem finite_congr {s : Sign} {m n : Nat} {e f : Int} {positive : 0 < m} {positive' : 0 < n}
    (digits : m = n) (exponent : e = f) :
    UnpackedFloat.finite s m e positive = .finite s n f positive' := by
  subst digits exponent
  rfl

theorem toNat_leading (m : BitVec 52) : (1#1 ++ m).toNat = 2 ^ 52 + m.toNat := by
  rw [BitVec.toNat_append,← Nat.shiftLeft_add_eq_or_of_lt m.isLt]
  rfl

theorem unpack_eq (b : BitVec Format.binary64.numBits) :
    unpack .binary64 b =
      ofFields (Sign.ofBitVec (unpackSign b)) (unpackExponent b) (unpackMantissa b) := by
  unfold UnpackedFloat.unpack ofFields
  dsimp only
  split
  · rfl
  · split
    · rename_i least
      split
      · rfl
      · refine finite_congr rfl ?_
        rw [least]
        rfl
    · exact finite_congr (toNat_leading _) rfl

theorem unpack_packComponents (s : Sign) (e : BitVec 11) (m : BitVec 52) :
    unpack .binary64 (packComponents .binary64 s e m) = ofFields s e m := by
  rw [unpack_eq,unpackSign_packComponents,Sign.ofBitVec_toBitVec,unpackExponent_packComponents,
    unpackMantissa_packComponents]

theorem packs_ofFields (s : Sign) (e : BitVec 11) (m : BitVec 52) : Packs (ofFields s e m) := by
  unfold ofFields
  have digits := m.isLt
  have exponent := e.isLt
  split
  · split <;> trivial
  · rename_i notLast
    split
    · split
      · trivial
      · exact .inr ⟨digits, rfl⟩
    · rename_i notFirst
      have last : e.toNat ≠ 2047 := fun h => notLast (BitVec.eq_of_toNat_eq h)
      have first : e.toNat ≠ 0 := fun h => notFirst (BitVec.eq_of_toNat_eq h)
      refine .inl ⟨?_, ?_, ?_, ?_⟩ <;> omega

theorem packs_parts (x : Float) : Packs (parts x) := by
  unfold parts Float.Model.unpack
  rw [unpack_eq]
  exact packs_ofFields _ _ _

theorem log2_of_bounds {m : Nat} (low : 2 ^ 52 ≤ m) (high : m < 2 ^ 53) : m.log2 = 52 := by
  have atLeast : 52 ≤ m.log2 := (Nat.le_log2 (by omega)).mpr low
  have below : m.log2 < 53 := (Nat.log2_lt (by omega)).mpr high
  omega

theorem pack_finite (s : Sign) (m : Nat) (e : Int) (positive : 0 < m) :
    UnpackedFloat.pack .binary64 (.finite s m e positive) =
      if 2047 ≤ (e + 1075).toNat then packedInfinity .binary64 s
      else if m.log2 = 52 then
        packComponents .binary64 s (BitVec.ofNat 11 (e + 1075).toNat) (BitVec.ofNat 52 m)
      else packComponents .binary64 s 0#11 (BitVec.ofNat 52 m) := by
  have bias : e + (Format.binary64.exponentBias : Nat) +
      (Format.binary64.mantissaBitsWithoutImplicit : Nat) = e + 1075 := by
    show e + 1023 + 52 = e + 1075
    omega
  have digits : Format.binary64.mantissaBits = 53 := rfl
  unfold UnpackedFloat.pack
  simp only [bias,digits,Nat.reducePow,Nat.reduceLeDiff,Nat.reduceEqDiff]

theorem unpack_pack {p : UnpackedFloat} (packs : Packs p) :
    UnpackedFloat.unpack .binary64 (UnpackedFloat.pack .binary64 p) = p := by
  cases p with
  | notANumber => rfl
  | infinity s => cases s <;> rfl
  | zero s => cases s <;> rfl
  | finite s m e positive =>
      rw [pack_finite]
      rcases packs with ⟨low, high, least, most⟩ | ⟨below, rfl⟩
      · rw [if_neg (by omega),if_pos (log2_of_bounds low high),unpack_packComponents]
        have exponent : (BitVec.ofNat 11 (e + 1075).toNat).toNat = (e + 1075).toNat := by
          rw [BitVec.toNat_ofNat]
          omega
        have digits : (BitVec.ofNat 52 m).toNat = m - 2 ^ 52 := by
          rw [BitVec.toNat_ofNat]
          omega
        unfold ofFields
        rw [if_neg (fun h => by rw [h] at exponent; simp at exponent; omega),
          if_neg (fun h => by rw [h] at exponent; simp at exponent; omega)]
        have whole : 2 ^ 52 + (m - 2 ^ 52) = m := by omega
        have back : ((e + 1075).toNat : Int) - 1075 = e := by omega
        refine finite_congr ?_ ?_
        · rw [digits,whole]
        · rw [exponent,back]
      · have short : m.log2 ≠ 52 := fun h => by
          have := (Nat.log2_lt (by omega)).mpr below
          omega
        rw [if_neg (by decide),if_neg short,unpack_packComponents]
        have digits : (BitVec.ofNat 52 m).toNat = m := by
          rw [BitVec.toNat_ofNat]
          omega
        unfold ofFields
        rw [if_neg (by decide),if_pos rfl,
          dif_neg (fun h => by rw [h] at digits; simp at digits; omega)]
        exact finite_congr digits rfl

theorem parts_ofModel_pack {p : UnpackedFloat} (packs : Packs p) :
    parts (.ofModel (.pack p)) = p :=
  unpack_pack packs

theorem packs_neg {p : UnpackedFloat} (packs : Packs p) : Packs p.neg := by
  cases p <;> exact packs

theorem packs_abs {p : UnpackedFloat} (packs : Packs p) : Packs p.abs := by
  cases p <;> exact packs

@[simp] theorem parts_neg (x : Float) : parts (-x) = (parts x).neg :=
  parts_ofModel_pack (packs_neg (packs_parts x))

@[simp] theorem parts_abs (x : Float) : parts x.abs = (parts x).abs :=
  parts_ofModel_pack (packs_abs (packs_parts x))

@[simp] theorem isFinite_neg (x : Float) : (-x).isFinite = x.isFinite := by
  rw [isFinite_eq,isFinite_eq,parts_neg]
  cases parts x <;> rfl

theorem isFinite_packComponents (s : Sign) {e : BitVec 11} (m : BitVec 52) (notLast : e ≠ -1#11) :
    (UnpackedFloat.unpack .binary64 (packComponents .binary64 s e m)).isFinite = true := by
  rw [unpack_packComponents,ofFields,if_neg notLast]
  split
  · split <;> rfl
  · rfl

theorem isFinite_pack (s : Sign) (m : Nat) (e : Int) (positive : 0 < m) (small : e ≤ 971) :
    (Float.ofModel (.pack (.finite s m e positive))).isFinite = true := by
  show (UnpackedFloat.unpack .binary64
    (UnpackedFloat.pack .binary64 (.finite s m e positive))).isFinite = true
  rw [pack_finite,if_neg (by omega)]
  split
  · apply isFinite_packComponents
    intro last
    have exponent := congrArg BitVec.toNat last
    simp at exponent
    omega
  · exact isFinite_packComponents _ _ (by decide)

end MapStyle.Double
