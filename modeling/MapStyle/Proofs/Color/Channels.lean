import MapStyle.Color.Css
import MapStyle.Proofs.Double.Magnitude
import MapStyle.Proofs.Double.Numeral
import MapStyle.Proofs.Double.Order

-- The channels of a color in functional form are numbers, whatever numbers they are
-- computed from. An infinity is brought into range before it is computed with, and a hue
-- that is none of a circle leaves the lightness alone.

namespace MapStyle.Double

open Float.Model Float.Model.UnpackedFloat

theorem within_of_parts {x : Float} {s : Sign} {m : Nat} {e k : Int} {positive : 0 < m}
    (known : parts x = .finite s m e positive) (below : totalExponent m e ≤ k) : Within k x := by
  unfold Within
  rw [known]
  exact below

theorem within_of_zero {x : Float} {s : Sign} {k : Int} (zero : parts x = .zero s) : Within k x := by
  unfold Within
  rw [zero]
  trivial

theorem parts_wholeOne : parts 1 = .finite .positive (2 ^ 52) (-52) (by decide) := rfl

theorem parts_third : parts (1 / 3) = .finite .positive 6004799503160661 (-54) (by decide) := rfl

theorem parts_twoThirds : parts (2 / 3) = .finite .positive 6004799503160661 (-53) (by decide) := rfl

theorem parts_two : parts 2 = .finite .positive (2 ^ 52) (-51) (by decide) := rfl

theorem parts_six : parts 6 = .finite .positive (3 * 2 ^ 51) (-50) (by decide) := rfl

theorem parts_hundred : parts 100 = .finite .positive (100 * 2 ^ 46) (-46) (by decide) := rfl

theorem parts_byte : parts 255 = .finite .positive (255 * 2 ^ 45) (-45) (by decide) := rfl

theorem parts_circle : parts 360 = .finite .positive (360 * 2 ^ 44) (-44) (by decide) := rfl

theorem parts_toFloat_circle :
    parts (Nat.toFloat 360) = .finite .positive (360 * 2 ^ 44) (-44) (by decide) := rfl

theorem not_lt_of_isNaN {x y : Float} (nan : x.isNaN = true) : ¬ x < y ∧ ¬ y < x := by
  constructor
  · intro below
    obtain ⟨number, _⟩ := lt_iff_rank.mp below
    rw [nan] at number
    cases number
  · intro below
    obtain ⟨_, number, _⟩ := lt_iff_rank.mp below
    rw [nan] at number
    cases number

theorem parts_of_isNaN {x : Float} (nan : x.isNaN = true) : parts x = .notANumber := by
  rw [isNaN_eq] at nan
  cases known : parts x with
  | notANumber => rfl
  | _ => rw [known] at nan; cases nan

theorem isNaN_of_operand (op : UnpackedFloat → UnpackedFloat → UnpackedFloat) {x y z : Float}
    (absorbs : ∀ q, op .notANumber q = .notANumber)
    (made : parts z = UnpackedFloat.unpack .binary64
      (UnpackedFloat.pack .binary64 (op (parts x) (parts y)))) (nan : x.isNaN = true) :
    z.isNaN = true := by
  rw [isNaN_eq,made,parts_of_isNaN nan,absorbs]
  rfl

theorem nan_add {x : Float} (nan : x.isNaN = true) (y : Float) : (x + y).isNaN = true :=
  isNaN_of_operand (UnpackedFloat.add .binary64) (y := y) (fun q => by cases q <;> rfl) rfl nan

theorem nan_sub {x : Float} (nan : x.isNaN = true) (y : Float) : (x - y).isNaN = true :=
  isNaN_of_operand (UnpackedFloat.sub .binary64) (y := y) (fun q => by cases q <;> rfl) rfl nan

theorem nan_div {x : Float} (nan : x.isNaN = true) (y : Float) : (x / y).isNaN = true :=
  isNaN_of_operand (UnpackedFloat.div .binary64) (y := y) (fun q => by cases q <;> rfl) rfl nan

theorem within_unit {x : Float} (number : x.isNaN = false) (low : ¬ x < 0) (high : ¬ 1 < x) :
    Within 1 x := by
  have packs := packs_parts x
  rw [lt_iff_rank] at low high
  have zero : (0 : Float).isNaN = false := rfl
  have one : (1 : Float).isNaN = false := rfl
  simp only [number,zero,one,true_and,not_lt] at low high
  rw [isNaN_eq] at number
  rw [parts_wholeOne] at high
  unfold Within
  cases known : parts x with
  | notANumber => rw [known] at number; cases number
  | zero s => trivial
  | infinity s =>
      rw [known] at low high
      cases s with
      | negative => exact absurd low (by decide)
      | positive => exact absurd high (by decide)
  | finite s m e positive =>
      rw [known] at low high packs
      cases s with
      | negative =>
          rw [parts_zero] at low
          simp only [rank,Prod.Lex.toLex_le_toLex] at low
          omega
      | positive =>
          simp only [rank,Prod.Lex.toLex_le_toLex] at high
          simp only [Below,totalExponent]
          simp only [Packs] at packs
          have digits : m.log2 ≤ 52 := log2_le (by omega)
          omega

end MapStyle.Double

namespace MapStyle.Color.Functional

open Float.Model Float.Model.UnpackedFloat Double

theorem clamp_within {x : Float} (number : x.isNaN = false) : Within 1 (clamp x) := by
  unfold clamp
  dsimp only
  by_cases negative : x < 0
  · have kept : ¬ (1 : Float) < 0 := by decide
    rw [if_pos negative,if_neg kept]
    exact within_of_zero parts_zero
  · rw [if_neg negative]
    by_cases large : 1 < x
    · rw [if_pos large]
      exact within_of_parts parts_wholeOne (by decide)
    · rw [if_neg large]
      exact within_unit number negative large

theorem remainder_eq (x : Float) (n : Nat) : Decimal.remainder x n =
    match parts x with
    | .notANumber => x
    | .infinity _ => 0 / 0
    | .zero _ => x
    | .finite s m e _ =>
        let rest := (m <<< e.toNat) % (n <<< (-e).toNat)
        if rest = 0 then .ofModel (.pack (.zero s))
        else .ofModel (.pack (UnpackedFloat.round Format.binary64 s rest (min e 0))) := rfl

theorem remainder_within {x : Float} (finite : x.isFinite = true) :
    Within 10 (Decimal.remainder x 360) := by
  rw [isFinite_eq] at finite
  rw [remainder_eq]
  cases known : parts x with
  | notANumber => rw [known] at finite; cases finite
  | infinity s => rw [known] at finite; cases finite
  | zero s => exact within_of_zero known
  | finite s m e positive =>
      dsimp only
      split
      · exact within_of_zero (parts_ofModel_pack (p := .zero s) trivial)
      · refine unpack_pack_below (round_below _ ?_ (by decide)) (by decide) (by decide)
        have digits : ((m <<< e.toNat) % (360 <<< (-e).toNat)).log2 ≤ 8 + (-e).toNat := by
          refine log2_le (Nat.lt_of_lt_of_le (Nat.mod_lt _ ?_) ?_)
          · rw [Nat.shiftLeft_eq]
            positivity
          · rw [Nat.shiftLeft_eq,show 8 + (-e).toNat + 1 = 9 + (-e).toNat by omega,Nat.pow_add]
            exact Nat.mul_le_mul_right _ (by decide)
        unfold totalExponent
        omega

theorem remainder_isNaN {x : Float} (endless : x.isFinite = false) :
    (Decimal.remainder x 360).isNaN = true := by
  rw [isFinite_eq] at endless
  rw [remainder_eq]
  cases known : parts x with
  | notANumber => rw [isNaN_eq,known]; rfl
  | infinity s =>
      have nan : (0 / 0 : Float).isNaN = true := by decide
      exact nan
  | zero s => rw [known] at endless; cases endless
  | finite s m e positive => rw [known] at endless; cases endless

theorem hue_within (x : Float) :
    Within 5 (Decimal.wrap x 360 / 360) ∨ (Decimal.wrap x 360 / 360).isNaN = true := by
  unfold Decimal.wrap
  dsimp only
  cases finite : x.isFinite with
  | true =>
      have rest := remainder_within finite
      refine .inl (within_div (j := 12) ?_ parts_circle (by decide))
      split
      · exact within_add rest (within_of_parts parts_toFloat_circle (by decide)) (by decide)
      · exact rest.mono (by decide)
  | false =>
      have nan := remainder_isNaN finite
      refine .inr (nan_div ?_ 360)
      rw [if_neg (not_lt_of_isNaN nan).1]
      exact nan

theorem onCircle_of_isNaN (p q : Float) {t : Float} (nan : t.isNaN = true) : onCircle p q t = p := by
  unfold onCircle
  simp only [not_lt_of_isNaN nan,if_false]

theorem one_within {k : Int} (upTo : 1 ≤ k) : Within k (1 : Float) :=
  within_of_parts parts_wholeOne upTo

theorem raised_within {t : Float} (near : Within 7 t) : Within 9 (if t < 0 then t + 1 else t) := by
  split
  · exact within_add near (one_within (by decide)) (by decide)
  · exact near.mono (by decide)

theorem lowered_within {t : Float} (near : Within 9 t) : Within 11 (if 1 < t then t - 1 else t) := by
  split
  · exact within_sub near (one_within (by decide)) (by decide)
  · exact near.mono (by decide)

theorem sector_isNaN {p q turn : Float} (low : Within 7 p) (high : Within 5 q)
    (near : Within 11 turn) :
    (if turn < 1 / 6 then p + (q - p) * 6 * turn
      else if turn < 0.5 then q
      else if turn < 2 / 3 then p + (q - p) * (2 / 3 - turn) * 6
      else p).isNaN = false := by
  have six : Within 3 (6 : Float) := within_of_parts parts_six (by decide)
  have height : Within 9 (q - p) := within_sub (high.mono (by decide)) low (by decide)
  split
  · have steep : Within 13 ((q - p) * 6) := within_mul height six (by decide)
    have rise : Within 25 ((q - p) * 6 * turn) := within_mul steep near (by decide)
    have sum : Within 27 (p + (q - p) * 6 * turn) :=
      within_add (low.mono (by decide)) rise (by decide)
    exact sum.isNaN
  split
  · exact high.isNaN
  split
  · have rest : Within 13 (2 / 3 - turn) :=
      within_sub (within_of_parts parts_twoThirds (by decide)) near (by decide)
    have fall : Within 23 ((q - p) * (2 / 3 - turn)) := within_mul height rest (by decide)
    have steep : Within 27 ((q - p) * (2 / 3 - turn) * 6) := within_mul fall six (by decide)
    have sum : Within 29 (p + (q - p) * (2 / 3 - turn) * 6) :=
      within_add (low.mono (by decide)) steep (by decide)
    exact sum.isNaN
  · exact low.isNaN

theorem onCircle_isNaN {p q t : Float} (low : Within 7 p) (high : Within 5 q)
    (place : Within 7 t ∨ t.isNaN = true) : (onCircle p q t).isNaN = false := by
  rcases place with near | nan
  · exact sector_isNaN low high (lowered_within (raised_within near))
  · rw [onCircle_of_isNaN p q nan]
    exact low.isNaN

theorem lighter_within {s l : Float} (saturation : Within 1 s) (lightness : Within 1 l) :
    Within 5 (if l < 0.5 then l * (1 + s) else l + s - l * s) := by
  split
  · have factor : Within 3 (1 + s) := within_add (one_within (by decide)) saturation (by decide)
    exact within_mul lightness factor (by decide)
  · have sum : Within 3 (l + s) := within_add lightness saturation (by decide)
    have product : Within 3 (l * s) := within_mul lightness saturation (by decide)
    exact within_sub sum product (by decide)

theorem darker_within {l q : Float} (lightness : Within 1 l) (high : Within 5 q) :
    Within 7 (2 * l - q) := by
  have twice : Within 5 (2 * l) :=
    within_mul (within_of_parts parts_two (by decide : _ ≤ (2 : Int))) lightness (by decide)
  exact within_sub twice high (by decide)

theorem ofHue_isNaN {h s l a : Float} (hue : Within 5 h ∨ h.isNaN = true) (saturation : Within 1 s)
    (lightness : Within 1 l) (alpha : a.isNaN = false) :
    let c := ofHue h s l a
    c.red.isNaN = false ∧ c.green.isNaN = false ∧ c.blue.isNaN = false ∧ c.alpha.isNaN = false := by
  have high := lighter_within saturation lightness
  have low := darker_within lightness high
  have third : Within 5 (1 / 3 : Float) := within_of_parts parts_third (by decide)
  refine ⟨onCircle_isNaN low high ?_, onCircle_isNaN low high ?_, onCircle_isNaN low high ?_, alpha⟩
  · exact hue.imp (fun near => within_add near third (by decide)) fun nan => nan_add nan _
  · exact hue.imp (fun near => near.mono (by decide)) id
  · exact hue.imp (fun near => within_sub near third (by decide)) fun nan => nan_sub nan _

end MapStyle.Color.Functional
