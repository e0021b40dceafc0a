import MapStyle.Decimal.Numeral
import MapStyle.Proofs.Double.Packing

-- What is read as a double: decimal numerals, and a few words whose doubles are not
-- finite.

namespace MapStyle.Decimal

open Double

def Digits (cs : List Char) : Prop :=
  ∀ c ∈ cs, c.isDigit = true

inductive IsSign : List Char → Prop
  | none : IsSign []
  | plus : IsSign ['+']
  | minus : IsSign ['-']

inductive IsFraction : List Char → List Char → Prop
  | none : IsFraction [] []
  | point (digits : List Char) : Digits digits → IsFraction ('.' :: digits) digits

inductive IsExponent : List Char → Prop
  | none : IsExponent []
  | power (mark : Char) (sign digits : List Char) : mark ∈ ['e', 'E'] → IsSign sign →
      digits ≠ [] → Digits digits → IsExponent (mark :: (sign ++ digits))

inductive IsNumeral : List Char → Prop
  | of (sign whole fraction digits exponent : List Char) : IsSign sign → Digits whole →
      IsFraction fraction digits → whole ++ digits ≠ [] → IsExponent exponent →
      IsNumeral (sign ++ (whole ++ (fraction ++ exponent)))

theorem digits_takeWhile (cs : List Char) : Digits (cs.takeWhile Char.isDigit) :=
  fun _ member => List.mem_takeWhile_imp member

theorem takeSign_sign (cs : List Char) : ∃ sign, IsSign sign ∧ cs = sign ++ (takeSign cs).2 := by
  unfold takeSign
  split
  · exact ⟨['-'], .minus, rfl⟩
  · exact ⟨['+'], .plus, rfl⟩
  · exact ⟨[], .none, rfl⟩

theorem takeFraction_fraction (cs : List Char) :
    ∃ fraction, IsFraction fraction (takeFraction cs).1 ∧ cs = fraction ++ (takeFraction cs).2 := by
  unfold takeFraction
  split
  · rename_i rest
    refine ⟨'.' :: rest.takeWhile Char.isDigit, .point _ (digits_takeWhile rest), ?_⟩
    rw [List.cons_append,List.takeWhile_append_dropWhile]
  · exact ⟨[], .none, rfl⟩

theorem mark_of_toLower {c : Char} (lower : c.toLower = 'e') : c ∈ ['e', 'E'] := by
  unfold Char.toLower at lower
  split at lower
  · have value : c.val + 32 = 69 + 32 := congrArg Char.val lower
    obtain rfl : c = 'E' := Char.ext ((UInt32.add_left_inj 32).mp value)
    decide
  · rw [lower]
    decide

theorem isExponent_of_exponent? {cs : List Char} {e : Int} (read : exponent? cs = some e) :
    IsExponent cs := by
  cases cs with
  | nil => exact .none
  | cons mark rest =>
      obtain ⟨sign, signed, parts⟩ := takeSign_sign rest
      unfold exponent? at read
      dsimp only at read
      split at read
      · rename_i given
        obtain ⟨lower, filled, digits⟩ := given
        rw [parts]
        exact .power mark sign _ (mark_of_toLower lower) signed filled (List.all_eq_true.mp digits)
      · cases read

theorem word?_isFinite {cs : List Char} {x : Float} (word : word? cs = some x) :
    x.isFinite = false := by
  unfold word? at word
  dsimp only at word
  split at word
  · cases word
    decide
  · split at word
    · cases word
      decide
    · cases word

theorem unsigned_of_unsigned? {cs : List Char} {k : Nat × Int} (read : unsigned? cs = some k) :
    ∃ whole fraction digits exponent, Digits whole ∧ IsFraction fraction digits ∧
      whole ++ digits ≠ [] ∧ IsExponent exponent ∧ cs = whole ++ (fraction ++ exponent) := by
  obtain ⟨fraction, formed, parts⟩ := takeFraction_fraction (cs.dropWhile Char.isDigit)
  unfold unsigned? at read
  dsimp only at read
  split at read
  · cases read
  · rename_i filled
    obtain ⟨e, power, _⟩ := Option.map_eq_some_iff.mp read
    refine ⟨_, fraction, _, _, digits_takeWhile cs, formed, ?_, isExponent_of_exponent? power, ?_⟩
    · rwa [Ne,List.append_eq_nil_iff]
    · rw [← parts,List.takeWhile_append_dropWhile]

theorem isNumeral_of_read? {cs : List Char} {x : Float} (read : read? cs = some x)
    (finite : x.isFinite = true) : IsNumeral cs := by
  obtain ⟨sign, signed, parts⟩ := takeSign_sign cs
  unfold read? at read
  dsimp only at read
  obtain ⟨y, magnitude, made⟩ := Option.map_eq_some_iff.mp read
  have finite' : y.isFinite = true := by
    rw [← made] at finite
    split at finite
    · rwa [isFinite_neg] at finite
    · exact finite
  unfold magnitude? at magnitude
  split at magnitude
  · rename_i word
    cases magnitude
    rw [word?_isFinite word] at finite'
    cases finite'
  · obtain ⟨k, unsigned, _⟩ := Option.map_eq_some_iff.mp magnitude
    obtain ⟨whole, fraction, digits, exponent, first, second, filled, last, rest⟩ :=
      unsigned_of_unsigned? unsigned
    rw [parts,rest]
    exact .of sign whole fraction digits exponent signed first second filled last

end MapStyle.Decimal
