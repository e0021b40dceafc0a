import MapStyle.Proofs.Color.Channels
import MapStyle.Proofs.Color.Hex
import MapStyle.Proofs.Decimal.Numeral

-- Colors in functional form: three or four arguments between commas, each the numeral of
-- a finite double, but for words and numerals that stand for others.

namespace MapStyle.Color

namespace Functional

open Double

def bare (cs : List Char) : List Char :=
  (Text.dropLast? '%' cs).getD cs

def numeralsOfRgb : List (List Char) → List (List Char)
  | red :: green :: blue :: rest => bare red :: bare green :: bare blue :: rest
  | others => others

def numeralsOfHsl : List (List Char) → List (List Char)
  | hue :: saturation :: lightness :: rest => hue :: bare saturation :: bare lightness :: rest
  | others => others

def numerals? (cs : List Char) : Option (List (List Char)) :=
  match (inner? "rgba" cs).or (inner? "rgb" cs) with
  | some inner => some (numeralsOfRgb (arguments inner))
  | none =>
      ((inner? "hsla" cs).or (inner? "hsl" cs)).map fun inner => numeralsOfHsl (arguments inner)

def Numbers (c : Color) : Prop :=
  c.red.isNaN = false ∧ c.green.isNaN = false ∧ c.blue.isNaN = false ∧ c.alpha.isNaN = false

-- The numerals are read as doubles, and the property holds unless one of these is a NaN.
def Reads (ns : List (List Char)) (P : Prop) : Prop :=
  (∀ n ∈ ns, ∃ x, Decimal.read? n = some x) ∧
    ((∀ n ∈ ns, ∀ x, Decimal.read? n = some x → x.isNaN = false) → P)

variable {P Q : Prop} {ns : List (List Char)}

theorem Reads.imp (reads : Reads ns P) (next : P → Q) : Reads ns Q :=
  ⟨reads.1, fun numbers => next (reads.2 numbers)⟩

theorem reads_single {n : List Char} {x : Float} (read : Decimal.read? n = some x)
    (next : x.isNaN = false → P) : Reads [n] P := by
  constructor
  · intro n' member
    obtain rfl := List.mem_singleton.mp member
    exact ⟨x, read⟩
  · intro numbers
    exact next (numbers n List.mem_cons_self x read)

theorem Reads.cons {n : List Char} (first : Reads [n] P) (rest : Reads ns Q) :
    Reads (n :: ns) (P ∧ Q) := by
  constructor
  · intro n' member
    rcases List.mem_cons.mp member with rfl | belongs
    · exact first.1 n' List.mem_cons_self
    · exact rest.1 n' belongs
  · intro numbers
    refine ⟨first.2 fun n' member => ?_, rest.2 fun n' member => ?_⟩
    · obtain rfl := List.mem_singleton.mp member
      exact numbers n' List.mem_cons_self
    · exact numbers n' (List.mem_cons_of_mem n member)

theorem percentage?_reads {cs : List Char} {x : Float} (read : percentage? cs = some x) :
    Reads [bare cs] (Within 1 x) := by
  obtain ⟨digits, dropped, read⟩ := Option.bind_eq_some_iff.mp read
  obtain ⟨y, numeral, made⟩ := Option.bind_eq_some_iff.mp read
  cases made
  have same : bare cs = digits := by rw [bare,dropped]; rfl
  rw [same]
  exact reads_single numeral fun number => clamp_within (div_isNaN number parts_hundred)

theorem channel?_reads {cs : List Char} {x : Float} (read : channel? cs = some x) :
    Reads [bare cs] (Within 1 x) := by
  unfold channel? at read
  split at read
  · exact percentage?_reads read
  · rename_i whole
    obtain ⟨y, numeral, rfl⟩ := Option.map_eq_some_iff.mp read
    have same : bare cs = cs := by
      rw [bare,Option.not_isSome_iff_eq_none.mp whole]
      rfl
    rw [same]
    exact reads_single numeral fun number => clamp_within (div_isNaN number parts_byte)

theorem alpha?_reads {rest : List (List Char)} {x : Float} (read : alpha? rest = some x) :
    rest.length ≤ 1 ∧ Reads rest (Within 1 x) := by
  unfold alpha? at read
  split at read
  · cases read
    exact ⟨Nat.zero_le 1, nofun, fun _ => one_within (by decide)⟩
  · rename_i cs
    obtain ⟨y, numeral, rfl⟩ := Option.map_eq_some_iff.mp read
    exact ⟨Nat.le_refl 1, reads_single numeral clamp_within⟩
  · cases read

theorem rgb?_reads {inner : List Char} {c : Color} (read : rgb? inner = some c) :
    let ns := numeralsOfRgb (arguments inner)
    (ns.length = 3 ∨ ns.length = 4) ∧ Reads ns (Numbers c) := by
  unfold rgb? at read
  split at read
  · rename_i red green blue rest given
    obtain ⟨r, first, read⟩ := Option.bind_eq_some_iff.mp read
    obtain ⟨g, second, read⟩ := Option.bind_eq_some_iff.mp read
    obtain ⟨b, third, read⟩ := Option.bind_eq_some_iff.mp read
    obtain ⟨a, last, made⟩ := Option.bind_eq_some_iff.mp read
    cases made
    obtain ⟨few, alpha⟩ := alpha?_reads last
    rw [given]
    refine ⟨by simp only [numeralsOfRgb,List.length_cons]; omega, ?_⟩
    refine Reads.imp ((channel?_reads first).cons ((channel?_reads second).cons
      ((channel?_reads third).cons alpha))) ?_
    rintro ⟨r, g, b, a⟩
    exact ⟨r.isNaN, g.isNaN, b.isNaN, a.isNaN⟩
  · cases read

theorem hsl?_reads {inner : List Char} {c : Color} (read : hsl? inner = some c) :
    let ns := numeralsOfHsl (arguments inner)
    (ns.length = 3 ∨ ns.length = 4) ∧ Reads ns (Numbers c) := by
  unfold hsl? at read
  split at read
  · rename_i hue saturation lightness rest given
    obtain ⟨h, first, read⟩ := Option.bind_eq_some_iff.mp read
    obtain ⟨s, second, read⟩ := Option.bind_eq_some_iff.mp read
    obtain ⟨l, third, read⟩ := Option.bind_eq_some_iff.mp read
    obtain ⟨a, last, made⟩ := Option.bind_eq_some_iff.mp read
    cases made
    obtain ⟨few, alpha⟩ := alpha?_reads last
    rw [given]
    refine ⟨by simp only [numeralsOfHsl,List.length_cons]; omega, ?_⟩
    refine Reads.imp ((reads_single first fun _ => trivial).cons ((percentage?_reads second).cons
      ((percentage?_reads third).cons alpha))) ?_
    rintro ⟨_, s, l, a⟩
    exact ofHue_isNaN (hue_within h) s l a.isNaN
  · cases read

theorem ofCss?_reads {text : String} {c : Color} (form : numerals? (lowered text) = some ns)
    (accepted : ofCss? text = some c) : (ns.length = 3 ∨ ns.length = 4) ∧ Reads ns (Numbers c) := by
  unfold ofCss? at accepted
  dsimp only at accepted
  rw [← lowered] at accepted
  generalize lowered text = cs at *
  unfold numerals? at form
  split at accepted
  · cases form
  · cases rgb : (inner? "rgba" cs).or (inner? "rgb" cs) with
    | some inner =>
        simp only [rgb] at form accepted
        cases form
        exact rgb?_reads accepted
    | none =>
        simp only [rgb] at form accepted
        obtain ⟨inner, hsl, rfl⟩ := Option.map_eq_some_iff.mp form
        simp only [hsl] at accepted
        exact hsl?_reads accepted

end Functional

open Functional

theorem ofCss?_numerals {text : String} {ns : List (List Char)} {c : Color}
    (form : numerals? (lowered text) = some ns) (accepted : ofCss? text = some c) :
    (ns.length = 3 ∨ ns.length = 4) ∧
      (∀ n ∈ ns, ∃ x, Decimal.read? n = some x ∧ (x.isFinite = true → Decimal.IsNumeral n)) ∧
      ((∀ n ∈ ns, ∀ x, Decimal.read? n = some x → x.isNaN = false) →
        c.red.isNaN = false ∧ c.green.isNaN = false ∧ c.blue.isNaN = false ∧
          c.alpha.isNaN = false) := by
  obtain ⟨count, read, numbers⟩ := ofCss?_reads form accepted
  refine ⟨count, ?_, numbers⟩
  intro n member
  obtain ⟨x, read⟩ := read n member
  exact ⟨x, read, Decimal.isNumeral_of_read? read⟩

theorem ofCss?_numerals_hsl :
    let text := "hsl(-30, 5e1%, .5%, +1.)"
    let ns := [['-', '3', '0'], ['5', 'e', '1'], ['.', '5'], ['+', '1', '.']]
    ∃ c, numerals? (lowered text) = some ns ∧ ofCss? text = some c ∧
      (ns.length = 3 ∨ ns.length = 4) ∧
      (∀ n ∈ ns, ∃ x, Decimal.read? n = some x ∧ (x.isFinite = true → Decimal.IsNumeral n)) ∧
      ((∀ n ∈ ns, ∀ x, Decimal.read? n = some x → x.isNaN = false) →
        c.red.isNaN = false ∧ c.green.isNaN = false ∧ c.blue.isNaN = false ∧
          c.alpha.isNaN = false) := by
  intro text ns
  obtain ⟨c, accepted⟩ : ∃ c, ofCss? text = some c := by
    dsimp only [text]
    exact ⟨_, rfl⟩
  have form : numerals? (lowered text) = some ns := by decide
  exact ⟨c, form, accepted, ofCss?_numerals form accepted⟩

-- The word for a NaN is accepted as well, and there the channel is none.
theorem ofCss?_nan :
    ∃ c, ofCss? "rgb(nan,0,0)" = some c ∧ c.red.isNaN = true ∧
      numerals? (lowered "rgb(nan,0,0)") = some [['n', 'a', 'n'], ['0'], ['0']] ∧
      ¬ Decimal.IsNumeral ['n', 'a', 'n'] := by
  refine ⟨_, rfl, rfl, by decide, ?_⟩
  generalize word : ['n', 'a', 'n'] = cs
  rintro ⟨sign, whole, fraction, digits, exponent, signed, first, second, filled, last⟩
  cases signed with
  | plus => cases word
  | minus => cases word
  | none =>
      cases whole with
      | cons c rest =>
          obtain rfl := (List.cons.inj word).1
          exact absurd (first 'n' List.mem_cons_self) (by decide)
      | nil =>
          cases second with
          | none => exact filled rfl
          | point digits _ => cases word

end MapStyle.Color
