-- Reading decimal numerals as doubles, correctly rounded.
--
-- A numeral is an optional sign and then either digits with an optional point and an
-- optional exponent, where the point needs a digit on one side at least, or one of the
-- words inf, infinity and nan in any letter case.

namespace MapStyle.Decimal

-- The double nearest to `k · 10 ^ place`. A number with `d` digits lies below `10 ^ (d
-- + place)`, so outside the range of doubles the answer is known without the power.
def toFloat (k : Nat) (place : Int) : Float :=
  let top := (Nat.toDigits 10 k).length + place
  if k = 0 ∨ top < -330 then 0
  else if 310 < top then 1 / 0
  else Float.ofScientific k (decide (place < 0)) place.natAbs

def natOfDigits (digits : List Char) : Nat :=
  digits.foldl (fun n c => 10 * n + (c.toNat - '0'.toNat)) 0

def takeSign : List Char → Bool × List Char
  | '-' :: rest => (true, rest)
  | '+' :: rest => (false, rest)
  | cs => (false, cs)

def exponent? : List Char → Option Int
  | [] => some 0
  | mark :: rest =>
      let (negative, digits) := takeSign rest
      if mark.toLower = 'e' ∧ digits ≠ [] ∧ digits.all Char.isDigit then
        some (if negative then -(natOfDigits digits : Int) else natOfDigits digits)
      else
        none

def takeFraction : List Char → List Char × List Char
  | '.' :: rest => (rest.takeWhile Char.isDigit, rest.dropWhile Char.isDigit)
  | cs => ([], cs)

def unsigned? (cs : List Char) : Option (Nat × Int) :=
  let whole := cs.takeWhile Char.isDigit
  let (fraction, rest) := takeFraction (cs.dropWhile Char.isDigit)
  if whole = [] ∧ fraction = [] then none
  else (exponent? rest).map fun e => (natOfDigits (whole ++ fraction), e - fraction.length)

def word? (cs : List Char) : Option Float :=
  let lower := cs.map Char.toLower
  if lower = "inf".toList ∨ lower = "infinity".toList then some (1 / 0)
  else if lower = "nan".toList then some (0 / 0)
  else none

def magnitude? (cs : List Char) : Option Float :=
  match word? cs with
  | some x => some x
  | none => (unsigned? cs).map fun (k, place) => toFloat k place

def read? (cs : List Char) : Option Float :=
  let (negative, rest) := takeSign cs
  (magnitude? rest).map fun x => if negative then -x else x

-- The shortest decimal that reads back as a given double, and its positional text.
--
-- A double stands for the reals that round to it. Of all decimal grids with a point
-- among those reals the coarsest is taken, and of two such points on it the nearer,
-- the upper one of two that are equally near.

structure Neighbourhood where
  low : Nat
  value : Nat
  high : Nat
  closed : Bool
  exponent : Int

namespace Neighbourhood

-- The neighbourhood of `mantissa · 2 ^ exponent`. Below a power of two the doubles lie
-- twice as close, except at the lower end of the range.
def of (mantissa : Nat) (exponent : Int) : Neighbourhood where
  low := if mantissa = 1 <<< 52 ∧ -1074 < exponent then 4 * mantissa - 1 else 4 * mantissa - 2
  value := 4 * mantissa
  high := 4 * mantissa + 2
  closed := mantissa % 2 = 0
  exponent := exponent - 2

def onGrid? (n : Neighbourhood) (place : Int) : Option Nat :=
  let step := Nat.pow 10 place.toNat <<< (-n.exponent).toNat
  let unit := Nat.pow 10 (-place).toNat <<< n.exponent.toNat
  let value := n.value * unit
  let inside (k : Nat) : Bool :=
    if n.closed then n.low * unit ≤ k * step ∧ k * step ≤ n.high * unit
    else n.low * unit < k * step ∧ k * step < n.high * unit
  let below := value / step
  let above := below + 1
  match inside below, inside above with
  | true, true => if value - below * step < above * step - value then some below else some above
  | true, false => some below
  | false, true => some above
  | false, false => none

def coarsest (n : Neighbourhood) : Nat → Nat × Int
  | 0 => (0, 0)
  | fuel + 1 =>
      let place : Int := (fuel : Int) - 1074
      match n.onGrid? place with
      | some k => (k, place)
      | none => coarsest n fuel

end Neighbourhood

-- Places above 309 hold no double, and on the grid of place -1074 every double lies
-- itself.
def places : Nat := 1074 + 310

def shortest (mantissa : Nat) (exponent : Int) : Nat × Int :=
  (Neighbourhood.of mantissa exponent).coarsest places

def positional (k : Nat) (place : Int) : List Char :=
  let digits := Nat.toDigits 10 k
  if 0 ≤ place then
    digits ++ List.replicate place.toNat '0'
  else
    let decimals := (-place).toNat
    let padded := List.replicate (decimals + 1 - digits.length) '0' ++ digits
    padded.take (padded.length - decimals) ++ '.' :: padded.drop (padded.length - decimals)

open Float.Model.UnpackedFloat in
def signed (sign : Sign) (text : List Char) : String :=
  match sign with
  | .negative => String.ofList ('-' :: text)
  | .positive => String.ofList text

def text (x : Float) : String :=
  match x.toModel.unpack with
  | .notANumber => "NaN"
  | .infinity sign => signed sign ['i', 'n', 'f']
  | .zero sign => signed sign ['0']
  | .finite sign mantissa exponent _ =>
      let (k, place) := shortest mantissa exponent
      signed sign (positional k place)

-- The exact remainder of a double divided by a positive whole number.
--
-- A double is a whole number of units of some power of two, so the remainder is one of
-- whole numbers: of `m · 2 ^ e` by `n`, it is `m · 2 ^ e % n` for `0 ≤ e` and `m % (n
-- · 2 ^ -e)` units else. It is smaller than the double and has the same last place, so
-- it is a double itself.

open Float.Model Float.Model.UnpackedFloat in
def remainder (x : Float) (n : Nat) : Float :=
  match x.toModel.unpack with
  | .notANumber => x
  | .infinity _ => 0 / 0
  | .zero _ => x
  | .finite sign mantissa exponent _ =>
      let rest := (mantissa <<< exponent.toNat) % (n <<< (-exponent).toNat)
      if rest = 0 then
        .ofModel (pack (.zero sign))
      else
        .ofModel (pack (round Format.binary64 sign rest (min exponent 0)))

def wrap (x : Float) (n : Nat) : Float :=
  let rest := remainder x n
  if rest < 0 then rest + n.toFloat else rest

end MapStyle.Decimal
