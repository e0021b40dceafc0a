import MapStyle.Decimal.Numeral

-- Colors with red, green, blue and alpha channels, not premultiplied. Channels are
-- meant to lie between 0 and 1; mixing may leave that range, and only the css text
-- brings them back into it.

namespace MapStyle

def between (x y t : Float) : Float :=
  x + (y - x) * t

structure Color where
  red : Float
  green : Float
  blue : Float
  alpha : Float

namespace Color

def equals (a b : Color) : Bool :=
  a.red == b.red && a.green == b.green && a.blue == b.blue && a.alpha == b.alpha

instance : BEq Color := ⟨equals⟩

def ofBytes (red green blue alpha : Nat) : Color where
  red := red.toFloat / 255
  green := green.toFloat / 255
  blue := blue.toFloat / 255
  alpha := alpha.toFloat / 255

def mix (x y : Color) (t : Float) : Color where
  red := between x.red y.red t
  green := between x.green y.green t
  blue := between x.blue y.blue t
  alpha := between x.alpha y.alpha t

-- A channel as the nearest whole number from 0 to 255, a half going up; 0 for a NaN.
def byte (channel : Float) : Nat :=
  let scaled := channel * 255
  let whole := scaled.toUInt64
  min 255 (if 0.5 ≤ scaled - whole.toFloat then whole.toNat + 1 else whole.toNat)

def css (c : Color) : String :=
  "rgba(" ++ toString (byte c.red) ++ "," ++ toString (byte c.green) ++ "," ++ toString (byte c.blue) ++
    "," ++ Decimal.text c.alpha ++ ")"

end Color

end MapStyle

namespace MapStyle.Color.Hex

structure Layout where
  width : Nat
  channels : Nat

def layout? : Nat → Option Layout
  | 3 => some ⟨1, 3⟩
  | 4 => some ⟨1, 4⟩
  | 6 => some ⟨2, 3⟩
  | 8 => some ⟨2, 4⟩
  | _ => none

def Layout.field (layout : Layout) (cs : List Char) (i : Nat) : List Char :=
  (cs.drop (i * layout.width)).take layout.width

def digit? (c : Char) : Option Nat :=
  if '0' ≤ c ∧ c ≤ '9' then some (c.toNat - '0'.toNat)
  else if 'a' ≤ c ∧ c ≤ 'f' then some (c.toNat - 'a'.toNat + 10)
  else if 'A' ≤ c ∧ c ≤ 'F' then some (c.toNat - 'A'.toNat + 10)
  else none

-- The value of one channel. A single digit counts twice; of two characters the first
-- may be a plus sign, since a pair is read as a numeral.
def channel? : List Char → Option Nat
  | [c] => (digit? c).map fun d => 16 * d + d
  | ['+', c] => digit? c
  | [c, e] => (digit? c).bind fun high => (digit? e).map fun low => 16 * high + low
  | _ => none

def read? (cs : List Char) : Option Color :=
  (layout? cs.length).bind fun layout =>
    match (List.range layout.channels).mapM fun i => channel? (layout.field cs i) with
    | some [red, green, blue] => some (ofBytes red green blue 255)
    | some [red, green, blue, alpha] => some (ofBytes red green blue alpha)
    | _ => none

end MapStyle.Color.Hex

namespace MapStyle.Color

def names : List (String × Nat × Nat × Nat) := [
  ("black", 0, 0, 0),
  ("white", 255, 255, 255),
  ("red", 255, 0, 0),
  ("green", 0, 128, 0),
  ("lime", 0, 255, 0),
  ("blue", 0, 0, 255),
  ("navy", 0, 0, 128),
  ("yellow", 255, 255, 0),
  ("cyan", 0, 255, 255),
  ("aqua", 0, 255, 255),
  ("magenta", 255, 0, 255),
  ("fuchsia", 255, 0, 255),
  ("gray", 128, 128, 128),
  ("grey", 128, 128, 128),
  ("silver", 192, 192, 192),
  ("maroon", 128, 0, 0),
  ("olive", 128, 128, 0),
  ("purple", 128, 0, 128),
  ("teal", 0, 128, 128),
  ("orange", 255, 165, 0),
  ("brown", 165, 42, 42),
  ("pink", 255, 192, 203)]

def ofName? (name : String) : Option Color :=
  if name = "transparent" then some ⟨0, 0, 0, 0⟩
  else (names.lookup name).map fun (red, green, blue) => ofBytes red green blue 255

end MapStyle.Color

-- Blank characters and their removal at the ends of a text.
--
-- The set is the Unicode property White_Space.

namespace MapStyle.Text

def isBlank (c : Char) : Bool :=
  let code := c.toNat
  (0x9 ≤ code && code ≤ 0xD) || code == 0x20 || code == 0x85 || code == 0xA0 || code == 0x1680 ||
    (0x2000 ≤ code && code ≤ 0x200A) || code == 0x2028 || code == 0x2029 || code == 0x202F ||
    code == 0x205F || code == 0x3000

def trimStart (cs : List Char) : List Char :=
  cs.dropWhile isBlank

def trimEnd (cs : List Char) : List Char :=
  (cs.reverse.dropWhile isBlank).reverse

def trim (cs : List Char) : List Char :=
  trimEnd (trimStart cs)

def split (separator : Char) : List Char → List (List Char)
  | [] => [[]]
  | c :: cs =>
      match split separator cs with
      | [] => [[c]]
      | piece :: pieces =>
          if c = separator then [] :: piece :: pieces else (c :: piece) :: pieces

def dropStart? (start cs : List Char) : Option (List Char) :=
  start.isPrefixOf? cs

def dropLast? (c : Char) (cs : List Char) : Option (List Char) :=
  if cs.getLast? = some c then some cs.dropLast else none

end MapStyle.Text

-- Colors in functional form: `rgb(...)` and `hsl(...)`, the alpha channel as an
-- optional fourth argument whatever the name says.

namespace MapStyle.Color.Functional

def inner? (name : String) (cs : List Char) : Option (List Char) := do
  let afterName ← Text.dropStart? name.toList cs
  let opened ← Text.dropStart? ['('] (Text.trimStart afterName)
  Text.dropLast? ')' opened

def arguments (inner : List Char) : List (List Char) :=
  (Text.split ',' inner).map Text.trim

def clamp (x : Float) : Float :=
  let raised := if x < 0 then 0 else x
  if 1 < raised then 1 else raised

def percentage? (cs : List Char) : Option Float := do
  let digits ← Text.dropLast? '%' cs
  let x ← Decimal.read? digits
  some (clamp (x / 100))

def channel? (cs : List Char) : Option Float :=
  if (Text.dropLast? '%' cs).isSome then percentage? cs
  else (Decimal.read? cs).map fun x => clamp (x / 255)

def alpha? : List (List Char) → Option Float
  | [] => some 1
  | [cs] => (Decimal.read? cs).map clamp
  | _ => none

def rgb? (inner : List Char) : Option Color :=
  match arguments inner with
  | red :: green :: blue :: rest => do
      let r ← channel? red
      let g ← channel? green
      let b ← channel? blue
      let a ← alpha? rest
      some ⟨r, g, b, a⟩
  | _ => none

def onCircle (p q t : Float) : Float :=
  let up := if t < 0 then t + 1 else t
  let turn := if 1 < up then up - 1 else up
  if turn < 1 / 6 then p + (q - p) * 6 * turn
  else if turn < 0.5 then q
  else if turn < 2 / 3 then p + (q - p) * (2 / 3 - turn) * 6
  else p

def ofHue (hue saturation lightness alpha : Float) : Color :=
  let q :=
    if lightness < 0.5 then lightness * (1 + saturation)
    else lightness + saturation - lightness * saturation
  let p := 2 * lightness - q
  ⟨onCircle p q (hue + 1 / 3), onCircle p q hue, onCircle p q (hue - 1 / 3), alpha⟩

def hsl? (inner : List Char) : Option Color :=
  match arguments inner with
  | hue :: saturation :: lightness :: rest => do
      let h ← Decimal.read? hue
      let s ← percentage? saturation
      let l ← percentage? lightness
      let a ← alpha? rest
      some (ofHue (Decimal.wrap h 360 / 360) s l a)
  | _ => none

end MapStyle.Color.Functional

-- Reading css colors. Blanks around the text and the case of ASCII letters do not
-- matter. A text that starts like one form is read in that form alone.

namespace MapStyle.Color

open Functional in
def ofCss? (text : String) : Option Color :=
  let cs := (Text.trim text.toList).map Char.toLower
  match cs with
  | '#' :: digits => Hex.read? digits
  | _ =>
      match (inner? "rgba" cs).or (inner? "rgb" cs) with
      | some inner => rgb? inner
      | none =>
          match (inner? "hsla" cs).or (inner? "hsl" cs) with
          | some inner => hsl? inner
          | none => ofName? (String.ofList cs)

end MapStyle.Color
