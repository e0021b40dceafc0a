import MapStyle.Color.Css
import MapStyle.Json
import MapStyle.Ty.Data

-- What an expression evaluates to: the JSON data model, with doubles for all numbers,
-- and colors, which only evaluation brings forth.

namespace MapStyle

inductive Value where
  | null
  | bool (value : Bool)
  | num (value : Float)
  | str (value : String)
  | color (value : Color)
  | arr (items : List Value)
  | obj (members : List (String × Value))
deriving Inhabited

namespace Value

mutual
-- Doubles compare as numbers here, so a NaN equals nothing.
def equals : Value → Value → Bool
  | .null, .null => true
  | .bool a, .bool b => a == b
  | .num a, .num b => a == b
  | .str a, .str b => a == b
  | .color a, .color b => a == b
  | .arr as, .arr bs => equalItems as bs
  | .obj as, .obj bs => equalMembers as bs
  | _, _ => false

def equalItems : List Value → List Value → Bool
  | [], [] => true
  | a :: as, b :: bs => equals a b && equalItems as bs
  | _, _ => false

def equalMembers : List (String × Value) → List (String × Value) → Bool
  | [], [] => true
  | (k, a) :: as, (l, b) :: bs => k == l && equals a b && equalMembers as bs
  | _, _ => false
end

instance : BEq Value := ⟨equals⟩

def isNull : Value → Bool
  | .null => true
  | _ => false

def float? : Value → Option Float
  | .num x => some x
  | _ => none

def string? : Value → Option String
  | .str s => some s
  | _ => none

def typeOf : Value → Ty
  | .null => .null
  | .bool _ => .boolean
  | .num _ => .number
  | .str _ => .string
  | .color _ => .color
  | .obj _ => .object
  | .arr [] => .array .unknown (some 0)
  | .arr (first :: rest) => .array (typeOf first) (some (rest.length + 1))

mutual
def ofJson : Json → Value
  | .null => .null
  | .bool b => .bool b
  | .num n => .num n.toFloat
  | .str s => .str s
  | .arr items => .arr (ofItems items)
  | .obj members => .obj (ofMembers members)

def ofItems : List Json → List Value
  | [] => []
  | j :: js => ofJson j :: ofItems js

def ofMembers : List (String × Json) → List (String × Value)
  | [] => []
  | (key, j) :: rest => (key, ofJson j) :: ofMembers rest
end

mutual
def toJson : Value → Json
  | .null => .null
  | .bool b => .bool b
  | .num x => .ofFloat x
  | .str s => .str s
  | .color c => .str c.css
  | .arr items => .arr (toItems items)
  | .obj members => .obj (toMembers members)

def toItems : List Value → List Json
  | [] => []
  | v :: vs => toJson v :: toItems vs

def toMembers : List (String × Value) → List (String × Json)
  | [] => []
  | (key, v) :: rest => (key, toJson v) :: toMembers rest
end

end Value

end MapStyle
