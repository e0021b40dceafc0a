-- JSON data: the form in which styles, schemas and feature properties are handed in,
-- and in which expressions are written out again.
--
-- A numeral without fraction or exponent stays a whole number, any other is a double,
-- and the two never compare equal, so data that is only passed on keeps its spelling.
-- Objects hold their members in key order, one per key.

namespace MapStyle

inductive Number where
  -- The bounds are those of `Int64` below and of `UInt64` above.
  | int (value : Int) (inRange : -9223372036854775808 ≤ value ∧ value < 18446744073709551616)
  | float (value : Float) (finite : value.isFinite = true)

namespace Number

def toFloat : Number → Float
  | .int value _ => Float.ofInt value
  | .float value _ => value

-- The natural number written; a double is none, even with an integral value.
def toNat? : Number → Option Nat
  | .int value _ => if 0 ≤ value then some value.toNat else none
  | .float _ _ => none

def equals : Number → Number → Bool
  | .int a _, .int b _ => a == b
  | .float a _, .float b _ => a == b
  | _, _ => false

instance : BEq Number := ⟨equals⟩

def ofInt? (value : Int) : Option Number :=
  if h : -9223372036854775808 ≤ value ∧ value < 18446744073709551616 then some (.int value h)
  else none

def ofFinite? (value : Float) : Option Number :=
  if h : value.isFinite = true then some (.float value h) else none

-- The number for a computed double. Below `2 ^ 53` an integral one is written as a
-- whole number; an infinity or a NaN cannot be written.
def ofFloat? (x : Float) : Option Number :=
  let size := x.abs.toUInt64
  if size.toNat < 9007199254740992 && size.toFloat == x.abs then
    ofInt? (if x < 0 then -(size.toNat : Int) else size.toNat)
  else
    ofFinite? x

end Number

inductive Json where
  | null
  | bool (value : Bool)
  | num (value : Number)
  | str (value : String)
  | arr (items : List Json)
  | obj (members : List (String × Json))
deriving Inhabited

namespace Json

mutual
def equals : Json → Json → Bool
  | .null, .null => true
  | .bool a, .bool b => a == b
  | .num a, .num b => a == b
  | .str a, .str b => a == b
  | .arr as, .arr bs => equalItems as bs
  | .obj as, .obj bs => equalMembers as bs
  | _, _ => false

def equalItems : List Json → List Json → Bool
  | [], [] => true
  | a :: as, b :: bs => equals a b && equalItems as bs
  | _, _ => false

def equalMembers : List (String × Json) → List (String × Json) → Bool
  | [], [] => true
  | (k, a) :: as, (l, b) :: bs => k == l && equals a b && equalMembers as bs
  | _, _ => false
end

instance : BEq Json := ⟨equals⟩

def ofFloat (x : Float) : Json :=
  match Number.ofFloat? x with
  | some n => .num n
  | none => .null

def ofNat (n : Nat) : Json :=
  ((Number.ofInt? n).map num).getD (.ofFloat n.toFloat)

def insertMember (key : String) (value : Json) : List (String × Json) → List (String × Json)
  | [] => [(key, value)]
  | (k, v) :: rest =>
      if key < k then (key, value) :: (k, v) :: rest
      else if key = k then (key, value) :: rest
      else (k, v) :: insertMember key value rest

def object (members : List (String × Json)) : Json :=
  .obj (members.foldl (fun sorted m => insertMember m.1 m.2 sorted) [])

def member? (key : String) : Json → Option Json
  | .obj members => members.lookup key
  | _ => none

def isObject : Json → Bool
  | .obj _ => true
  | _ => false

def string? : Json → Option String
  | .str s => some s
  | _ => none

def float? : Json → Option Float
  | .num n => some n.toFloat
  | _ => none

def nat? : Json → Option Nat
  | .num n => n.toNat?
  | _ => none

end Json

end MapStyle
