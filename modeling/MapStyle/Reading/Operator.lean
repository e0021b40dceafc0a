namespace MapStyle

inductive Arity where
  | exactly (count : Nat)
  | between (least : Nat) (most : Option Nat)
deriving DecidableEq

inductive ArityFault where
  | notExactly (count found : Nat)
  | tooFew (least found : Nat)
  | tooMany (most found : Nat)
deriving DecidableEq

namespace ArityFault

def arguments (count : Nat) : String :=
  toString count ++ (if count = 1 then " argument" else " arguments")

def message : ArityFault → String
  | .notExactly count found =>
      "Expected " ++ arguments count ++ ", but found " ++ toString found ++ " instead."
  | .tooFew least found =>
      "Expected at least " ++ arguments least ++ ", but found " ++ toString found ++ " instead."
  | .tooMany most found =>
      "Expected at most " ++ toString most ++ " arguments, but found " ++ toString found ++
        " instead."

end ArityFault

def Arity.fault? (arity : Arity) (elements : Nat) : Option ArityFault :=
  let found := elements - 1
  match arity with
  | .exactly count => if found = count then none else some (.notExactly count found)
  | .between least most =>
      if found < least then some (.tooFew least found)
      else
        match most with
        | some n => if n < found then some (.tooMany n found) else none
        | none => none

inductive Operator where
  | literal
  | zoom
  | get
  | has
  | var
  | letIn
  | coalesce
  | error
  | string
  | number
  | boolean
  | object
  | array
  | parseColor
  | not
  | case
  | select
  | curve
deriving DecidableEq

namespace Operator

def all : List Operator :=
  [.literal, .zoom, .get, .has, .var, .letIn, .coalesce, .error, .string, .number, .boolean,
    .object, .array, .parseColor, .not, .case, .select, .curve]

def tag : Operator → String
  | .literal => "literal"
  | .zoom => "zoom"
  | .get => "get"
  | .has => "has"
  | .var => "var"
  | .letIn => "let"
  | .coalesce => "coalesce"
  | .error => "error"
  | .string => "string"
  | .number => "number"
  | .boolean => "boolean"
  | .object => "object"
  | .array => "array"
  | .parseColor => "parse-color"
  | .not => "!"
  | .case => "case"
  | .select => "match"
  | .curve => "curve"

def ofTag? (tag : String) : Option Operator :=
  all.find? fun op => op.tag = tag

def arity : Operator → Arity
  | .zoom => .exactly 0
  | .literal | .get | .var | .error | .parseColor | .not => .exactly 1
  | .has => .between 1 (some 2)
  | .array => .between 1 (some 3)
  | .coalesce | .string | .number | .boolean | .object => .between 1 none
  | .letIn | .case => .between 3 none
  | .select | .curve => .between 4 none

@[simp] theorem ofTag?_tag (op : Operator) : ofTag? op.tag = some op := by
  cases op <;> decide

theorem tag_injective {op op' : Operator} (same : op.tag = op'.tag) : op = op' := by
  have known := ofTag?_tag op
  rw [same,ofTag?_tag] at known
  exact (Option.some.inj known).symm

end Operator

end MapStyle
