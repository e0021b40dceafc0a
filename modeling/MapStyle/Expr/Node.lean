import MapStyle.Json
import MapStyle.Value.Basic

namespace MapStyle

inductive Step where
  | key (name : String)
  | index (position : Nat)
deriving DecidableEq

abbrev Path := List Step

namespace Path

def child (path : Path) (step : Step) : Path := path ++ [step]

def tailText : Path → String
  | [] => ""
  | .index i :: rest => "[" ++ toString i ++ "]" ++ tailText rest
  | .key k :: rest => "." ++ k ++ tailText rest

def text : Path → String
  | .key k :: rest => k ++ tailText rest
  | path => tailText path

end Path

inductive Interpolation where
  | step
  | linear
  | exponential (base : Float)

namespace Interpolation

def equals : Interpolation → Interpolation → Bool
  | .step, .step => true
  | .linear, .linear => true
  | .exponential a, .exponential b => a == b
  | _, _ => false

instance : BEq Interpolation := ⟨equals⟩

def isStep : Interpolation → Bool
  | .step => true
  | _ => false

def ofJson? : Json → Option Interpolation
  | .arr [.str "step"] => some .step
  | .arr [.str "linear"] => some .linear
  | .arr [.str "exponential", base] => (base.float?).map .exponential
  | _ => none

def toJson : Interpolation → Json
  | .step => .arr [.str "step"]
  | .linear => .arr [.str "linear"]
  | .exponential base => .arr [.str "exponential", .ofFloat base]

-- The fraction of the way from `lower` to `upper` at which `input` lies, after easing.
-- Two equal bounds leave no way to go.
def factor (interpolation : Interpolation) (input lower upper : Float) : Float :=
  let difference := upper - lower
  let progress := input - lower
  if difference == 0 then 0
  else
    match interpolation with
    | .exponential base =>
        if base == 1 then progress / difference
        else (base.pow progress - 1) / (base.pow difference - 1)
    | _ => progress / difference

end Interpolation

-- One node of an expression, over any type `α` that stands for its sub-expressions.
-- What is said of nodes one layer at a time (evaluation, the written form, equality)
-- is said here for every `α`; the tree ties the knot.

structure Binding (α : Type) where
  name : String
  value : α

structure Branch (α : Type) where
  condition : α
  output : α

structure Arm (α : Type) where
  labels : List Value
  output : α

structure Stop (α : Type) where
  input : Float
  output : α

inductive Node (α : Type) where
  | literal (value : Value)
  | zoom
  | get (name : α)
  | has (key : α)
  | hasIn (key object : α)
  | var (name : String)
  | letIn (bindings : List (Binding α)) (body : α)
  | coalesce (args : List α)
  | throw (message : String)
  | assert (type : Ty) (args : List α)
  | assertArray (item : Ty) (length : Option Nat) (input : α)
  | parseColor (input : α)
  | not (input : α)
  | case (branches : List (Branch α)) (otherwise : α)
  | select (input : α) (arms : List (Arm α)) (otherwise : α)
  | curve (interpolation : Interpolation) (input : α) (stops : List (Stop α))

namespace Node

variable {α β : Type}

def map (f : α → β) : Node α → Node β
  | .literal v => .literal v
  | .zoom => .zoom
  | .get name => .get (f name)
  | .has key => .has (f key)
  | .hasIn key object => .hasIn (f key) (f object)
  | .var name => .var name
  | .letIn bindings body => .letIn (bindings.map fun b => ⟨b.name, f b.value⟩) (f body)
  | .coalesce args => .coalesce (args.map f)
  | .throw message => .throw message
  | .assert type args => .assert type (args.map f)
  | .assertArray item length input => .assertArray item length (f input)
  | .parseColor input => .parseColor (f input)
  | .not input => .not (f input)
  | .case branches otherwise =>
      .case (branches.map fun b => ⟨f b.condition, f b.output⟩) (f otherwise)
  | .select input arms otherwise =>
      .select (f input) (arms.map fun a => ⟨a.labels, f a.output⟩) (f otherwise)
  | .curve interpolation input stops =>
      .curve interpolation (f input) (stops.map fun s => ⟨s.input, f s.output⟩)

def children : Node α → List α
  | .literal _ | .zoom | .var _ | .throw _ => []
  | .get name => [name]
  | .has key => [key]
  | .hasIn key object => [key, object]
  | .letIn bindings body => bindings.map Binding.value ++ [body]
  | .coalesce args => args
  | .assert _ args => args
  | .assertArray _ _ input => [input]
  | .parseColor input => [input]
  | .not input => [input]
  | .case branches otherwise => (branches.flatMap fun b => [b.condition, b.output]) ++ [otherwise]
  | .select input arms otherwise => input :: arms.map Arm.output ++ [otherwise]
  | .curve _ input stops => input :: stops.map Stop.output

@[simp] theorem children_map (f : α → β) (node : Node α) :
    (node.map f).children = node.children.map f := by
  cases node <;> simp [map,children,List.map_flatMap,List.flatMap_map]

def asksZoom : Node α → Bool
  | .zoom => true
  | _ => false

def asksFeature : Node α → Bool
  | .get _ => true
  | .has _ => true
  | _ => false

def agreeAll (agree : α → β → Bool) : List α → List β → Bool
  | [], [] => true
  | a :: as, b :: bs => agree a b && agreeAll agree as bs
  | _, _ => false

def agrees (same : α → β → Bool) : Node α → Node β → Bool
  | .literal v, .literal w => v == w
  | .zoom, .zoom => true
  | .get a, .get b => same a b
  | .has a, .has b => same a b
  | .hasIn a x, .hasIn b y => same a b && same x y
  | .var a, .var b => a == b
  | .letIn as x, .letIn bs y =>
      agreeAll (fun a b => a.name == b.name && same a.value b.value) as bs && same x y
  | .coalesce as, .coalesce bs => agreeAll same as bs
  | .throw a, .throw b => a == b
  | .assert s as, .assert t bs => s == t && agreeAll same as bs
  | .assertArray s n x, .assertArray t m y => s == t && n == m && same x y
  | .parseColor x, .parseColor y => same x y
  | .not x, .not y => same x y
  | .case as x, .case bs y =>
      agreeAll (fun a b => same a.condition b.condition && same a.output b.output) as bs && same x y
  | .select v as x, .select w bs y =>
      same v w &&
        agreeAll (fun a b => a.labels == b.labels && same a.output b.output) as bs && same x y
  | .curve i x as, .curve j y bs =>
      i == j && same x y &&
        agreeAll (fun a b => a.input == b.input && same a.output b.output) as bs
  | _, _ => false

end Node

end MapStyle
