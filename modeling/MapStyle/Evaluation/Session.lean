import MapStyle.Ty.Data
import MapStyle.Value.Basic

namespace MapStyle

inductive EvalError where
  | typeMismatch (expected found : Ty)
  | missingProperty (name : String)
  | missingZoom
  | unboundVariable (name : String)
  | invalidColor (text : String)
  | nanCurveInput
  | noStops
  | thrown (message : String)
deriving DecidableEq

namespace EvalError

def message : EvalError → String
  | .typeMismatch expected found =>
      "Expected value to be of type " ++ expected.text ++ ", but found " ++ found.text ++ " instead."
  | .missingProperty name => "Property \"" ++ name ++ "\" not found."
  | .missingZoom => "The \"zoom\" expression requires a zoom level."
  | .unboundVariable name => "Unknown variable \"" ++ name ++ "\"."
  | .invalidColor text => "Could not parse color from value '" ++ text ++ "'."
  | .nanCurveInput => "Curve input is not a number."
  | .noStops => "Curve has no stops."
  | .thrown message => message

end EvalError

structure Variables where
  -- The top of the stack comes first.
  entries : List (String × Value)

namespace Variables

def empty : Variables := ⟨[]⟩

def push (vars : Variables) (name : String) (value : Value) : Variables :=
  ⟨(name, value) :: vars.entries⟩

def get? (vars : Variables) (name : String) : Option Value :=
  vars.entries.lookup name

def size (vars : Variables) : Nat :=
  vars.entries.length

def isEmpty (vars : Variables) : Bool :=
  vars.entries.isEmpty

def truncate (vars : Variables) (size : Nat) : Variables :=
  ⟨vars.entries.drop (vars.size - size)⟩

@[simp] theorem size_push (vars : Variables) (name : String) (value : Value) :
    (vars.push name value).size = vars.size + 1 := rfl

@[simp] theorem truncate_append (pushed : List (String × Value)) (vars : Variables) :
    Variables.truncate ⟨pushed ++ vars.entries⟩ vars.size = vars := by
  simp [truncate,size]

end Variables

-- Evaluation sessions: what an expression may ask of its surroundings, and what it
-- leaves behind.
--
-- The zoom and the feature are given. The variables are pushed and taken off as scopes
-- are entered and left. Every name asked of the feature is noted, so that a renderer
-- can tell what a style depends on.

abbrev Feature := String → Option Json

def Feature.ofMembers (members : List (String × Json)) : Feature :=
  fun name => members.lookup name

structure Session where
  zoom : Option Float
  feature : Option Feature
  «variables» : Variables
  -- Names asked of the feature, in order and with repetitions.
  reads : List String

def Session.start (zoom : Option Float) (feature : Option Feature) : Session where
  zoom := zoom
  feature := feature
  «variables» := .empty
  reads := []

abbrev Session.withVariables (s : Session) (vars : Variables) : Session :=
  { s with «variables» := vars }

def Eval (α : Type) : Type :=
  Session → Except EvalError α × Session

namespace Eval

variable {α β : Type}

def andThen (a : Eval α) (next : α → Eval β) : Eval β := fun s =>
  match a s with
  | (.ok x, s') => next x s'
  | (.error e, s') => (.error e, s')

instance : Monad Eval where
  pure x := fun s => (.ok x, s)
  bind := andThen

def fail (e : EvalError) : Eval α := fun s => (.error e, s)

@[simp] theorem pure_apply (x : α) (s : Session) : (pure x : Eval α) s = (.ok x, s) := rfl

@[simp] theorem fail_apply (e : EvalError) (s : Session) : (fail e : Eval α) s = (.error e, s) := rfl

@[simp] theorem bind_apply (a : Eval α) (next : α → Eval β) (s : Session) :
    (a >>= next) s = match a s with
      | (.ok x, s') => next x s'
      | (.error e, s') => (.error e, s') := rfl

def ofExcept (result : Except EvalError α) : Eval α := fun s => (result, s)

def zoom : Eval Float := fun s =>
  match s.zoom with
  | some z => (.ok z, s)
  | none => (.error .missingZoom, s)

def property (name : String) : Eval (Option Json) := fun s =>
  match s.feature with
  | some feature => (.ok (feature name), { s with reads := s.reads ++ [name] })
  | none => (.ok none, s)

def lookup (name : String) : Eval Value := fun s =>
  match s.variables.get? name with
  | some v => (.ok v, s)
  | none => (.error (.unboundVariable name), s)

def push (name : String) (value : Value) : Eval Unit := fun s =>
  (.ok (), s.withVariables (s.variables.push name value))

@[simp] theorem push_apply (name : String) (value : Value) (s : Session) :
    push name value s = (.ok (), s.withVariables (s.variables.push name value)) := rfl

def inScope (a : Eval α) : Eval α := fun s =>
  let (result, s') := a s
  (result, s'.withVariables (s'.variables.truncate s.variables.size))

end Eval

end MapStyle
