import MapStyle.Reading.Problem
import MapStyle.Expr.Basic
import MapStyle.Json

-- Attempts to read something. All problems of a style are reported at once, so an
-- attempt keeps the problems it came upon whether or not it has a value, and a failed
-- part need not end the reading of the parts beside it.

namespace MapStyle

structure Attempt (α : Type) where
  value? : Option α
  errors : List ParseError

namespace Attempt

variable {α β : Type}

def andThen (a : Attempt α) (next : α → Attempt β) : Attempt β :=
  match a.value? with
  | some x =>
      let b := next x
      ⟨b.value?, a.errors ++ b.errors⟩
  | none => ⟨none, a.errors⟩

instance : Monad Attempt where
  pure x := ⟨some x, []⟩
  bind := andThen

def both (a : Attempt α) (b : Attempt β) : Attempt (α × β) where
  value? := a.value?.bind fun x => b.value?.map fun y => (x, y)
  errors := a.errors ++ b.errors

def cons (a : Attempt α) (rest : Attempt (List α)) : Attempt (List α) :=
  (a.both rest).andThen fun (x, xs) => pure (x :: xs)

def all : List (Attempt α) → Attempt (List α)
  | [] => pure []
  | a :: as => a.cons (all as)

theorem bind_eq (a : Attempt α) (next : α → Attempt β) : a >>= next = a.andThen next := rfl

@[simp] theorem value?_pure (x : α) : (pure x : Attempt α).value? = some x := rfl

@[simp] theorem errors_pure (x : α) : (pure x : Attempt α).errors = [] := rfl

@[simp] theorem value?_andThen (a : Attempt α) (next : α → Attempt β) :
    (a.andThen next).value? = a.value?.bind fun x => (next x).value? := by
  cases h : a.value? <;> simp [andThen,h]

@[simp] theorem errors_andThen_pure (a : Attempt α) (f : α → β) :
    (a.andThen fun x => pure (f x)).errors = a.errors := by
  unfold andThen
  split
  · exact List.append_nil _
  · rfl

@[simp] theorem errors_both (a : Attempt α) (b : Attempt β) :
    (a.both b).errors = a.errors ++ b.errors :=
  rfl

@[simp] theorem errors_cons (a : Attempt α) (rest : Attempt (List α)) :
    (a.cons rest).errors = a.errors ++ rest.errors :=
  errors_andThen_pure (a.both rest) _

end Attempt

-- What a reader knows of the place it reads at: the path there, the type expected
-- there, and the names bound around it.
structure Context where
  path : Path
  expected : Option Ty
  -- Innermost bindings first, so that they hide the outer ones of the same name.
  scope : List (String × Expr)

namespace Context

def root (expected : Option Ty) (key : Option String) : Context where
  path := (key.map Step.key).toList
  expected := expected
  scope := []

def bindAll (ctx : Context) (bindings : List (String × Expr)) : Context :=
  { ctx with scope := bindings.reverse ++ ctx.scope }

def bind (ctx : Context) (name : String) (value : Expr) : Context :=
  { ctx with scope := (name, value) :: ctx.scope }

-- A place inside. Without an expectation of its own it takes the one around it.
def derive (ctx : Context) (step : Step) (expected : Option Ty) : Context :=
  { ctx with path := ctx.path.child step, expected := expected.or ctx.expected }

def deriveUnconstrained (ctx : Context) (step : Step) : Context :=
  { ctx with path := ctx.path.child step, expected := none }

def lookup? (ctx : Context) (name : String) : Option Expr :=
  ctx.scope.lookup name

def fail {α : Type} (ctx : Context) (problem : Problem) : Attempt α :=
  ⟨none, [⟨ctx.path, problem⟩]⟩

def failAt {α : Type} (ctx : Context) (position : Nat) (problem : Problem) : Attempt α :=
  ⟨none, [⟨ctx.path.child (.index position), problem⟩]⟩

def expr (ctx : Context) (type : Ty) (node : Node Expr) : Expr :=
  ⟨ctx.path, type, node⟩

def check (ctx : Context) (e : Expr) : Attempt Expr :=
  match ctx.expected with
  | none => pure e
  | some expected =>
      if expected.accepts e.type then pure e else ctx.fail (.typeMismatch expected e.type)

end Context

-- Operands of an operator: each is data, and can be read as an expression in a
-- context. The readers of the single operators work on lists of these and need no
-- recursion through the data.

structure Operand where
  raw : Json
  read : Context → Attempt Expr

def pairs? {α : Type} : List α → Option (List (α × α))
  | [] => some []
  | [_] => none
  | a :: b :: rest => (pairs? rest).map ((a, b) :: ·)

def pairsAndLast? {α : Type} : List α → Option (List (α × α) × α)
  | [] => none
  | [last] => some ([], last)
  | a :: b :: rest => (pairsAndLast? rest).map fun (pairs, last) => ((a, b) :: pairs, last)

theorem pairs?_isSome_iff {α : Type} (xs : List α) :
    (pairs? xs).isSome ↔ xs.length % 2 = 0 := by
  fun_induction pairs? xs with
  | case1 => simp
  | case2 => simp
  | case3 a b rest ih => simp [ih]; omega

theorem pairsAndLast?_isSome_iff {α : Type} (xs : List α) :
    (pairsAndLast? xs).isSome ↔ xs.length % 2 = 1 := by
  fun_induction pairsAndLast? xs with
  | case1 => simp
  | case2 => simp
  | case3 a b rest ih => simp [ih]; omega

namespace Operand

def readAt (o : Operand) (ctx : Context) (position : Nat) (expected : Option Ty) : Attempt Expr :=
  o.read (ctx.derive (.index position) expected)

def readFreeAt (o : Operand) (ctx : Context) (position : Nat) : Attempt Expr :=
  o.read (ctx.deriveUnconstrained (.index position))

end Operand

end MapStyle
