import MapStyle.Proofs.Reading.Operators
import MapStyle.Proofs.RoundTrip.Data

-- Reading by position. Here the readers have the whole array, the tag with its operands,
-- and reach for elements at positions that they count for themselves. To reach past the
-- end, or to take more from a count than there is, has no outcome. Nothing read by
-- position comes to that; all comes to the same as with the operands taken apart.

namespace MapStyle

def minus? (count k : Nat) : Option Nat :=
  if k ≤ count then some (count - k) else none

def alternate (first last : Nat) : List Nat :=
  List.range' first ((last - first + 1) / 2) 2

structure Element where
  raw : Json
  read : Context → Option (Attempt Expr)

namespace Element

def readAt (e : Element) (ctx : Context) (position : Nat) (expected : Option Ty) :
    Option (Attempt Expr) :=
  e.read (ctx.derive (.index position) expected)

def readFreeAt (e : Element) (ctx : Context) (position : Nat) : Option (Attempt Expr) :=
  e.read (ctx.deriveUnconstrained (.index position))

def ofOperand (o : Operand) : Element :=
  ⟨o.raw, fun ctx => some (o.read ctx)⟩

end Element

def Attempt.onward? {α β : Type} (a : Attempt α) (next : α → Option (Attempt β)) :
    Option (Attempt β) :=
  match a.value? with
  | some x => (next x).map fun b => ⟨b.value?, a.errors ++ b.errors⟩
  | none => some ⟨none, a.errors⟩

def Interpolation.byPosition (data : Json) : Option (Option Interpolation) :=
  match data with
  | .arr items =>
      match items.head?.bind Json.string?, items.length with
      | some "step", 1 => some (some .step)
      | some "linear", 1 => some (some .linear)
      | some "exponential", 2 => do
          let base ← items[1]?
          some (base.float?.map .exponential)
      | _, _ => some none
  | _ => some none

namespace Positional

def one (args : List Element) (read : Element → Option (Attempt Expr)) : Option (Attempt Expr) := do
  let e ← args[1]?
  read e

def oneOf (ctx : Context) (args : List Element) (expected : Ty) (wrap : Expr → Expr) :
    Option (Attempt Expr) :=
  one args fun e => do
    let operand ← e.readAt ctx 1 (some expected)
    some (operand.andThen fun x => pure (wrap x))

def has (ctx : Context) (args : List Element) : Option (Attempt Expr) := do
  let first ← args[1]?
  let key ← first.readAt ctx 1 (some .string)
  match args[2]? with
  | none => some (key.andThen fun key => pure (ctx.expr .boolean (.has key)))
  | some second => do
      let object ← second.readAt ctx 2 (some .object)
      some ((key.both object).andThen fun (key, object) =>
        pure (ctx.expr .boolean (.hasIn key object)))

def bindings (args : List Element) (last : Nat) :
    Context → List Nat → Option (Attempt (List (Binding Expr) × Expr))
  | ctx, [] => do
      let body ← args[last]?
      let body ← body.readAt ctx last none
      some (body.andThen fun body => pure ([], body))
  | ctx, i :: rest => do
      let name ← args[i]?
      let name := Reading.bindingName ctx i name.raw
      let value ← args[i + 1]?
      let value ← value.readFreeAt ctx (i + 1)
      let inner ← bindings args last (Reading.bindName ctx i name value) rest
      some (((name.both value).both inner).andThen fun ((n, v), (bindings, body)) =>
        pure (⟨n, v⟩ :: bindings, body))

def letIn (ctx : Context) (args : List Element) : Option (Attempt Expr) :=
  if args.length % 2 ≠ 0 then do
    let found ← minus? args.length 1
    some (ctx.fail (.evenLetOperands found))
  else do
    let last ← minus? args.length 1
    let parts ← bindings args last ctx (alternate 1 last)
    some (parts.andThen fun (bindings, body) => pure (ctx.expr body.type (.letIn bindings body)))

def agreed (ctx : Context) (common : Reading.Common) (position : Nat) (attempt : Attempt Expr) :
    Reading.Common × Attempt Expr :=
  match attempt.value? with
  | none => (common, attempt)
  | some e =>
      match common.add e.type with
      | .ok both => (some both, attempt)
      | .error (known, found) =>
          (common, attempt.andThen fun _ => ctx.failAt position (.typeMismatch known found))

def output (ctx : Context) (common : Reading.Common) (position : Nat) (e : Element) :
    Option (Reading.Common × Attempt Expr) := do
  let attempt ← e.readAt ctx position common.expectation
  some (agreed ctx common position attempt)

def alternatives (ctx : Context) :
    Reading.Common → Nat → List Element → Option (Reading.Common × Attempt (List Expr))
  | common, _, [] => some (common, pure [])
  | common, position, e :: rest => do
      let attempt ← e.readAt ctx position common.expectation
      match attempt.value? with
      | none => do
          let (final, others) ← alternatives ctx common (position + 1) rest
          some (final, attempt.cons others)
      | some x =>
          match common.add x.type with
          | .ok both => do
              let (final, others) ← alternatives ctx (some both) (position + 1) rest
              some (final, attempt.cons others)
          | .error (known, found) =>
              some (common,
                attempt.andThen fun _ => ctx.failAt position (.typeMismatch known found))

def coalesce (ctx : Context) (args : List Element) : Option (Attempt Expr) := do
  let _ ← minus? args.length 1
  let (common, args) ← alternatives ctx none 1 (args.drop 1)
  some (args.andThen fun args => pure (ctx.expr (common.getD .unknown) (.coalesce args)))

def each (ctx : Context) : Nat → List Element → Option (Attempt (List Expr))
  | _, [] => some (pure [])
  | position, e :: rest => do
      let first ← e.readFreeAt ctx position
      let others ← each ctx (position + 1) rest
      some (first.cons others)

def assert (type : Ty) (ctx : Context) (args : List Element) : Option (Attempt Expr) := do
  let _ ← minus? args.length 1
  let args ← each ctx 1 (args.drop 1)
  some (args.andThen fun args => pure (ctx.expr type (.assert type args)))

def array (ctx : Context) (args : List Element) : Option (Attempt Expr) := do
  let last ← minus? args.length 1
  let item ←
    if 2 ≤ last then do
      let item ← args[1]?
      some (Reading.itemType ctx item.raw)
    else some (pure .unknown)
  item.onward? fun item => do
    let length ←
      if last = 3 then do
        let length ← args[2]?
        some ((Reading.arrayLength ctx length.raw).andThen fun n => pure (some n))
      else some (pure none)
    length.onward? fun length => do
      let input ← args[last]?
      let input ← input.readFreeAt ctx last
      some (input.andThen fun input =>
        pure (ctx.expr (.array item length) (.assertArray item length input)))

def branches (ctx : Context) (args : List Element) :
    Reading.Common → List Nat → Option (Reading.Common × Attempt (List (Branch Expr)))
  | common, [] => some (common, pure [])
  | common, i :: rest => do
      let condition ← args[i]?
      let condition ← condition.readAt ctx i (some .boolean)
      let result ← args[i + 1]?
      let (common, result) ← output ctx common (i + 1) result
      let (common, others) ← branches ctx args common rest
      some (common, ((condition.both result).andThen fun (c, r) => pure ⟨c, r⟩).cons others)

def case (ctx : Context) (args : List Element) : Option (Attempt Expr) :=
  if args.length % 2 ≠ 0 then some (ctx.fail .evenOperands)
  else do
    let last ← minus? args.length 1
    let (common, branches) ← branches ctx args none (alternate 1 last)
    let otherwise ← args[last]?
    let (common, otherwise) ← output ctx common last otherwise
    some ((branches.both otherwise).andThen fun (branches, otherwise) =>
      pure (ctx.expr (common.getD .unknown) (.case branches otherwise)))

def arms (ctx : Context) (args : List Element) :
    Reading.LabelState → Reading.Common → List Nat →
      Option (Reading.LabelState × Reading.Common × Attempt (List (Arm Expr)))
  | state, common, [] => some (state, common, pure [])
  | state, common, i :: rest => do
      let label ← args[i]?
      let (state, values) := Reading.armLabels ctx i state label.raw
      let result ← args[i + 1]?
      let (common, result) ← output ctx common (i + 1) result
      let (state, common, others) ← arms ctx args state common rest
      some (state, common, ((values.both result).andThen fun (l, r) => pure ⟨l, r⟩).cons others)

def select (ctx : Context) (args : List Element) : Option (Attempt Expr) :=
  if args.length % 2 = 0 then some (ctx.fail .oddOperands)
  else do
    let last ← minus? args.length 1
    let (state, common, arms) ← arms ctx args ⟨none, []⟩ none (alternate 2 last)
    let otherwise ← args[last]?
    let (common, otherwise) ← output ctx common last otherwise
    let input ← args[1]?
    let input ←
      match state.type? with
      | some type => input.readAt ctx 1 (some type)
      | none => input.readFreeAt ctx 1
    some (((arms.both otherwise).both input).andThen fun ((arms, otherwise), input) =>
      pure (ctx.expr (common.getD .unknown) (.select input arms otherwise)))

def eased (ctx : Context) (kind : Option Interpolation) : Attempt Interpolation :=
  match kind with
  | none => ctx.failAt 1 .unknownInterpolation
  | some (.exponential base) =>
      if base.isFinite && 0 < base then pure (.exponential base)
      else ctx.failAt 1 (.interpolationBase base)
  | some other => pure other

def stops (ctx : Context) (args : List Element) :
    Reading.Common → Option Float → List Nat →
      Option (Reading.Common × Attempt (List (Stop Expr)))
  | common, _, [] => some (common, pure [])
  | common, last, i :: rest => do
      let number ← args[i]?
      match number.raw.float? with
      | none => some (common, ctx.failAt i .stopNotNumber)
      | some x =>
          if last.any fun y => x ≤ y then
            some (common, ctx.failAt i .stopsNotAscending)
          else do
            let result ← args[i + 1]?
            let (common, result) ← output ctx common (i + 1) result
            let last := if result.value?.isSome then some x else last
            let (common, others) ← stops ctx args common last rest
            some (common, (result.andThen fun e => pure ⟨x, e⟩).cons others)

def curve (ctx : Context) (args : List Element) : Option (Attempt Expr) := do
  let spare ← minus? args.length 3
  if spare % 2 ≠ 0 then some (ctx.fail .oddOperands)
  else do
    let kind ← args[1]?
    let kind ← Interpolation.byPosition kind.raw
    (eased ctx kind).onward? fun kind => do
      let input ← args[2]?
      let input ← input.readAt ctx 2 (some .number)
      let (common, stops) ← stops ctx args none none (alternate 3 args.length)
      some ((input.both stops).andThen fun (input, stops) =>
        let type := common.getD .unknown
        if kind.isStep || type.blends then pure (ctx.expr type (.curve kind input stops))
        else ctx.fail (.notInterpolatable type))

def operator (op : Operator) (ctx : Context) (args : List Element) : Option (Attempt Expr) :=
  match op with
  | .literal => one args fun e => some (pure (Reading.constant ctx e.raw))
  | .zoom => some (pure (ctx.expr .number .zoom))
  | .get => oneOf ctx args .string fun name => ctx.expr .unknown (.get name)
  | .has => has ctx args
  | .var => one args fun e => some (Reading.var ctx e.raw)
  | .letIn => letIn ctx args
  | .coalesce => coalesce ctx args
  | .error => one args fun e => some (Reading.error ctx e.raw)
  | .string => assert .string ctx args
  | .number => assert .number ctx args
  | .boolean => assert .boolean ctx args
  | .object => assert .object ctx args
  | .array => array ctx args
  | .parseColor => oneOf ctx args .string fun input => ctx.expr .color (.parseColor input)
  | .not => oneOf ctx args .boolean fun input => ctx.expr .boolean (.not input)
  | .case => case ctx args
  | .select => select ctx args
  | .curve => curve ctx args

def application (ctx : Context) (args : List Element) : Option (Attempt Expr) :=
  match args with
  | [] => some (ctx.fail .emptyArray)
  | head :: _ =>
      match head.raw with
      | .str tag =>
          match Operator.ofTag? tag with
          | none => some (ctx.failAt 0 (.unknownOperator tag))
          | some op =>
              match op.arity.fault? args.length with
              | some fault => some (ctx.fail (.operandCount fault))
              | none => operator op ctx args
      | other => some (ctx.failAt 0 (.tagNotString (Ty.ofJson other)))

end Positional

mutual
def Expr.byPosition : Json → Context → Option (Attempt Expr)
  | .arr items, ctx => do
      let e ← Positional.application ctx (Expr.elements items)
      some (e.andThen ctx.check)
  | .obj _, ctx => some (ctx.fail .bareObject)
  | .null, ctx => some (ctx.check (Reading.constant ctx .null))
  | .bool b, ctx => some (ctx.check (Reading.constant ctx (.bool b)))
  | .num n, ctx => some (ctx.check (Reading.constant ctx (.num n)))
  | .str s, ctx => some (ctx.check (Reading.constant ctx (.str s)))

def Expr.elements : List Json → List Element
  | [] => []
  | j :: js => ⟨j, fun ctx => Expr.byPosition j ctx⟩ :: Expr.elements js
end

theorem Json.string?_eq_some {data : Json} {s : String} : data.string? = some s ↔ data = .str s := by
  cases data with
  | str t => simp [Json.string?]
  | _ => simp [Json.string?]

theorem Json.single_string {items : List Json} {s : String}
    (named : items.head?.bind Json.string? = some s) (count : items.length = 1) :
    items = [.str s] := by
  obtain ⟨head, rfl⟩ := List.length_eq_one_iff.mp count
  rw [List.head?_cons,Option.bind_some,Json.string?_eq_some] at named
  rw [named]

theorem Interpolation.byPosition_eq (data : Json) :
    byPosition data = some (ofJson? data) := by
  unfold byPosition
  split
  · rename_i items
    split
    · rename_i named count
      obtain rfl := Json.single_string named count
      rfl
    · rename_i named count
      obtain rfl := Json.single_string named count
      rfl
    · rename_i named count
      match items, count with
      | [head, base], _ =>
      rw [List.head?_cons,Option.bind_some,Json.string?_eq_some] at named
      subst named
      rfl
    · rename_i step linear exponential
      unfold ofJson?
      split
      · rename_i same
        cases same
        exact (step rfl rfl).elim
      · rename_i same
        cases same
        exact (linear rfl rfl).elim
      · rename_i same
        cases same
        exact (exponential rfl rfl).elim
      · rfl
  · rename_i scalar
    unfold ofJson?
    split
    · exact (scalar _ rfl).elim
    · exact (scalar _ rfl).elim
    · exact (scalar _ rfl).elim
    · rfl

theorem Attempt.wrapped_andThen {α β γ : Type} (a : Attempt α) (wrap : α → β)
    (next : β → Attempt γ) :
    (a.andThen fun x => pure (wrap x)).andThen next = a.andThen fun x => next (wrap x) := by
  obtain ⟨value?, errors⟩ := a
  cases value? with
  | none => rfl
  | some x => simp [andThen]

open Attempt

namespace Positional

theorem onward?_some {α β : Type} {a : Attempt α} {next : α → Attempt β} :
    (a.onward? fun x => some (next x)) = some (a.andThen next) := by
  unfold onward? andThen
  cases a.value? with
  | none => rfl
  | some x => rfl

theorem minus?_eq_some {count k : Nat} (within : k ≤ count) : minus? count k = some (count - k) :=
  if_pos within

@[simp] theorem alternate_pairs (first n : Nat) : alternate first (first + 2 * n) = List.range' first n 2 := by
  have half : (first + 2 * n - first + 1) / 2 = n := by omega
  rw [alternate,half]

abbrev Stand (args : List Element) :=
  Along fun position o => args[position]? = some (Element.ofOperand o)

variable {ctx : Context} {args : List Element} {position : Nat}

theorem output_eq {o : Operand} {common : Reading.Common} :
    output ctx common position (.ofOperand o) = some (Reading.output ctx common position o) :=
  rfl

theorem alternatives_eq {operands : List Operand} {common : Reading.Common} :
    alternatives ctx common position (operands.map .ofOperand) =
      some (Reading.alternatives ctx common position operands) := by
  induction operands generalizing common position with
  | nil => rfl
  | cons o rest ih =>
      have read : (Element.ofOperand o).readAt ctx position common.expectation =
        some (o.readAt ctx position common.expectation) := rfl
      simp only [List.map_cons,alternatives,Reading.alternatives,read,Option.bind_eq_bind,
        Option.bind_some]
      cases (o.readAt ctx position common.expectation).value? with
      | none => simp only [ih,Option.bind_some]
      | some e =>
          cases added : common.add e.type with
          | ok both => simp only [added,ih,Option.bind_some]
          | error types => simp only [added]

theorem each_eq {operands : List Operand} :
    each ctx position (operands.map .ofOperand) =
      some (all ((operands.zipIdx position).map fun p => p.1.readFreeAt ctx p.2)) := by
  induction operands generalizing position with
  | nil => rfl
  | cons o rest ih =>
      simp only [List.map_cons,each,ih,List.zipIdx_cons,all]
      rfl

theorem branches_eq {pairs : List (Operand × Operand)} {common : Reading.Common}
    (stand : Stand args position (pairs.flatMap fun p => [p.1, p.2])) :
    branches ctx args common (List.range' position pairs.length 2) =
      some (Reading.branches ctx common position pairs) := by
  induction pairs generalizing common position with
  | nil => rfl
  | cons p rest ih =>
      obtain ⟨condition, stand⟩ := Along.cons_iff.mp stand
      obtain ⟨result, others⟩ := Along.cons_iff.mp stand
      rw [List.length_cons,List.range'_succ]
      simp only [branches,condition,result,output_eq,ih others,Option.bind_eq_bind,Option.bind_some]
      rfl

theorem arms_eq {pairs : List (Operand × Operand)} {state : Reading.LabelState}
    {common : Reading.Common} (stand : Stand args position (pairs.flatMap fun p => [p.1, p.2])) :
    arms ctx args state common (List.range' position pairs.length 2) =
      some (Reading.arms ctx state common position pairs) := by
  induction pairs generalizing state common position with
  | nil => rfl
  | cons p rest ih =>
      obtain ⟨label, stand⟩ := Along.cons_iff.mp stand
      obtain ⟨result, others⟩ := Along.cons_iff.mp stand
      rw [List.length_cons,List.range'_succ]
      simp only [arms,label,result,output_eq,ih others,Option.bind_eq_bind,Option.bind_some]
      rfl

theorem stops_eq {pairs : List (Operand × Operand)} {common : Reading.Common}
    {last : Option Float} (stand : Stand args position (pairs.flatMap fun p => [p.1, p.2])) :
    stops ctx args common last (List.range' position pairs.length 2) =
      some (Reading.stops ctx common last position pairs) := by
  induction pairs generalizing common last position with
  | nil => rfl
  | cons p rest ih =>
      obtain ⟨number, stand⟩ := Along.cons_iff.mp stand
      obtain ⟨result, others⟩ := Along.cons_iff.mp stand
      rw [List.length_cons,List.range'_succ]
      have raw : (Element.ofOperand p.1).raw = p.1.raw := rfl
      simp only [stops,Reading.stops,number,result,raw,output_eq,ih others,Option.bind_eq_bind,
        Option.bind_some]
      cases p.1.raw.float? with
      | none => rfl
      | some x =>
          dsimp only
          split
          · rfl
          · rfl

theorem bindings_eq {pairs : List (Operand × Operand)} {body : Operand} {last : Nat}
    (stand : Stand args position (pairs.flatMap fun p => [p.1, p.2]))
    (final : args[last]? = some (.ofOperand body)) (count : last = position + 2 * pairs.length) :
    bindings args last ctx (List.range' position pairs.length 2) =
      some (Reading.bindingsThen ctx position body pairs) := by
  induction pairs generalizing ctx position with
  | nil =>
      obtain rfl : last = position := count
      simp only [List.length_nil,List.range'_zero,bindings,final,Option.bind_eq_bind,Option.bind_some]
      rfl
  | cons p rest ih =>
      obtain ⟨name, stand⟩ := Along.cons_iff.mp stand
      obtain ⟨value, others⟩ := Along.cons_iff.mp stand
      rw [List.length_cons] at count
      have next : last = position + 2 + 2 * rest.length := by omega
      have read : (Element.ofOperand p.2).readFreeAt ctx (position + 1) =
        some (p.2.readFreeAt ctx (position + 1)) := rfl
      rw [List.length_cons,List.range'_succ]
      simp only [bindings,name,value,read,ih others next,Option.bind_eq_bind,Option.bind_some]
      rfl

section Operators

def whole (tag : Operand) (operands : List Operand) : List Element :=
  (tag :: operands).map .ofOperand

variable {tag : Operand} {operands : List Operand}

@[simp] theorem whole_length : (whole tag operands).length = operands.length + 1 := by
  rw [whole,List.length_map,List.length_cons]

@[simp] theorem whole_last : minus? (whole tag operands).length 1 = some operands.length := by
  rw [whole_length]
  exact minus?_eq_some (Nat.le_add_left 1 _)

@[simp] theorem whole_drop : (whole tag operands).drop 1 = operands.map .ofOperand :=
  rfl

theorem whole_stand (tag : Operand) (operands : List Operand) :
    Stand (whole tag operands) 1 operands := by
  refine Along.of_getElem? fun i o place => ?_
  rw [whole,List.getElem?_map,Nat.add_comm,List.getElem?_cons_succ,place]
  rfl

theorem unpaired_and_last (odd : pairsAndLast? operands = none) : operands.length % 2 = 0 := by
  have parity := pairsAndLast?_isSome_iff operands
  rw [odd] at parity
  simp only [Option.isSome_none,Bool.false_eq_true,false_iff] at parity
  omega

theorem unpaired (odd : pairs? operands = none) : operands.length % 2 = 1 := by
  have parity := pairs?_isSome_iff operands
  rw [odd] at parity
  simp only [Option.isSome_none,Bool.false_eq_true,false_iff] at parity
  omega

theorem one_eq {read : Element → Option (Attempt Expr)} {read' : Operand → Attempt Expr}
    (single : operands.length = 1) (same : ∀ o, read (.ofOperand o) = some (read' o)) :
    one (whole tag operands) read = some (Reading.withOne ctx operands read') := by
  match operands, single with
  | [o], _ => exact same o

theorem has_eq (least : 1 ≤ operands.length) (most : operands.length ≤ 2) :
    has ctx (whole tag operands) = some (Reading.operator .has ctx operands) := by
  match operands, least, most with
  | [key], _, _ => rfl
  | [key, object], _, _ => rfl

theorem letIn_eq : letIn ctx (whole tag operands) = some (Reading.letIn ctx operands) := by
  unfold letIn Reading.letIn
  rw [whole_last,whole_length]
  cases taken : pairsAndLast? operands with
  | none =>
      have even := unpaired_and_last taken
      rw [if_pos (by omega)]
      rfl
  | some parted =>
      obtain ⟨pairs, last⟩ := parted
      obtain ⟨parts, final⟩ := Along.pairs_and_last taken (whole_stand tag operands)
      have count : operands.length = 1 + 2 * pairs.length := by
        rw [pairsAndLast?_length taken,Nat.add_comm]
      rw [if_neg (by omega),count]
      simp [bindings_eq parts final rfl]
      rfl

theorem coalesce_eq : coalesce ctx (whole tag operands) = some (Reading.coalesce ctx operands) := by
  unfold coalesce
  rw [whole_last,whole_drop]
  simp only [alternatives_eq,Option.bind_eq_bind,Option.bind_some]
  rfl

theorem assert_eq {type : Ty} :
    assert type ctx (whole tag operands) = some (Reading.assert type ctx operands) := by
  unfold assert
  rw [whole_last,whole_drop]
  simp only [each_eq,Option.bind_eq_bind,Option.bind_some]
  rfl

theorem case_eq : case ctx (whole tag operands) = some (Reading.case ctx operands) := by
  unfold case Reading.case
  rw [whole_last,whole_length]
  cases taken : pairsAndLast? operands with
  | none =>
      have even := unpaired_and_last taken
      rw [if_pos (by omega)]
  | some parted =>
      obtain ⟨pairs, last⟩ := parted
      obtain ⟨parts, final⟩ := Along.pairs_and_last taken (whole_stand tag operands)
      have count : operands.length = 1 + 2 * pairs.length := by
        rw [pairsAndLast?_length taken,Nat.add_comm]
      rw [if_neg (by omega),count]
      simp [branches_eq parts,final,output_eq]

theorem select_eq (present : operands ≠ []) :
    select ctx (whole tag operands) = some (Reading.select ctx operands) := by
  cases operands with
  | nil => exact absurd rfl present
  | cons input operands =>
      unfold select Reading.select
      rw [whole_last,whole_length]
      obtain ⟨first, stand⟩ := Along.cons_iff.mp (whole_stand tag (input :: operands))
      dsimp only
      cases taken : pairsAndLast? operands with
      | none =>
          have even := unpaired_and_last taken
          rw [if_pos (by rw [List.length_cons]; omega)]
      | some parted =>
          obtain ⟨pairs, last⟩ := parted
          obtain ⟨parts, final⟩ := Along.pairs_and_last taken stand
          have count : operands.length + 1 = 2 + 2 * pairs.length := by
            rw [pairsAndLast?_length taken]
            omega
          rw [if_neg (by rw [List.length_cons]; omega),List.length_cons,count]
          simp only [Option.bind_eq_bind,Option.bind_some,alternate_pairs,arms_eq parts,final,
            output_eq,first]
          cases (Reading.arms ctx ⟨none, []⟩ none 2 pairs).1.type? with
          | none => rfl
          | some type => rfl

theorem array_eq (least : 1 ≤ operands.length) (most : operands.length ≤ 3) :
    array ctx (whole tag operands) = some (Reading.array ctx operands) := by
  match operands, least, most with
  | [input], _, _ => rfl
  | [item, input], _, _ =>
      have steps : array ctx (whole tag [item, input]) =
          (Reading.itemType ctx item.raw).onward? fun type =>
            some (Reading.arrayOf ctx type none 2 input) := rfl
      rw [steps,onward?_some]
      rfl
  | [item, length, input], _, _ =>
      have steps : array ctx (whole tag [item, length, input]) =
          (Reading.itemType ctx item.raw).onward? fun type =>
            ((Reading.arrayLength ctx length.raw).andThen fun n => pure (some n)).onward? fun n =>
              some (Reading.arrayOf ctx type n 3 input) := rfl
      simp only [steps,onward?_some,wrapped_andThen]
      rfl

theorem curve_eq (present : 2 ≤ operands.length) :
    curve ctx (whole tag operands) = some (Reading.curve ctx operands) := by
  match operands, present with
  | kind :: input :: operands, _ =>
      unfold curve Reading.curve
      obtain ⟨first, stand⟩ := Along.cons_iff.mp (whole_stand tag (kind :: input :: operands))
      obtain ⟨second, stand⟩ := Along.cons_iff.mp stand
      rw [whole_length,minus?_eq_some (by simp only [List.length_cons]; omega)]
      simp only [List.length_cons]
      have spare : operands.length + 1 + 1 + 1 - 3 = operands.length := by omega
      simp only [spare]
      cases taken : pairs? operands with
      | none =>
          have odd := unpaired taken
          simp only [Option.bind_eq_bind,Option.bind_some]
          rw [if_pos (by omega)]
      | some pairs =>
          obtain rfl := pairs?_eq_some.mp taken
          have raw : (Element.ofOperand kind).raw = kind.raw := rfl
          have count := pairs_length pairs
          have positions : (pairs.flatMap fun p => [p.1, p.2]).length + 1 + 1 + 1 =
              3 + 2 * pairs.length := by
            omega
          simp only [Option.bind_eq_bind,Option.bind_some]
          rw [if_neg (by omega),first]
          simp only [Option.bind_some,raw,Interpolation.byPosition_eq,second,positions,
            alternate_pairs,stops_eq stand]
          exact onward?_some

example : curve ctx (whole tag []) = none := rfl

theorem operator_eq {op : Operator}
    (counted : op.arity.fault? (operands.length + 1) = none) :
    operator op ctx (whole tag operands) = some (Reading.operator op ctx operands) := by
  cases op with
  | literal => exact one_eq (Arity.fault?_exactly.mp counted) fun _ => rfl
  | zoom => rfl
  | get => exact one_eq (Arity.fault?_exactly.mp counted) fun _ => rfl
  | has =>
      obtain ⟨least, most⟩ := Arity.fault?_between.mp counted
      exact has_eq least (most 2 rfl)
  | var => exact one_eq (Arity.fault?_exactly.mp counted) fun _ => rfl
  | letIn => exact letIn_eq
  | coalesce => exact coalesce_eq
  | error => exact one_eq (Arity.fault?_exactly.mp counted) fun _ => rfl
  | string | number | boolean | object => exact assert_eq
  | array =>
      obtain ⟨least, most⟩ := Arity.fault?_between.mp counted
      exact array_eq least (most 3 rfl)
  | parseColor => exact one_eq (Arity.fault?_exactly.mp counted) fun _ => rfl
  | not => exact one_eq (Arity.fault?_exactly.mp counted) fun _ => rfl
  | case => exact case_eq
  | select =>
      have least := (Arity.fault?_between.mp counted).1
      exact select_eq (List.length_pos_iff.mp (by omega))
  | curve =>
      have least := (Arity.fault?_between.mp counted).1
      exact curve_eq (by omega)

theorem application_eq {head : Operand} :
    application ctx (whole head operands) =
      some (Reading.application ctx head.raw operands) := by
  have elements : whole head operands = .ofOperand head :: operands.map .ofOperand := rfl
  have raw : (Element.ofOperand head).raw = head.raw := rfl
  unfold application Reading.application
  rw [elements]
  dsimp only
  rw [raw,← elements,whole_length]
  cases head.raw with
  | str tag =>
      dsimp only
      cases Operator.ofTag? tag with
      | none => rfl
      | some op =>
          dsimp only
          cases counted : op.arity.fault? (operands.length + 1) with
          | none => exact operator_eq counted
          | some fault => rfl
  | _ => rfl

end Operators

end Positional

-- The induction is on the data: elements are smaller, and where all of them can be read,
-- they are operands.
theorem Expr.byPosition_eq (data : Json) :
    ∀ ctx, Expr.byPosition data ctx = some (Expr.read data ctx) := by
  induction data using Json.induction with
  | arr items ih =>
      intro ctx
      have elements : Expr.elements items = (Expr.operands items).map .ofOperand := by
        induction items with
        | nil => rfl
        | cons j js rest =>
            have first : Expr.byPosition j = fun ctx => some (Expr.read j ctx) :=
              funext (ih j List.mem_cons_self)
            have others := rest fun j' member => ih j' (List.mem_cons_of_mem _ member)
            rw [Expr.elements,others,first]
            rfl
      rw [Expr.byPosition,elements]
      cases items with
      | nil => rfl
      | cons head args =>
          have applied : Positional.application ctx
              ((Expr.operands (head :: args)).map .ofOperand) =
                some (Reading.application ctx head (Expr.operands args)) :=
            Positional.application_eq
          rw [applied]
          rfl
  | _ => intro ctx; rfl

end MapStyle
