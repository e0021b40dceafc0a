import MapStyle.Proofs.Bounds.Readers
import MapStyle.Proofs.Reading.Relocation
import MapStyle.Proofs.Reading.Reports
import MapStyle.Proofs.Reading.Turns

-- What a let makes of a name whose value could not be read. To the later values and to the
-- body it is a name of a value of unknown type, so they report what they would report if it
-- were one.

namespace MapStyle

open Reading Attempt

def Json.letIn (bindings : List (Json × Json)) (body : Json) : Json :=
  .arr (.str Operator.letIn.tag :: (bindings.flatMap fun b => [b.1, b.2]) ++ [body])

abbrev Operand.pairs (bindings : List (Json × Json)) : List (Operand × Operand) :=
  bindings.map fun b => (Operand.of b.1, Operand.of b.2)

namespace Attempt

variable {α β γ : Type}

theorem pure_both (xs : Attempt (List α × β)) :
    (((pure [] : Attempt (List α)).both xs).andThen fun (first, others, y) =>
      pure (first ++ others, y)) = xs := by
  obtain ⟨value?, errors⟩ := xs
  cases value? <;> simp [both,andThen]

theorem cons_both (a : Attempt α) (wrap : α → β) (rest : Attempt (List β))
    (after : Attempt (List β × γ)) :
    (a.both ((rest.both after).andThen fun (first, others, y) => pure (first ++ others, y))).andThen
        (fun (x, xs, y) => pure (wrap x :: xs, y)) =
      (((a.andThen fun x => pure (wrap x)).cons rest).both after).andThen
        fun (first, others, y) => pure (first ++ others, y) := by
  obtain ⟨value?, errors⟩ := a
  obtain ⟨values?, errors'⟩ := rest
  obtain ⟨last?, errors''⟩ := after
  cases value? <;> cases values? <;> cases last? <;> simp [cons,both,andThen]

end Attempt

namespace Reading

def bindEach : Context → Nat → List (Operand × Operand) → Context × Attempt (List (Binding Expr))
  | ctx, _, [] => (ctx, pure [])
  | ctx, position, (name, value) :: rest =>
      let name := bindingName ctx position name.raw
      let value := value.readFreeAt ctx (position + 1)
      let (place, others) := bindEach (bindName ctx position name value) (position + 2) rest
      (place, ((name.both value).andThen fun (n, v) => pure ⟨n, v⟩).cons others)

@[simp] theorem bindName_expected {ctx : Context} {position : Nat} {name : Attempt String}
    {value : Attempt Expr} : (bindName ctx position name value).expected = ctx.expected := by
  unfold bindName
  split
  · rfl
  · rfl

@[simp] theorem bindEach_expected (ctx : Context) (position : Nat) (pairs : List (Operand × Operand)) :
    (bindEach ctx position pairs).1.expected = ctx.expected := by
  induction pairs generalizing ctx position with
  | nil => rfl
  | cons p rest ih => exact (ih _ _).trans bindName_expected

theorem bindingsThen_append (ctx : Context) (position : Nat) (body : Operand)
    (before after : List (Operand × Operand)) :
    bindingsThen ctx position body (before ++ after) =
      ((bindEach ctx position before).2.both
        (bindingsThen (bindEach ctx position before).1 (position + 2 * before.length) body
          after)).andThen
          fun (bs, bs', e) => pure (bs ++ bs', e) := by
  induction before generalizing ctx position with
  | nil => exact (pure_both _).symm
  | cons p rest ih =>
      have onward : position + 2 * (p :: rest).length = position + 2 + 2 * rest.length := by
        rw [List.length_cons]
        omega
      rw [onward]
      simp only [List.cons_append,bindingsThen,bindEach]
      rw [ih]
      exact cons_both _ (fun named : String × Expr => (⟨named.1, named.2⟩ : Binding Expr)) _ _

theorem bindingsThen_errors (ctx : Context) (position : Nat) (body : Operand)
    (before after : List (Operand × Operand)) :
    (bindingsThen ctx position body (before ++ after)).errors =
      (bindEach ctx position before).2.errors ++
        (bindingsThen (bindEach ctx position before).1 (position + 2 * before.length) body
          after).errors := by
  simp [bindingsThen_append]

end Reading

namespace Expr

theorem operands_pairs (bindings : List (Json × Json)) (body : Json) :
    pairsAndLast? (operands ((bindings.flatMap fun b => [b.1, b.2]) ++ [body])) =
      some (Operand.pairs bindings, Operand.of body) := by
  rw [pairsAndLast?_eq_some,operands_eq,List.map_append,List.map_flatMap,List.flatMap_map]
  rfl

theorem read_letIn {bindings : List (Json × Json)} (nonempty : bindings ≠ []) (body : Json)
    (ctx : Context) :
    Expr.read (.letIn bindings body) ctx =
      (bindingsThen ctx 1 (Operand.of body) (Operand.pairs bindings)).andThen fun (bs, b) =>
        ctx.check (ctx.expr b.type (.letIn bs b)) := by
  let args : List Json := (bindings.flatMap fun b => [b.1, b.2]) ++ [body]
  have counted : Operator.letIn.arity.fault? (args.length + 1) = none := by
    refine Arity.fault?_between.mpr ⟨?_, nofun⟩
    have filled := List.length_pos_iff.mpr nonempty
    rw [List.length_append,pairs_length]
    exact Nat.succ_le_succ (Nat.mul_le_mul_left 2 filled)
  have applied : application ctx (.str Operator.letIn.tag) (operands args) =
      letIn ctx (operands args) := by
    simp [application,counted,operator]
  show (application ctx (.str Operator.letIn.tag) (operands args)).andThen ctx.check = _
  rw [applied,letIn,operands_pairs]
  exact wrapped_andThen _ (fun read : List (Binding Expr) × Expr =>
    ctx.expr read.2.type (.letIn read.1 read.2)) ctx.check

theorem letIn_checked {ctx : Context} {position : Nat} {pairs : List (Operand × Operand)}
    {body : Json} {read : List (Binding Expr) × Expr} (node : Node Expr)
    (found : (bindingsThen ctx position (Operand.of body) pairs).value? = some read) :
    ctx.check (ctx.expr read.2.type node) = pure (ctx.expr read.2.type node) := by
  have parts := bindingsThen_append ctx position (Operand.of body) pairs []
  rw [List.append_nil] at parts
  rw [parts,value?_andThen] at found
  obtain ⟨⟨bs, bs', b⟩, both, made⟩ := Option.bind_eq_some_iff.mp found
  obtain rfl := Option.some.inj made
  obtain ⟨_, _, rest⟩ := Option.bind_eq_some_iff.mp both
  obtain ⟨_, last, same⟩ := Option.map_eq_some_iff.mp rest
  rw [bindingsThen,bind_eq,value?_andThen] at last
  obtain ⟨b', value, made⟩ := Option.bind_eq_some_iff.mp last
  obtain rfl := Option.some.inj made
  obtain ⟨rfl, rfl, rfl⟩ := by simpa using same
  have silent := (read_honest body _).silent value
  refine (ctx.check_eq_pure).mpr ⟨rfl, ?_⟩
  intro type expected
  refine (Expr.read_eq_pure.mp silent).2 type ?_
  show (none.or (bindEach ctx position pairs).1.expected) = _
  rw [bindEach_expected]
  exact expected

theorem read_letIn_errors {bindings : List (Json × Json)} (nonempty : bindings ≠ []) (body : Json)
    (ctx : Context) :
    (Expr.read (.letIn bindings body) ctx).errors =
      (bindingsThen ctx 1 (Operand.of body) (Operand.pairs bindings)).errors := by
  rw [read_letIn nonempty,andThen]
  split
  · rename_i read found
    dsimp only
    rw [letIn_checked _ found]
    exact List.append_nil _
  · rfl

-- A name whose value could not be read is of unknown type, as one with a property for its
-- value is. What is read after it cannot tell the two apart.
theorem bindName_alike (ctx : Context) (position : Nat) (name : String) {value value' : Attempt Expr}
    {e : Expr} (failed : value.value? = none) (read : value'.value? = some e)
    (unknown : e.type = .unknown) :
    (bindName ctx position (pure name) value).Further []
      (bindName ctx position (pure name) value') := by
  simpa [bindName,failed,read] using ctx.further_refl.bind name unknown

theorem bindingsThen_alike {ctx ctx' : Context} (alike : ctx.Further [] ctx') (position : Nat)
    (bindings : List (Json × Json)) (body : Json) :
    (bindingsThen ctx' position (Operand.of body) (Operand.pairs bindings)).errors =
      (bindingsThen ctx position (Operand.of body) (Operand.pairs bindings)).errors := by
  have moves : ∀ j, (Operand.of j).Moves [] := fun j _ _ there => Expr.read_moved j there
  have each : ∀ p ∈ Operand.pairs bindings, p.1.Moves [] ∧ p.2.Moves [] := by
    intro p member
    obtain ⟨b, _, rfl⟩ := List.mem_map.mp member
    exact ⟨moves b.1, moves b.2⟩
  rw [bindingsThen_moved alike each (moves body)]
  exact List.map_id _

-- The place that these bindings leave a let at, and what it has reported by then.

def boundPlace (ctx : Context) (bindings : List (Json × Json)) : Context :=
  (bindEach ctx 1 (Operand.pairs bindings)).1

def boundErrors (ctx : Context) (bindings : List (Json × Json)) : List ParseError :=
  (bindEach ctx 1 (Operand.pairs bindings)).2.errors

def valuePlace (ctx : Context) (bindings : List (Json × Json)) : Context :=
  (boundPlace ctx bindings).deriveUnconstrained (.index (2 * bindings.length + 2))

theorem read_letIn_binding {before after : List (Json × Json)} {name : String} {value body : Json}
    {ctx : Context} (valid : isName name = true) :
    (Expr.read (.letIn (before ++ (.str name, value) :: after) body) ctx).errors =
      boundErrors ctx before ++ (Expr.read value (valuePlace ctx before)).errors ++
        (bindingsThen
          (bindName (boundPlace ctx before) (2 * before.length + 1) (pure name)
            (Expr.read value (valuePlace ctx before)))
          (2 * before.length + 3) (Operand.of body) (Operand.pairs after)).errors := by
  have named : ∀ place position, bindingName place position (.str name) = pure name := by
    intro place position
    exact bindingName_eq_pure.mpr ⟨rfl, valid⟩
  have filled : before ++ (.str name, value) :: after ≠ [] := by simp
  have position : 1 + 2 * (Operand.pairs before).length = 2 * before.length + 1 := by
    rw [List.length_map]
    omega
  have parts : Operand.pairs (before ++ (.str name, value) :: after) =
      Operand.pairs before ++ (Operand.of (.str name), Operand.of value) :: Operand.pairs after :=
    List.map_append
  rw [read_letIn_errors filled,parts,bindingsThen_errors,position,List.append_assoc]
  refine congrArg (boundErrors ctx before ++ ·) ?_
  simp [bindingsThen,Operand.of,named]
  rfl

theorem read_letIn_failing {before after : List (Json × Json)} {name : String} {value body : Json}
    {ctx : Context} (valid : isName name = true)
    (failed : (Expr.read value (valuePlace ctx before)).value? = none) (key : String) :
    ∃ later,
      (Expr.read (.letIn (before ++ (.str name, value) :: after) body) ctx).errors =
        boundErrors ctx before ++ (Expr.read value (valuePlace ctx before)).errors ++ later ∧
      (Expr.read (.letIn (before ++ (.str name, .arr [.str "get", .str key]) :: after) body)
        ctx).errors = boundErrors ctx before ++ later := by
  let place := valuePlace ctx before
  let text := constant (place.derive (.index 1) (some .string)) (.str key)
  have property : Expr.read (.arr [.str "get", .str key]) (valuePlace ctx before) =
      pure (place.expr .unknown (.get text)) :=
    (Expr.read_operator_eq_pure .get [.str key] rfl).mpr ⟨get_eq_pure.mpr ⟨text, rfl, rfl⟩, nofun⟩
  have alike := bindName_alike (boundPlace ctx before) (2 * before.length + 1) name failed
    (congrArg Attempt.value? property) rfl
  refine ⟨_, read_letIn_binding valid, ?_⟩
  rw [read_letIn_binding valid,bindingsThen_alike alike,property]
  simp

theorem read_letIn_failing_nested :
    let unusable : Json × Json := (.str "a-b", .arr [.str "nope"])
    let bogus : Json := .arr [.str "number", .arr [.str "bogus"]]
    let x : Json := .arr [.str "var", .str "x"]
    let again : Json × Json := (.str "z", .letIn [(.str "x", .str "text")] (.arr [.str "!", x]))
    let body : Json := .arr [.str "curve", .arr [.str "step"], x, .num (.int 0 (by decide)),
      .arr [.str "var", .str "y"]]
    let ctx := Context.root (some .number) none
    let data (value : Json) : Json := .letIn ([unusable] ++ (.str "x", value) :: [again]) body
    isName "x" = true ∧ (Expr.read bogus (valuePlace ctx [unusable])).value? = none ∧
      boundErrors ctx [unusable] =
        [⟨[.index 1], .nameCharacters⟩, ⟨[.index 2, .index 0], .unknownOperator "nope"⟩] ∧
      (Expr.read (data bogus) ctx).errors = boundErrors ctx [unusable] ++
        ⟨[.index 4, .index 1, .index 0], .unknownOperator "bogus"⟩ ::
          [⟨[.index 6, .index 3, .index 1], .typeMismatch .boolean .string⟩,
            ⟨[.index 7, .index 4, .index 1], .unknownVariable "y"⟩] ∧
      ∃ later,
        (Expr.read (data bogus) ctx).errors = boundErrors ctx [unusable] ++
          (Expr.read bogus (valuePlace ctx [unusable])).errors ++ later ∧
        (Expr.read (data (.arr [.str "get", .str "x"])) ctx).errors =
          boundErrors ctx [unusable] ++ later := by
  intro unusable bogus x again body ctx data
  have failed : (Expr.read bogus (valuePlace ctx [unusable])).value? = none := rfl
  exact ⟨by decide, failed, rfl, rfl, read_letIn_failing (by decide) failed "x"⟩

end Expr

end MapStyle
