import MapStyle.Proofs.Evaluation.Visits
import MapStyle.Proofs.Reading.Recovery
import MapStyle.Proofs.Reading.Settled

-- A let is the let of its first bindings around the let of the others. The values of the
-- others and the body stand at other places there, but in the same scope; and whether two
-- scopes are left one after the other or both at once, no variable of theirs remains.

namespace MapStyle

open Eval Reading Attempt

theorem Variables.truncate_truncate (vars : Variables) {inner outer : Nat} (within : outer ≤ inner) :
    (vars.truncate inner).truncate outer = vars.truncate outer := by
  simp only [truncate,size,List.drop_drop,List.length_drop]
  congr 2
  omega

namespace Eval

def truncated {α : Type} (size : Nat) (a : Eval α) : Eval α := fun s =>
  ((a s).1, (a s).2.withVariables ((a s).2.variables.truncate size))

theorem inScope_eq {α : Type} (a : Eval α) (s : Session) :
    inScope a s = truncated s.variables.size a s := rfl

theorem bindAll_append (before after : List (Binding (Eval Value))) (body : Eval Value) :
    (do bindAll (before ++ after); body : Eval Value) =
      (do bindAll before; bindAll after; body) := by
  induction before with
  | nil => rfl
  | cons b rest ih =>
      funext s
      rw [List.cons_append,bindAll_cons,ih]
      exact (bindAll_cons b rest _ s).symm

-- The stack is never lower than the size while the bindings are made, so what a scope within
-- leaves on it is above that size.
theorem bindAll_inScope {bindings : List (Binding (Eval Value))}
    (keeps : ∀ b ∈ bindings, ∀ s, (b.value s).2.variables = s.variables) (body : Eval Value)
    {size : Nat} {s : Session} (within : size ≤ s.variables.size) :
    truncated size (do bindAll bindings; inScope body) s =
      truncated size (do bindAll bindings; body) s := by
  induction bindings generalizing s with
  | nil =>
      show truncated size (inScope body) s = truncated size body s
      simp only [truncated,inScope]
      rw [Variables.truncate_truncate _ within]
  | cons b rest ih =>
      obtain ⟨first, others⟩ := List.forall_mem_cons.mp keeps
      have stack := first s
      simp only [truncated] at ih ⊢
      rw [bindAll_cons,bindAll_cons]
      cases evaluated : b.value s with
      | mk result s' =>
          rw [evaluated] at stack
          cases result with
          | error e => rfl
          | ok v =>
              refine ih others ?_
              rw [Variables.size_push,stack]
              exact Nat.le_succ_of_le within

end Eval

theorem Expr.eval_node {node node' : Node Expr} (same : node.map Expr.eval = node'.map Expr.eval)
    {path path' : Path} {type type' : Ty} :
    Expr.eval ⟨path, type, node⟩ = Expr.eval ⟨path', type', node'⟩ := by
  rw [eval_eq,eval_eq ⟨path', _, _⟩]
  exact congrArg Node.run same

theorem Expr.eval_letIn_append (first rest : List (Binding Expr)) (body : Expr)
    {path path' path'' : Path} {type type' type'' : Ty} :
    Expr.eval ⟨path, type, .letIn (first ++ rest) body⟩ =
      Expr.eval ⟨path', type', .letIn first ⟨path'', type'', .letIn rest body⟩⟩ := by
  have keeps : ∀ b ∈ first.map fun b => (⟨b.name, b.value.eval⟩ : Binding (Eval Value)),
      ∀ s, (b.value s).2.variables = s.variables := by
    intro b member s
    obtain ⟨b, _, rfl⟩ := List.mem_map.mp member
    exact (b.value.eval_keeps s).2.2
  funext s
  rw [eval_eq,eval_eq ⟨path', _, _⟩]
  simp only [Node.map,Node.run,inScope_eq]
  rw [eval_eq ⟨path'', _, _⟩]
  simp only [Node.map,Node.run]
  rw [List.map_append,bindAll_append,bindAll_inScope keeps _ (Nat.le_refl _)]

theorem Expr.read_like {data : Json} {ctx ctx' : Context} {e : Expr} (like : ctx.Like ctx')
    (success : Expr.read data ctx = pure e) :
    ∃ e', Expr.read data ctx' = pure e' ∧ e'.type = e.type := by
  rw [Expr.read_moved data ctx.like_refl.further] at success
  obtain ⟨e₀, found, rfl⟩ := Option.map_eq_some_iff.mp (congrArg Attempt.value? success)
  refine ⟨e₀.moved ctx'.path, ?_, ?_⟩
  · rw [Expr.read_moved data like.further,(read_honest data _).silent found,pure_moved]
  · rw [Expr.moved_type,Expr.moved_type]

theorem Reading.bindings_like {bindings : List (Json × Json)} {body : Json} {ctx ctx' : Context}
    {position : Nat} {bs : List (Binding Expr)} {e : Expr} (like : ctx.Like ctx')
    (success : bindingsThen ctx position (Operand.of body) (Operand.pairs bindings) = pure (bs, e))
    (position' : Nat) :
    ∃ bs' e', bindingsThen ctx' position' (Operand.of body) (Operand.pairs bindings) =
      pure (bs', e') ∧ e'.type = e.type := by
  induction bindings generalizing ctx ctx' position position' bs with
  | nil =>
      obtain ⟨rfl, read⟩ := bindingsThen_nil_eq_pure.mp success
      obtain ⟨e', read', same⟩ := Expr.read_like (like.derive _ (.index position') none) read
      exact ⟨[], e', bindingsThen_nil_eq_pure.mpr ⟨rfl, read'⟩, same⟩
  | cons p rest ih =>
      obtain ⟨n, v, others, named, valid, read, after, rfl⟩ := bindingsThen_cons_eq_pure.mp success
      obtain ⟨v', read', alike⟩ :=
        Expr.read_like (like.deriveUnconstrained _ (.index (position' + 1))) read
      obtain ⟨bs', e', after', same⟩ := ih (like.bind n alike) after (position' + 2)
      exact ⟨⟨n, v'⟩ :: bs', e',
        bindingsThen_cons_eq_pure.mpr ⟨n, v', bs', named, valid, read', after', rfl⟩, same⟩

theorem Reading.bindings_eval {bindings : List (Json × Json)} {body : Json} {ctx ctx' : Context}
    {position position' : Nat} {bs bs' : List (Binding Expr)} {e e' : Expr}
    (success : bindingsThen ctx position (Operand.of body) (Operand.pairs bindings) = pure (bs, e))
    (success' : bindingsThen ctx' position' (Operand.of body) (Operand.pairs bindings) =
      pure (bs', e')) :
    (Node.letIn bs e).map Expr.eval = (Node.letIn bs' e').map Expr.eval := by
  have settled : ∀ j, (Operand.of j).Settled Expr.eval :=
    fun _ _ _ _ _ read read' => Expr.read_eval read read'
  have each : ∀ p ∈ Operand.pairs bindings, p.1.Settled Expr.eval ∧ p.2.Settled Expr.eval := by
    intro p member
    obtain ⟨b, _, rfl⟩ := List.mem_map.mp member
    exact ⟨settled b.1, settled b.2⟩
  obtain ⟨values, last⟩ := bindings_settled each (settled body) success success'
  simp only [Node.map]
  rw [values,last]

theorem Reading.bindingsThen_append_eq_pure {ctx : Context} {position : Nat} {body : Operand}
    {before after : List (Operand × Operand)} {bs : List (Binding Expr)} {e : Expr} :
    bindingsThen ctx position body (before ++ after) = pure (bs, e) ↔
      ∃ first rest, (bindEach ctx position before).2 = pure first ∧
        bindingsThen (bindEach ctx position before).1 (position + 2 * before.length) body after =
          pure (rest, e) ∧ first ++ rest = bs := by
  rw [bindingsThen_append,andThen_eq_pure]
  constructor
  · intro given
    obtain ⟨⟨first, rest, e'⟩, parts, made⟩ := given
    obtain ⟨rfl, rfl⟩ := Prod.mk.inj (pure_eq_pure.mp made)
    obtain ⟨read, others⟩ := both_eq_pure.mp parts
    exact ⟨first, rest, read, others, rfl⟩
  · intro given
    obtain ⟨first, rest, read, others, rfl⟩ := given
    exact ⟨(first, rest, e), both_eq_pure.mpr ⟨read, others⟩, rfl⟩

namespace Expr

theorem read_letIn_eq_pure {bindings : List (Json × Json)} {body : Json} {ctx : Context} {e : Expr}
    (nonempty : bindings ≠ []) :
    Expr.read (.letIn bindings body) ctx = pure e ↔
      ∃ bs b, bindingsThen ctx 1 (Operand.of body) (Operand.pairs bindings) = pure (bs, b) ∧
        ctx.expr b.type (.letIn bs b) = e := by
  rw [read_letIn nonempty,andThen_eq_pure]
  constructor
  · intro given
    obtain ⟨⟨bs, b⟩, read, checked⟩ := given
    exact ⟨bs, b, read, (ctx.check_eq_pure.mp checked).1⟩
  · intro given
    obtain ⟨bs, b, read, rfl⟩ := given
    exact ⟨(bs, b), read, letIn_checked _ (congrArg Attempt.value? read)⟩

theorem read_letIn_of_body {bindings : List (Json × Json)} {body : Json} {ctx : Context}
    {bs : List (Binding Expr)} {e : Expr} (nonempty : bindings ≠ [])
    (bound : (bindEach ctx 1 (Operand.pairs bindings)).2 = pure bs)
    (read : (Operand.of body).readAt (bindEach ctx 1 (Operand.pairs bindings)).1
      (1 + 2 * (Operand.pairs bindings).length) none = pure e) :
    Expr.read (.letIn bindings body) ctx = pure (ctx.expr e.type (.letIn bs e)) := by
  refine (read_letIn_eq_pure nonempty).mpr ⟨bs, e, ?_, rfl⟩
  rw [← List.append_nil (Operand.pairs bindings)]
  apply bindingsThen_append_eq_pure.mpr
  exact ⟨bs, [], bound, bindingsThen_nil_eq_pure.mpr ⟨rfl, read⟩, List.append_nil bs⟩

theorem read_letIn_nested {first rest : List (Json × Json)} {body : Json} {ctx : Context} {e : Expr}
    (outer : first ≠ []) (inner : rest ≠ [])
    (success : Expr.read (.letIn (first ++ rest) body) ctx = pure e) :
    ∃ e', Expr.read (.letIn first (.letIn rest body)) ctx = pure e' ∧ e'.type = e.type ∧
      e'.eval = e.eval := by
  have filled : first ++ rest ≠ [] := List.append_ne_nil_of_left_ne_nil outer rest
  obtain ⟨bs, b, read, rfl⟩ := (read_letIn_eq_pure filled).mp success
  rw [Operand.pairs,List.map_append] at read
  obtain ⟨bs₁, bs₂, before, after, rfl⟩ := bindingsThen_append_eq_pure.mp read
  let place := (bindEach ctx 1 (Operand.pairs first)).1
  let position := 1 + 2 * (Operand.pairs first).length
  have within : place.Like (place.derive (.index position) none) := ⟨rfl, place.like_refl.scope⟩
  obtain ⟨bs', b', after', same⟩ := bindings_like within after 1
  let e' : Expr := (place.derive (.index position) none).expr b'.type (.letIn bs' b')
  have others : (Operand.of (.letIn rest body)).readAt place position none = pure e' :=
    (read_letIn_eq_pure inner).mpr ⟨bs', b', after', rfl⟩
  refine ⟨_, read_letIn_of_body outer before others, same, ?_⟩
  have inside : e'.eval = Expr.eval ⟨e'.path, e'.type, .letIn bs₂ b⟩ :=
    eval_node (bindings_eval after' after)
  calc
    _ = Expr.eval ⟨ctx.path, e'.type, .letIn bs₁ ⟨e'.path, e'.type, .letIn bs₂ b⟩⟩ := by
      apply eval_node
      simp only [Node.map,inside]
    _ = _ := (eval_letIn_append bs₁ bs₂ b).symm

theorem read_letIn_nested_hiding :
    let x : Json := .arr [.str "var", .str "x"]
    let first : List (Json × Json) := [(.str "x", .arr [.str "get", .str "a"])]
    let rest : List (Json × Json) := [(.str "x", .arr [.str "string", x])]
    let ctx := Context.root (some .string) none
    let e : Expr := ⟨[], .string, .letIn
      [⟨"x", ⟨[.index 2], .unknown, .get ⟨[.index 2, .index 1], .string, .literal (.str "a")⟩⟩⟩,
        ⟨"x", ⟨[.index 4], .string, .assert .string [⟨[.index 4, .index 1], .unknown, .var "x"⟩]⟩⟩]
      ⟨[.index 5], .string, .var "x"⟩⟩
    let s := (Session.start none (some (Feature.ofMembers [("a", .str "inner")]))).withVariables
      ⟨[("x", .str "outer")]⟩
    first ≠ [] ∧ rest ≠ [] ∧ Expr.read (.letIn (first ++ rest) x) ctx = pure e ∧
      e.eval s = (.ok (.str "inner"), { s with reads := ["a"] }) ∧
      ∃ e', Expr.read (.letIn first (.letIn rest x)) ctx = pure e' ∧ e'.type = e.type ∧
        e'.eval = e.eval := by
  intro x first rest ctx e s
  have outer : first ≠ [] := List.cons_ne_nil _ _
  have inner : rest ≠ [] := List.cons_ne_nil _ _
  have success : Expr.read (.letIn (first ++ rest) x) ctx = pure e := rfl
  exact ⟨outer, inner, success, rfl, read_letIn_nested outer inner success⟩

end Expr

end MapStyle
