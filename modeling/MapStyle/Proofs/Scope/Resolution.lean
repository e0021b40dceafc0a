import MapStyle.Proofs.Reading.Inside
import MapStyle.Proofs.Reading.Typing
import MapStyle.Proofs.Scope.Stack

namespace MapStyle
open Eval

def Json.follow? : Json → List Nat → Option Json
  | data, [] => some data
  | data, position :: rest => (data.item? position).bind fun part => part.follow? rest

theorem Json.follow?_concat {data part inner : Json} {positions : List Nat} {position : Nat}
    (leads : data.follow? positions = some part) (next : part.item? position = some inner) :
    data.follow? (positions ++ [position]) = some inner := by
  induction positions generalizing data with
  | nil =>
      cases leads
      rw [List.nil_append,follow?,next]
      rfl
  | cons first rest ih =>
      rw [follow?,Option.bind_eq_some_iff] at leads
      obtain ⟨outer, there, leads⟩ := leads
      rw [List.cons_append,follow?,there]
      exact ih leads

-- A node was read from a part of the data, at the place of that part and in the
-- scope.
def Expr.ReadAt (data : Json) (path : Path) (scope : Scope) (n : Expr) : Prop :=
  ∃ positions part expected, data.follow? positions = some part ∧
    Expr.read part ⟨path ++ positions.map Step.index, expected, scope⟩ = pure n

theorem Expr.readAt_inside {data : Json} {path : Path} {scope : Scope} {n : Expr}
    (read : n.ReadAt data path scope) :
    ∀ p ∈ (n.node.located scope).children, p.2.ReadAt data path p.1 := by
  obtain ⟨positions, part, expected, leads, read⟩ := read
  intro p member
  obtain ⟨position, inner, expected', next, inside⟩ := Expr.read_inside read p member
  refine ⟨positions ++ [position], inner, expected', Json.follow?_concat leads next, ?_⟩
  rw [List.map_append,← List.append_assoc]
  exact inside

theorem Expr.nodes_readAt {data : Json} {path : Path} (e : Expr) {scope : Scope}
    (read : e.ReadAt data path scope) : ∀ n ∈ e.nodes, ∃ inner, n.ReadAt data path inner := by
  induction e using Expr.induct generalizing scope with
  | step e ih =>
      intro n member
      rw [Expr.nodes_eq] at member
      rcases List.mem_cons.mp member with rfl | below
      · exact ⟨scope, read⟩
      · obtain ⟨c, child, belongs⟩ := List.mem_flatMap.mp below
        have located := child
        rw [← e.node.located_children scope] at located
        obtain ⟨p, there, rfl⟩ := List.mem_map.mp located
        exact ih p.2 child (Expr.readAt_inside read p there) n belongs

theorem Expr.readAt_typed {data : Json} {path : Path} {scope : Scope} {n : Expr}
    (read : n.ReadAt data path scope) : n.node.Typed scope n.type := by
  obtain ⟨_, _, _, _, read⟩ := read
  exact (Expr.read_typed read).2

theorem Expr.parse_readAt {data : Json} {options : ParseOptions} {e : Expr}
    (parsed : Expr.parse data options = .ok e) :
    e.ReadAt data (Context.root options.expected options.key).path [] := by
  refine ⟨[], data, options.expected, rfl, ?_⟩
  rw [List.map_nil,List.append_nil]
  exact Expr.parse_eq_ok.mp parsed

def Scope.Over (base base' : List (String × Value)) (scope : Scope) (v w : Variables) : Prop :=
  ∃ pushed, v.entries = pushed ++ base ∧ w.entries = pushed ++ base' ∧
    pushed.map Prod.fst = scope.map Prod.fst

theorem Scope.lookup_pushed {scope : Scope} {pushed : List (String × Value)}
    (names : pushed.map Prod.fst = scope.map Prod.fst) {name : String} {bound : Expr}
    (found : scope.lookup name = some bound) : ∃ v, pushed.lookup name = some v := by
  induction scope generalizing pushed with
  | nil => cases found
  | cons first outer ih =>
      cases pushed with
      | nil => cases names
      | cons top below =>
          obtain ⟨key, value⟩ := first
          obtain ⟨key', v⟩ := top
          obtain ⟨rfl, others⟩ := List.cons.inj names
          rw [List.lookup_cons] at found ⊢
          cases hit : name == key' with
          | true => exact ⟨v, rfl⟩
          | false =>
              rw [hit] at found
              exact ih others found

theorem Scope.over_get? {base base' : List (String × Value)} {scope : Scope} {v w : Variables}
    (stacked : scope.Over base base' v w) {name : String} {bound : Expr}
    (found : scope.lookup name = some bound) : ∃ x, v.get? name = some x ∧ w.get? name = some x := by
  obtain ⟨pushed, first, second, names⟩ := stacked
  obtain ⟨x, there⟩ := lookup_pushed names found
  refine ⟨x, ?_, ?_⟩
  · rw [Variables.get?,first,List.lookup_append,there]
    rfl
  · rw [Variables.get?,second,List.lookup_append,there]
    rfl

-- The names that are read are all bound in the scope, so what was on the stack
-- before is never reached.
theorem Expr.readAt_matches (base base' : List (String × Value)) {data : Json} {path : Path}
    (n : Expr) {scope : Scope} (read : n.ReadAt data path scope) :
    Matches (scope.Over base base')
      (fun s t => s.zoom = t.zoom ∧ s.feature = t.feature ∧ s.reads = t.reads)
      (fun failed => ∀ name, failed ≠ .unboundVariable name) n.eval n.eval := by
  induction n using Expr.induct generalizing scope with
  | step n ih =>
      have run := Node.run_matches (W := Scope.Over base base')
        (R := fun s t => s.zoom = t.zoom ∧ s.feature = t.feature ∧ s.reads = t.reads)
        (E := fun failed => ∀ name, failed ≠ .unboundVariable name)
        (f := fun p => p.2.eval) (g := fun p => p.2.eval) n.node scope (fun _ own => own)
        (fun _ _ _ _ related => related) (fun _ _ _ related => related.1)
        (fun _ name => property_matches name (fun _ _ related => related.2.1)
          fun _ _ related => ⟨related.1, related.2.1, by rw [related.2.2]⟩)
        (by
          intro name named
          have typed := Expr.readAt_typed read
          rw [named] at typed
          obtain ⟨bound, found, _⟩ := typed
          refine lookup_matches name ?_ ?_
          · intro v w stacked
            obtain ⟨x, first, second⟩ := Scope.over_get? stacked found
            rw [first,second]
          · intro v w stacked missing
            obtain ⟨x, first, _⟩ := Scope.over_get? stacked found
            rw [first] at missing
            cases missing)
        (by
          intro scope b s t v stacked _ _
          obtain ⟨pushed, first, second, names⟩ := stacked
          refine ⟨(b.name, v) :: pushed, ?_, ?_, ?_⟩
          · simp only [Variables.push,first,List.cons_append]
          · simp only [Variables.push,second,List.cons_append]
          · simp only [List.map_cons,names])
        (by
          intro p member
          exact ih p.2 (Node.mem_located_children member) (Expr.readAt_inside read p member))
      rw [Node.located_map,← Expr.eval_eq] at run
      exact run

theorem Expr.visits_readAt {data : Json} {path : Path} {s t : Session} {scope : Scope} {e n : Expr}
    (read : e.ReadAt data path []) (visits : e.Visits [] s scope n t) :
    n.ReadAt data path scope := by
  induction visits with
  | whole => exact read
  | inside scope n t p u before asks ih =>
      have member := (Expr.asks_aligned (Expr.visits_aligned before) asks).1
      exact Expr.readAt_inside ih p member

theorem Expr.var_resolves {data : Json} {path : Path} {s t : Session} {scope : Scope} {n : Expr}
    {pushed : List (String × Value)} (read : n.ReadAt data path scope) (holds : scope.Holds s pushed)
    (stack : t.variables.entries = pushed ++ s.variables.entries) {name : String}
    (named : n.node = .var name) :
    ∃ bound v, scope.lookup name = some bound ∧ n.type = bound.type ∧
      scope.Resolves s pushed name bound v ∧ n.eval t = (.ok v, t) := by
  have typed := Expr.readAt_typed read
  rw [named] at typed
  obtain ⟨bound, found, type⟩ := typed
  obtain ⟨v, resolves, there⟩ := Scope.holds_lookup holds found
  refine ⟨bound, v, found, type, resolves, ?_⟩
  rw [Expr.eval_eq,named]
  simp only [Node.map,Node.run,lookup,Variables.get?,stack,there]

theorem Expr.parse_resolves {data : Json} {options : ParseOptions} {e : Expr}
    (parsed : Expr.parse data options = .ok e) (s : Session) :
    (∀ name, (e.eval s).1 ≠ .error (.unboundVariable name)) ∧
    (e.eval s).1 = (e.eval (s.withVariables .empty)).1 ∧
    (e.eval s).2.reads = (e.eval (s.withVariables .empty)).2.reads ∧
    ∀ scope n t, e.Visits [] s scope n t →
      n.ReadAt data (Context.root options.expected options.key).path scope ∧
      ∃ pushed, scope.Holds s pushed ∧ t.variables.entries = pushed ++ s.variables.entries ∧
        pushed.map Prod.fst = scope.map Prod.fst ∧
        ∀ name, n.node = .var name → ∃ bound v, scope.lookup name = some bound ∧
          n.type = bound.type ∧ scope.Resolves s pushed name bound v ∧ n.eval t = (.ok v, t) := by
  have read := Expr.parse_readAt parsed
  have run := e.readAt_matches s.variables.entries [] read s (s.withVariables .empty)
    ⟨[], rfl, rfl, rfl⟩ ⟨rfl, rfl, rfl⟩
  refine ⟨?_, run.result.symm, run.related.2.2, ?_⟩
  · intro name failed
    exact run.errors _ failed name rfl
  · intro scope n t visits
    have readThere := Expr.visits_readAt read visits
    obtain ⟨_, _, pushed, holds, stack⟩ := Expr.visits_aligned visits
    refine ⟨readThere, pushed, holds, stack, Scope.holds_names holds, ?_⟩
    intro name named
    exact Expr.var_resolves readThere holds stack named

theorem parse_resolves_shadowed :
    let x : Json := .arr [.str "var", .str "x"]
    let data : Json := .arr [.str "let", .str "x", .str "a", .arr [.str "let", .str "x", x, x]]
    let outer : Expr := ⟨[.index 2], .string, .literal (.str "a")⟩
    let inner : Expr := ⟨[.index 3, .index 2], .string, .var "x"⟩
    let body : Expr := ⟨[.index 3, .index 3], .string, .var "x"⟩
    let nested : Expr := ⟨[.index 3], .string, .letIn [⟨"x", inner⟩] body⟩
    let e : Expr := ⟨[], .string, .letIn [⟨"x", outer⟩] nested⟩
    let s : Session := (Session.start none none).withVariables ⟨[("x", .null)]⟩
    let t : Session := s.over [("x", .str "a"), ("x", .str "a")]
    Expr.parse data ⟨none, none⟩ = .ok e ∧
      e.Visits [] s [("x", inner), ("x", outer)] body t ∧
      ∃ bound v, [("x", inner), ("x", outer)].lookup "x" = some bound ∧
        Scope.Resolves s [("x", inner), ("x", outer)] [("x", .str "a"), ("x", .str "a")] "x" bound v ∧
        body.eval t = (.ok v, t) := by
  intro x data outer inner body nested e s t
  have parsed : Expr.parse data ⟨none, none⟩ = .ok e := rfl
  have first : e.Visits [] s [("x", outer)] nested (s.over [("x", .str "a")]) :=
    .inside [] e s _ _ (.whole) (Expr.asks_body rfl)
  have second : e.Visits [] s [("x", inner), ("x", outer)] body t :=
    .inside _ nested _ _ _ first (Expr.asks_body rfl)
  obtain ⟨_, _, _, all⟩ := Expr.parse_resolves parsed s
  obtain ⟨_, pushed, _, stack, _, resolved⟩ := all _ _ _ second
  obtain ⟨bound, v, found, _, resolves, read⟩ := resolved "x" rfl
  have same : pushed = [("x", .str "a"), ("x", .str "a")] :=
    List.append_cancel_right stack.symm
  rw [same] at resolves
  exact ⟨parsed, second, bound, v, found, resolves, read⟩

end MapStyle
