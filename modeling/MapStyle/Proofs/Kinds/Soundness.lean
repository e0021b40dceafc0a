import MapStyle.Proofs.Kinds.Yields
import MapStyle.Proofs.Scope.Resolution

namespace MapStyle
open Eval

-- All of the outputs that a node chooses from have a known type, or none has.
def Node.Uniform (node : Node Expr) : Prop :=
  (∀ o ∈ node.outputs, o.type = .unknown) ∨ ∀ o ∈ node.outputs, o.type ≠ .unknown

def Expr.Unmixed (e : Expr) : Prop :=
  ∀ n ∈ e.nodes, n.node.Uniform

theorem Expr.unmixed_node {e : Expr} (unmixed : e.Unmixed) : e.node.Uniform := by
  refine unmixed e ?_
  rw [nodes_eq]
  exact List.mem_cons_self

theorem Expr.unmixed_child {c e : Expr} (unmixed : e.Unmixed) (member : c ∈ e.node.children) :
    c.Unmixed := by
  intro n inside
  refine unmixed n ?_
  rw [nodes_eq]
  exact List.mem_cons_of_mem _ (List.mem_flatMap.mpr ⟨c, member, inside⟩)

-- The bindings of the scope have their variables on top of the stack, each with a
-- value of the kind that the type of the bound expression promises.
def Scope.Kinded : Scope → List (String × Value) → Prop
  | [], _ => True
  | (name, bound) :: outer, (name', v) :: below =>
      name' = name ∧ bound.type.Covers v ∧ Kinded outer below
  | _ :: _, [] => False

theorem Scope.kinded_lookup {scope : Scope} {entries : List (String × Value)}
    (kinded : scope.Kinded entries) {name : String} {bound : Expr} {v : Value}
    (found : scope.lookup name = some bound) (read : entries.lookup name = some v) :
    bound.type.Covers v := by
  induction scope generalizing entries with
  | nil => cases found
  | cons first outer ih =>
      cases entries with
      | nil => exact kinded.elim
      | cons top below =>
          obtain ⟨key, value⟩ := first
          obtain ⟨key', v'⟩ := top
          obtain ⟨rfl, covers, kinded⟩ := kinded
          rw [List.lookup_cons] at found read
          cases hit : name == key' with
          | true =>
              rw [hit] at found read
              cases found
              cases read
              exact covers
          | false =>
              rw [hit] at found read
              exact ih kinded found read

def Expr.Sound (scope : Scope) (e : Expr) : Prop :=
  ∀ stack : Variables, scope.Kinded stack.entries → Yields stack e.type.Covers e.eval

theorem Node.outputs_children {o : Expr} {node : Node Expr} (member : o ∈ node.outputs) :
    o ∈ node.children := by
  cases node with
  | coalesce args => exact member
  | case branches otherwise => simp only [Node.outputs,Node.children] at member ⊢; grind
  | select input arms otherwise => simp only [Node.outputs,Node.children] at member ⊢; grind
  | curve interpolation input stops => exact List.mem_cons_of_mem _ member
  | _ => cases member

theorem Node.outputs_sound {scope : Scope} {type : Ty} {node : Node Expr}
    (joined : Joined node.outputs type) (uniform : node.Uniform)
    (each : ∀ c ∈ node.children, c.Sound scope) {stack : Variables}
    (kinded : scope.Kinded stack.entries) : ∀ o ∈ node.outputs, Yields stack type.Covers o.eval := by
  intro o member
  refine yields_mono (each o (outputs_children member) stack kinded) ?_
  intro v covers
  exact joined.covers uniform member covers

theorem Node.plain_sound {scope : Scope} {type : Ty} (node : Node Expr) (plain : node.binds = false)
    (typed : node.Typed scope type) (uniform : node.Uniform)
    (each : ∀ c ∈ node.children, c.Sound scope) {stack : Variables}
    (kinded : scope.Kinded stack.entries) : Yields stack type.Covers (node.map Expr.eval).run := by
  have any : ∀ c ∈ node.children, Yields stack (fun _ => True) c.eval := by
    intro c member
    exact yields_mono (each c member stack kinded) fun _ _ => trivial
  cases node with
  | literal v =>
      obtain ⟨expected, data, rfl, rfl⟩ := typed
      exact pure_yields (Reading.constantType_covers expected data)
  | zoom =>
      cases typed
      exact bind_yields zoom_yields fun z _ => pure_yields (Ty.covers_of_kind? rfl)
  | get name =>
      cases typed
      refine bind_yields (any name (by simp [Node.children])) fun v _ => ?_
      refine yields_mono (get_yields v) fun _ _ kind promised => ?_
      cases promised
  | has key =>
      cases typed
      exact bind_yields (any key (by simp [Node.children])) fun v _ => has_yields v
  | hasIn key object =>
      cases typed
      refine bind_yields (any key (by simp [Node.children])) fun v _ => ?_
      refine bind_yields (text_yields v) fun name _ => ?_
      exact bind_yields (any object (by simp [Node.children])) fun o _ => member_yields name o
  | var name =>
      obtain ⟨bound, found, rfl⟩ := typed
      exact lookup_yields fun v read => Scope.kinded_lookup kinded found read
  | letIn bindings body => cases plain
  | throw message => exact fail_yields _
  | assert asserted args =>
      cases typed
      exact firstOfType_yields _ .unknown args any
  | assertArray item length input =>
      cases typed
      exact bind_yields (any input (by simp [Node.children])) fun v _ => arrayOf_yields item length v
  | parseColor input =>
      cases typed
      exact bind_yields (any input (by simp [Node.children])) fun v _ => color_yields v
  | not input =>
      cases typed
      refine bind_yields (any input (by simp [Node.children])) fun v _ => ?_
      exact bind_yields (truth_yields v) fun b _ => pure_yields (Ty.covers_of_kind? rfl)
  | coalesce args =>
      have outputs := outputs_sound typed uniform each kinded
      exact firstValue_yields args outputs none fun nothing _ => absurd nothing typed.1
  | case branches otherwise =>
      have outputs := outputs_sound typed uniform each kinded
      refine firstTrue_yields (outputs otherwise (by simp [Node.outputs])) branches ?_
      intro b member
      constructor
      · exact any _ (by simp only [Node.children]; grind)
      · exact outputs _ (by simp only [Node.outputs]; grind)
  | select input arms otherwise =>
      have outputs := outputs_sound typed uniform each kinded
      refine bind_yields (any input (by simp [Node.children])) fun v _ => ?_
      refine labelled_yields v (outputs otherwise (by simp [Node.outputs])) arms ?_
      intro a member
      exact outputs _ (by simp only [Node.outputs]; grind)
  | curve interpolation input stops =>
      have outputs := outputs_sound typed uniform each kinded
      refine bind_yields (any input (by simp [Node.children])) fun v _ => ?_
      refine bind_yields (number_yields v) fun x _ => ?_
      refine along_yields ?_ interpolation stops ?_ x
      · intro t v w u covers _ done
        exact Ty.covers_congr (Value.kind_blend done) covers
      intro p member
      exact outputs _ (by simp only [Node.outputs]; grind)

theorem Eval.bindAll_yields {K : Value → Prop} (bindings : List (Binding Expr)) (body : Eval Value)
    (scope : Scope) (values : ∀ b ∈ locatedBindings scope bindings, b.value.2.Sound b.value.1)
    (last : ∀ stack : Variables, Scope.Kinded (scope.bindAll bindings) stack.entries →
      Yields stack K body)
    (s : Session) (kinded : scope.Kinded s.variables.entries) :
    (∃ pushed, ((do bindAll (bindings.map fun b => ⟨b.name, b.value.eval⟩); body : Eval Value)
        s).2.variables.entries = pushed ++ s.variables.entries) ∧
      ∀ v, ((do bindAll (bindings.map fun b => ⟨b.name, b.value.eval⟩); body : Eval Value)
        s).1 = .ok v → K v := by
  induction bindings generalizing scope s with
  | nil =>
      obtain ⟨kept, good⟩ := last s.variables kinded s rfl
      exact ⟨⟨[], congrArg Variables.entries kept⟩, good⟩
  | cons b rest ih =>
      obtain ⟨kept, covers⟩ := values ⟨b.name, (scope, b.value)⟩ (by simp [locatedBindings])
        s.variables kinded s rfl
      simp only [List.map_cons,bindAll_cons]
      cases now : b.value.eval s with
      | mk result s' =>
          simp only [now] at kept covers
          cases result with
          | error e =>
              refine ⟨⟨[], congrArg Variables.entries kept⟩, ?_⟩
              intro v done
              cases done
          | ok v =>
              obtain ⟨⟨pushed, grown⟩, good⟩ := ih ((b.name, b.value) :: scope)
                (fun b' member => values b' (by simp [locatedBindings,member])) last
                (s'.withVariables (s'.variables.push b.name v))
                (by rw [kept]; exact ⟨rfl, covers v rfl, kinded⟩)
              refine ⟨⟨pushed ++ [(b.name, v)], grown.trans ?_⟩, good⟩
              simp [Variables.push,kept]

theorem Node.letIn_sound {scope : Scope} {bindings : List (Binding Expr)} {body : Expr}
    (values : ∀ b ∈ locatedBindings scope bindings, b.value.2.Sound b.value.1)
    (last : body.Sound (scope.bindAll bindings)) {stack : Variables}
    (kinded : scope.Kinded stack.entries) :
    Yields stack body.type.Covers ((Node.letIn bindings body).map Expr.eval).run := by
  refine inScope_yields fun s found => ?_
  subst found
  exact bindAll_yields bindings body.eval scope values last s kinded

theorem Expr.readAt_sound {data : Json} {path : Path} (n : Expr) {scope : Scope}
    (read : n.ReadAt data path scope) (unmixed : n.Unmixed) : n.Sound scope := by
  induction n using Expr.induct generalizing scope with
  | step n ih =>
      have each : ∀ p ∈ (n.node.located scope).children, p.2.Sound p.1 := by
        intro p member
        have child := Node.mem_located_children member
        exact ih p.2 child (Expr.readAt_inside read p member) (Expr.unmixed_child unmixed child)
      have typed := Expr.readAt_typed read
      have uniform := Expr.unmixed_node unmixed
      intro stack kinded
      rw [Expr.eval_eq]
      by_cases binding : n.node.binds = true
      · cases node : n.node with
        | letIn bindings body =>
            rw [node] at typed each
            rw [show n.type = body.type from typed]
            refine Node.letIn_sound ?_ ?_ kinded
            · intro b member
              exact each b.value (by simp only [Node.located,Node.children]; grind)
            · exact each (scope.bindAll bindings, body) (by simp [Node.located,Node.children])
        | _ => rw [node] at binding; cases binding
      · have plain : n.node.binds = false := by simpa using binding
        refine Node.plain_sound n.node plain typed uniform ?_ kinded
        intro c member
        rw [Node.located_eq_map scope n.node plain,Node.children_map] at each
        exact each (scope, c) (List.mem_map_of_mem member)

def Scope.Sound : Scope → Prop
  | [] => True
  | (_, bound) :: outer => bound.Sound outer ∧ Sound outer

theorem Scope.holds_kinded {s : Session} {scope : Scope} {pushed : List (String × Value)}
    (holds : scope.Holds s pushed) (sound : scope.Sound) :
    scope.Kinded (pushed ++ s.variables.entries) := by
  induction holds with
  | nothing => exact trivial
  | bound outer below name value v _ evaluated ih =>
      obtain ⟨here, outside⟩ := sound
      have kinded := ih outside
      exact ⟨rfl, (here ⟨below ++ s.variables.entries⟩ kinded (s.over below) rfl).2 v evaluated,
        kinded⟩

theorem Scope.bindAll_sound (bindings : List (Binding Expr)) {scope : Scope} (sound : scope.Sound)
    (values : ∀ b ∈ locatedBindings scope bindings, b.value.2.Sound b.value.1) :
    (∀ b ∈ locatedBindings scope bindings, Scope.Sound b.value.1) ∧
      Scope.Sound (scope.bindAll bindings) := by
  induction bindings generalizing scope with
  | nil =>
      refine ⟨?_, sound⟩
      intro b member
      cases member
  | cons b rest ih =>
      have here := values ⟨b.name, (scope, b.value)⟩ (by simp [locatedBindings])
      have extended : Scope.Sound ((b.name, b.value) :: scope) := ⟨here, sound⟩
      obtain ⟨inside, last⟩ := ih extended fun b' member =>
        values b' (by simp [locatedBindings,member])
      refine ⟨?_, last⟩
      intro b' member
      rcases List.mem_cons.mp member with rfl | belongs
      · exact sound
      · exact inside b' belongs

theorem Node.located_sound (node : Node Expr) {scope : Scope} (sound : scope.Sound)
    (each : ∀ p ∈ (node.located scope).children, p.2.Sound p.1) :
    ∀ p ∈ (node.located scope).children, Scope.Sound p.1 := by
  by_cases binding : node.binds = true
  · cases node with
    | letIn bindings body =>
        obtain ⟨inside, last⟩ := Scope.bindAll_sound bindings sound fun b member =>
          each b.value (by simp only [Node.located,Node.children]; grind)
        intro p member
        simp only [Node.located,Node.children,List.mem_append,List.mem_map,List.mem_singleton] at member
        rcases member with ⟨b, belongs, rfl⟩ | rfl
        · exact inside b belongs
        · exact last
    | _ => cases binding
  · have plain : node.binds = false := by simpa using binding
    intro p member
    rw [Node.located_eq_map scope node plain,Node.children_map] at member
    obtain ⟨c, _, rfl⟩ := List.mem_map.mp member
    exact sound

theorem Expr.visits_sound {data : Json} {path : Path} {s t : Session} {scope : Scope} {e n : Expr}
    (read : e.ReadAt data path []) (unmixed : e.Unmixed) (visits : e.Visits [] s scope n t) :
    n.ReadAt data path scope ∧ n.Unmixed ∧ scope.Sound := by
  induction visits with
  | whole => exact ⟨read, unmixed, trivial⟩
  | inside scope n t p u before asks ih =>
      obtain ⟨read, unmixed, sound⟩ := ih
      have inside := Expr.readAt_inside read
      have member := (Expr.asks_aligned (Expr.visits_aligned before) asks).1
      refine ⟨inside p member, Expr.unmixed_child unmixed (Node.mem_located_children member), ?_⟩
      refine Node.located_sound n.node sound ?_ p member
      intro q belongs
      exact Expr.readAt_sound q.2 (inside q belongs)
        (Expr.unmixed_child unmixed (Node.mem_located_children belongs))

theorem Expr.parse_kinds {data : Json} {options : ParseOptions} {e : Expr}
    (parsed : Expr.parse data options = .ok e) (unmixed : e.Unmixed) (s : Session) :
    (∀ scope n t v, e.Visits [] s scope n t → n.type ≠ .unknown → (n.eval t).1 = .ok v →
      n.type.kind? = some v.kind) ∧
    ∀ v, e.type ≠ .unknown → (e.eval s).1 = .ok v → e.type.kind? = some v.kind := by
  have every : ∀ scope n t v, e.Visits [] s scope n t → n.type ≠ .unknown →
      (n.eval t).1 = .ok v → n.type.kind? = some v.kind := by
    intro scope n t v visits known done
    obtain ⟨read, unmixed, sound⟩ := Expr.visits_sound (Expr.parse_readAt parsed) unmixed visits
    obtain ⟨_, _, pushed, holds, stack⟩ := Expr.visits_aligned visits
    have kinded : scope.Kinded t.variables.entries := by
      rw [stack]
      exact Scope.holds_kinded holds sound
    exact (Ty.covers_iff known).mp ((Expr.readAt_sound n read unmixed _ kinded t rfl).2 v done)
  exact ⟨every, fun v => every [] e s v .whole⟩

theorem parse_kinds_choice :
    let x : Expr := ⟨[.index 2], .string, .literal (.str "a")⟩
    let first : Expr := ⟨[.index 3, .index 1], .string, .var "x"⟩
    let second : Expr := ⟨[.index 3, .index 2], .string, .literal (.str "b")⟩
    let choice : Expr := ⟨[.index 3], .string, .coalesce [first, second]⟩
    let e : Expr := ⟨[], .string, .letIn [⟨"x", x⟩] choice⟩
    let s : Session := Session.start none none
    let t : Session := s.over [("x", .str "a")]
    Expr.parse (.arr [.str "let", .str "x", .str "a",
        .arr [.str "coalesce", .arr [.str "var", .str "x"], .str "b"]]) ⟨some .string, none⟩ = .ok e ∧
      e.Unmixed ∧ e.Visits [] s [("x", x)] choice t ∧ (choice.eval t).1 = .ok (.str "a") ∧
      choice.type.kind? = some .string := by
  intro x first second choice e s t
  have parsed : Expr.parse (.arr [.str "let", .str "x", .str "a",
      .arr [.str "coalesce", .arr [.str "var", .str "x"], .str "b"]]) ⟨some .string, none⟩ = .ok e := rfl
  have unmixed : e.Unmixed := by
    intro n inside
    have nodes : n ∈ [e, x, choice, first, second] := inside
    right
    simp only [List.mem_cons,List.not_mem_nil,or_false] at nodes
    rcases nodes with rfl | rfl | rfl | rfl | rfl <;> simp [Node.outputs,e,x,choice,first,second]
  have visits : e.Visits [] s [("x", x)] choice t := .inside [] e s _ _ .whole (Expr.asks_body rfl)
  have done : (choice.eval t).1 = .ok (.str "a") := rfl
  have kinds := (Expr.parse_kinds parsed unmixed s).1 _ choice t _ visits (by simp [choice]) done
  exact ⟨parsed, unmixed, visits, done, kinds⟩

end MapStyle
