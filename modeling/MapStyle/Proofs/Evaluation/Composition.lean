import MapStyle.Evaluation.Run
import MapStyle.Proofs.Evaluation.Blending
import MapStyle.Proofs.Scope.Basic

-- What a node does with the evaluations of its sub-expressions is put together from
-- little: to have a value, to fail, and to go on with what another evaluation came to.
-- A property that these keep holds of the node's evaluation.

namespace MapStyle

namespace Eval

variable {Γ ι α β : Type}

def settle (a : Eval α) (next : Except EvalError α → Eval β) : Eval β := fun s =>
  next (a s).1 (a s).2

def afterOk (next : α → Eval β) : Except EvalError α → Eval β
  | .ok x => next x
  | .error e => fail e

theorem bind_eq_settle (a : Eval α) (next : α → Eval β) : a >>= next = settle a (afterOk next) := by
  funext s
  rw [bind_apply,settle]
  cases a s with
  | mk result s' => cases result <;> rfl

-- How `coalesce` goes on after one argument: an error is gone on with too, and is the
-- one to report when nothing better follows.
def afterValue (last : Option EvalError) (rest : Option EvalError → Eval Value) :
    Except EvalError Value → Eval Value
  | .ok v => if v.isNull then rest last else pure v
  | .error e => rest (some e)

theorem firstValue_cons (last : Option EvalError) (c : Eval Value) (cs : List (Eval Value)) :
    firstValue last (c :: cs) = settle c (afterValue last fun l => firstValue l cs) := by
  funext s
  simp only [firstValue,settle]
  cases c s with
  | mk result s' =>
      cases result with
      | ok v => cases null : v.isNull <;> simp only [afterValue,null] <;> rfl
      | error e => rfl

-- The errors that a node brings up by itself, whatever its sub-expressions do.
-- Only a variable can fail for its name.
def OwnErrors (E : EvalError → Prop) : Prop :=
  ∀ e, (∀ name, e ≠ .unboundVariable name) → E e

theorem blend_mismatch (t : Float) (v w : Value) (e : EvalError)
    (failed : Value.blend t v w = .error e) : ∃ expected found, e = .typeMismatch expected found := by
  obtain ⟨_, u, u', _, mismatch⟩ := Value.apart_of_error failed
  exact ⟨u.typeOf, u'.typeOf, mismatch⟩

-- A property of evaluations whose errors are among `E`. It is one of families, so that
-- it may also compare evaluations with each other.
structure Composes (E : EvalError → Prop) (P : (α : Type) → (Γ → Eval α) → Prop) : Prop where
  value : ∀ {α : Type} (x : α), P α fun _ => pure x
  failure : ∀ {α : Type} (e : EvalError), E e → P α fun _ => fail e
  onward : ∀ {α β : Type} {A : Γ → Eval α} {F : Except EvalError α → Γ → Eval β}, P α A →
    (∀ r, (∀ e, r = .error e → E e) → P β (F r)) → P β fun γ => settle (A γ) fun r => F r γ

namespace Composes

variable {E : EvalError → Prop} {P : (α : Type) → (Γ → Eval α) → Prop} {f : Γ → ι → Eval Value}

theorem labelled (v : Value) (otherwise : ι) (last : P Value fun γ => f γ otherwise)
    (arms : List (Arm ι)) (each : ∀ a ∈ arms, P Value fun γ => f γ a.output) :
    P Value fun γ => Eval.labelled v (f γ otherwise)
      (arms.map fun a => ⟨a.labels, f γ a.output⟩) := by
  have chosen : ∀ γ, Eval.labelled v (f γ otherwise) (arms.map fun a => ⟨a.labels, f γ a.output⟩) =
      match arms.find? fun a => a.labels.contains v with
        | some a => f γ a.output
        | none => f γ otherwise := by
    intro γ
    have found : (arms.find? ((fun a : Arm (Eval Value) => a.labels.contains v) ∘
        fun a => ⟨a.labels, f γ a.output⟩)) = arms.find? fun a => a.labels.contains v := rfl
    unfold Eval.labelled
    rw [List.find?_map,found]
    cases arms.find? fun a => a.labels.contains v <;> rfl
  simp only [chosen]
  cases found : arms.find? fun a => a.labels.contains v with
  | some a => exact each a (List.mem_of_find?_eq_some found)
  | none => exact last

variable (composes : Composes E P)
include composes

theorem bind {A : Γ → Eval α} {F : α → Γ → Eval β} (head : P α A) (tail : ∀ x, P β (F x)) :
    P β fun γ => A γ >>= fun x => F x γ := by
  simp only [bind_eq_settle]
  refine composes.onward (F := fun r γ => afterOk (fun x => F x γ) r) head fun r admitted => ?_
  cases r with
  | ok x => exact tail x
  | error e => exact composes.failure e (admitted e rfl)

theorem ofExcept (result : Except EvalError α) (own : ∀ e, result = .error e → E e) :
    P α fun _ => Eval.ofExcept result := by
  cases result with
  | ok x => exact composes.value x
  | error e => exact composes.failure e (own e rfl)

section Values

variable (own : OwnErrors E)
include own

theorem text (v : Value) : P String fun _ => Eval.text v := by
  unfold Eval.text
  split
  · exact composes.value _
  · exact composes.failure _ (own _ (by intro name same; cases same))

theorem truth (v : Value) : P Bool fun _ => Eval.truth v := by
  unfold Eval.truth
  split
  · exact composes.value _
  · exact composes.failure _ (own _ (by intro name same; cases same))

theorem number (v : Value) : P Float fun _ => Eval.number v := by
  unfold Eval.number
  split
  · exact composes.value _
  · exact composes.failure _ (own _ (by intro name same; cases same))

theorem get (asked : ∀ name, P (Option Json) fun _ => property name) (v : Value) :
    P Value fun _ => Eval.get v := by
  unfold Eval.get
  refine composes.bind (composes.text own v) fun name => composes.bind (asked name) fun found => ?_
  cases found with
  | some j => exact composes.value _
  | none => exact composes.failure _ (own _ (by intro name same; cases same))

theorem has (asked : ∀ name, P (Option Json) fun _ => property name) (v : Value) :
    P Value fun _ => Eval.has v := by
  unfold Eval.has
  exact composes.bind (composes.text own v) fun name =>
    composes.bind (asked name) fun found => composes.value _

theorem member (key : String) (v : Value) : P Value fun _ => Eval.member key v := by
  unfold Eval.member
  split
  · exact composes.value _
  · exact composes.failure _ (own _ (by intro name same; cases same))

theorem arrayOf (item : Ty) (length : Option Nat) (v : Value) :
    P Value fun _ => Eval.arrayOf item length v := by
  unfold Eval.arrayOf
  split
  · exact composes.value _
  · exact composes.failure _ (own _ (by intro name same; cases same))

theorem color (v : Value) : P Value fun _ => Eval.color v := by
  unfold Eval.color
  split
  · split
    · exact composes.value _
    · exact composes.failure _ (own _ (by intro name same; cases same))
  · exact composes.value _
  · exact composes.failure _ (own _ (by intro name same; cases same))

end Values

theorem firstValue (args : List ι) (each : ∀ c ∈ args, P Value fun γ => f γ c)
    (last : Option EvalError) (seen : ∀ e, last = some e → E e) :
    P Value fun γ => Eval.firstValue last (args.map (f γ)) := by
  induction args generalizing last with
  | nil =>
      cases last with
      | none => exact composes.value _
      | some e => exact composes.failure e (seen e rfl)
  | cons c rest ih =>
      have later := ih fun c' member => each c' (List.mem_cons_of_mem _ member)
      simp only [List.map_cons,firstValue_cons]
      refine composes.onward
        (F := fun r γ => afterValue last (fun l => Eval.firstValue l (rest.map (f γ))) r)
        (each c List.mem_cons_self) fun r admitted => ?_
      cases r with
      | error e =>
          refine later (some e) ?_
          intro e' same
          exact admitted e' (congrArg Except.error (Option.some.inj same))
      | ok v =>
          by_cases null : v.isNull
          · simp only [afterValue,if_pos null]
            exact later last seen
          · simp only [afterValue,if_neg null]
            exact composes.value v

theorem firstOfType (own : OwnErrors E) (type found : Ty) (args : List ι)
    (each : ∀ c ∈ args, P Value fun γ => f γ c) :
    P Value fun γ => Eval.firstOfType type found (args.map (f γ)) := by
  induction args generalizing found with
  | nil => exact composes.failure _ (own _ (by intro name same; cases same))
  | cons c rest ih =>
      simp only [List.map_cons,Eval.firstOfType]
      refine composes.bind (F := fun v γ =>
        if v.typeOf = type then pure v else Eval.firstOfType type v.typeOf (rest.map (f γ)))
        (each c List.mem_cons_self) fun v => ?_
      split
      · exact composes.value v
      · exact ih _ fun c' member => each c' (List.mem_cons_of_mem _ member)

theorem firstTrue (own : OwnErrors E) (otherwise : ι) (last : P Value fun γ => f γ otherwise)
    (branches : List (Branch ι))
    (each : ∀ b ∈ branches, (P Value fun γ => f γ b.condition) ∧ P Value fun γ => f γ b.output) :
    P Value fun γ => Eval.firstTrue (f γ otherwise)
      (branches.map fun b => ⟨f γ b.condition, f γ b.output⟩) := by
  induction branches with
  | nil => exact last
  | cons b rest ih =>
      obtain ⟨condition, output⟩ := each b List.mem_cons_self
      have others := ih fun b' member => each b' (List.mem_cons_of_mem _ member)
      simp only [List.map_cons,Eval.firstTrue]
      refine composes.bind (F := fun v γ => Eval.truth v >>= fun holds =>
        if holds then f γ b.output else Eval.firstTrue (f γ otherwise)
          (rest.map fun b => ⟨f γ b.condition, f γ b.output⟩)) condition fun v => ?_
      refine composes.bind (F := fun (holds : Bool) γ =>
        if holds then f γ b.output else Eval.firstTrue (f γ otherwise)
          (rest.map fun b => ⟨f γ b.condition, f γ b.output⟩)) (composes.truth own v) fun holds => ?_
      cases holds with
      | true => exact output
      | false => exact others

theorem past (own : OwnErrors E) (interpolation : Interpolation) (x : Float) (lower : Stop ι)
    (first : P Value fun γ => f γ lower.output) (stops : List (Stop ι))
    (each : ∀ p ∈ stops, P Value fun γ => f γ p.output) :
    P Value fun γ => Eval.past interpolation x ⟨lower.input, f γ lower.output⟩
      (stops.map fun p => ⟨p.input, f γ p.output⟩) := by
  induction stops generalizing lower with
  | nil => exact first
  | cons upper rest ih =>
      have next := each upper List.mem_cons_self
      simp only [List.map_cons,Eval.past]
      split
      · exact ih upper next fun p member => each p (List.mem_cons_of_mem _ member)
      · split
        · exact first
        · refine composes.bind (F := fun a γ => f γ upper.output >>= fun b =>
            Eval.ofExcept (Value.blend (interpolation.factor x lower.input upper.input) a b))
            first fun a => ?_
          refine composes.bind (F := fun b _ =>
            Eval.ofExcept (Value.blend (interpolation.factor x lower.input upper.input) a b))
            next fun b => composes.ofExcept _ fun e failed => ?_
          obtain ⟨expected, found, rfl⟩ := blend_mismatch _ _ _ _ failed
          exact own _ (by intro name same; cases same)

theorem along (own : OwnErrors E) (interpolation : Interpolation) (stops : List (Stop ι))
    (each : ∀ p ∈ stops, P Value fun γ => f γ p.output) (x : Float) :
    P Value fun γ => Eval.along interpolation (stops.map fun p => ⟨p.input, f γ p.output⟩) x := by
  unfold Eval.along
  split
  · exact composes.failure _ (own _ (by intro name same; cases same))
  · cases stops with
    | nil => exact composes.failure _ (own _ (by intro name same; cases same))
    | cons lower rest =>
        have first := each lower List.mem_cons_self
        simp only [List.map_cons]
        split
        · exact first
        · exact composes.past own interpolation x lower first rest
            fun p member => each p (List.mem_cons_of_mem _ member)

theorem plain (own : OwnErrors E) (node : Node ι) (plain : node.binds = false)
    (zooms : node.asksZoom = true → P Float fun _ => Eval.zoom)
    (asked : node.asksFeature = true → ∀ name, P (Option Json) fun _ => property name)
    (named : ∀ name, node = .var name → P Value fun _ => lookup name)
    (each : ∀ c ∈ node.children, P Value fun γ => f γ c) : P Value fun γ => (node.map (f γ)).run := by
  cases node with
  | literal v => exact composes.value v
  | zoom => exact composes.bind (zooms rfl) fun z => composes.value _
  | get name =>
      exact composes.bind (each name (by simp [Node.children])) fun v => composes.get own (asked rfl) v
  | has key =>
      exact composes.bind (each key (by simp [Node.children])) fun v => composes.has own (asked rfl) v
  | hasIn key object =>
      refine composes.bind (F := fun v γ => Eval.text v >>= fun name =>
        f γ object >>= fun o => Eval.member name o) (each key (by simp [Node.children])) fun v => ?_
      refine composes.bind (F := fun name γ => f γ object >>= fun o => Eval.member name o)
        (composes.text own v) fun name => ?_
      exact composes.bind (each object (by simp [Node.children])) fun o => composes.member own name o
  | var name => exact named name rfl
  | letIn bindings body => cases plain
  | coalesce args => exact composes.firstValue args each none fun e same => by cases same
  | throw message => exact composes.failure _ (own _ (by intro name same; cases same))
  | assert type args => exact composes.firstOfType own type .unknown args each
  | assertArray item length input =>
      exact composes.bind (each input (by simp [Node.children])) fun v =>
        composes.arrayOf own item length v
  | parseColor input =>
      exact composes.bind (each input (by simp [Node.children])) fun v => composes.color own v
  | not input =>
      refine composes.bind (F := fun v _ => Eval.truth v >>= fun b => pure (Value.bool !b))
        (each input (by simp [Node.children])) fun v => ?_
      exact composes.bind (composes.truth own v) fun b => composes.value _
  | case branches otherwise =>
      refine composes.firstTrue own otherwise (each otherwise (by simp [Node.children])) branches ?_
      intro b member
      constructor
      · exact each _ (by simp only [Node.children]; grind)
      · exact each _ (by simp only [Node.children]; grind)
  | select input arms otherwise =>
      refine composes.bind (F := fun v γ => Eval.labelled v (f γ otherwise)
        (arms.map fun a => ⟨a.labels, f γ a.output⟩)) (each input (by simp [Node.children])) fun v => ?_
      refine Composes.labelled v otherwise (each otherwise (by simp [Node.children])) arms ?_
      intro a member
      exact each _ (by simp only [Node.children]; grind)
  | curve interpolation input stops =>
      refine composes.bind (F := fun v γ => Eval.number v >>= fun x =>
        Eval.along interpolation (stops.map fun p => ⟨p.input, f γ p.output⟩) x)
        (each input (by simp [Node.children])) fun v => ?_
      refine composes.bind (F := fun x γ =>
        Eval.along interpolation (stops.map fun p => ⟨p.input, f γ p.output⟩) x)
        (composes.number own v) fun x => ?_
      refine composes.along own interpolation stops ?_ x
      intro p member
      exact each _ (by simp only [Node.children]; grind)

section Scopes

variable (pushed : ∀ name v, P Unit fun _ => push name v)
include pushed

theorem bindAll (bindings : List (Binding ι)) (each : ∀ b ∈ bindings, P Value fun γ => f γ b.value) :
    P Unit fun γ => Eval.bindAll (bindings.map fun b => ⟨b.name, f γ b.value⟩) := by
  induction bindings with
  | nil => exact composes.value ()
  | cons b rest ih =>
      have others := ih fun b' member => each b' (List.mem_cons_of_mem _ member)
      simp only [List.map_cons,Eval.bindAll]
      refine composes.bind (F := fun v γ => push b.name v >>= fun _ =>
        Eval.bindAll (rest.map fun b => ⟨b.name, f γ b.value⟩)) (each b List.mem_cons_self) fun v => ?_
      exact composes.bind (pushed b.name v) fun _ => others

theorem run (own : OwnErrors E)
    (enclosed : ∀ {A : Γ → Eval Value}, P Value A → P Value fun γ => inScope (A γ))
    (zooms : P Float fun _ => Eval.zoom) (named : ∀ name, P Value fun _ => lookup name)
    (node : Node ι) (asked : node.asksFeature = true → ∀ name, P (Option Json) fun _ => property name)
    (each : ∀ c ∈ node.children, P Value fun γ => f γ c) : P Value fun γ => (node.map (f γ)).run := by
  by_cases binding : node.binds = true
  · cases node with
    | letIn bindings body =>
        refine enclosed ?_
        refine composes.bind (F := fun _ γ => f γ body) (composes.bindAll pushed bindings ?_) fun _ => ?_
        · intro b member
          exact each _ (by simp only [Node.children]; grind)
        · exact each body (by simp [Node.children])
    | _ => cases binding
  · have plain : node.binds = false := by simpa using binding
    exact composes.plain own node plain (fun _ => zooms) asked (fun name _ => named name) each

end Scopes

end Composes

structure ComposesScopes (P : (α : Type) → (Γ → Eval α) → Prop) : Prop
    extends Composes (fun _ => True) P where
  zoom : P Float fun _ => Eval.zoom
  asked : ∀ name, P (Option Json) fun _ => property name
  named : ∀ name, P Value fun _ => lookup name
  pushed : ∀ name v, P Unit fun _ => push name v
  enclosed : ∀ {A : Γ → Eval Value}, P Value A → P Value fun γ => inScope (A γ)

namespace ComposesScopes

variable {P : (α : Type) → (Γ → Eval α) → Prop} (composes : ComposesScopes P) {f : Γ → ι → Eval Value}
include composes

theorem run (node : Node ι) (each : ∀ c ∈ node.children, P Value fun γ => f γ c) :
    P Value fun γ => (node.map (f γ)).run :=
  composes.toComposes.run composes.pushed (fun _ _ => trivial) composes.enclosed composes.zoom
    composes.named node (fun _ => composes.asked) each

theorem eval (e : Expr) : P Value fun _ => e.eval := by
  induction e using Expr.induct with
  | step e ih =>
      rw [Expr.eval_eq]
      exact composes.run (f := fun _ c => c.eval) e.node ih

end ComposesScopes

end Eval

end MapStyle
