import MapStyle.Expr.Basic

namespace MapStyle

abbrev Scope := List (String × Expr)

def Scope.bindAll : Scope → List (Binding Expr) → Scope
  | scope, [] => scope
  | scope, b :: rest => bindAll ((b.name, b.value) :: scope) rest

def locatedBindings : Scope → List (Binding Expr) → List (Binding (Scope × Expr))
  | _, [] => []
  | scope, b :: rest =>
      ⟨b.name, (scope, b.value)⟩ :: locatedBindings ((b.name, b.value) :: scope) rest

namespace Node

-- The sub-expressions of a node with the scope that each one is in, when the
-- node is in this scope. Only bindings make a difference.
def located (scope : Scope) : Node Expr → Node (Scope × Expr)
  | .letIn bindings body => .letIn (locatedBindings scope bindings) (scope.bindAll bindings, body)
  | node => node.map fun c => (scope, c)

def binds {α : Type} : Node α → Bool
  | .letIn .. => true
  | _ => false

@[simp] theorem map_map {α β γ : Type} (f : α → β) (g : β → γ) (node : Node α) :
    (node.map f).map g = node.map fun c => g (f c) := by
  cases node <;> simp [Node.map]

theorem map_congr_left {α β : Type} {f g : α → β} {node : Node α}
    (same : ∀ c ∈ node.children, f c = g c) : node.map f = node.map g := by
  cases node with
  | letIn bindings body =>
      have values : ∀ b ∈ bindings, f b.value = g b.value := fun b member =>
        same _ (List.mem_append_left _ (List.mem_map_of_mem member))
      simp_all [map,children]
  | case branches otherwise =>
      have pairs : ∀ b ∈ branches, f b.condition = g b.condition ∧ f b.output = g b.output :=
        fun b member =>
          ⟨same _ (List.mem_append_left _ (List.mem_flatMap.mpr ⟨b, member, by simp⟩)),
            same _ (List.mem_append_left _ (List.mem_flatMap.mpr ⟨b, member, by simp⟩))⟩
      simp_all [map,children]
  | select input arms otherwise =>
      have outputs : ∀ a ∈ arms, f a.output = g a.output := fun a member =>
        same _ (List.mem_append_left _ (List.mem_cons_of_mem _ (List.mem_map_of_mem member)))
      simp_all [map,children]
  | _ => simp_all [map,children]

theorem located_eq_map (scope : Scope) (node : Node Expr) (plain : node.binds = false) :
    node.located scope = node.map fun c => (scope, c) := by
  cases node with
  | letIn bindings body => cases plain
  | _ => rfl

theorem locatedBindings_map {β : Type} (f : Expr → β) (scope : Scope)
    (bindings : List (Binding Expr)) :
    ((locatedBindings scope bindings).map fun b => (⟨b.name, f b.value.2⟩ : Binding β)) =
      bindings.map fun b => ⟨b.name, f b.value⟩ := by
  induction bindings generalizing scope with
  | nil => rfl
  | cons b rest ih => simp [locatedBindings,ih]

theorem located_map {β : Type} (f : Expr → β) (scope : Scope) (node : Node Expr) :
    (node.located scope).map (fun p => f p.2) = node.map f := by
  cases node with
  | letIn bindings body => simp only [located,Node.map,locatedBindings_map]
  | _ => rw [located_eq_map _ _ rfl,map_map]

theorem located_children (scope : Scope) (node : Node Expr) :
    (node.located scope).children.map Prod.snd = node.children := by
  rw [← children_map,located_map (fun c => c),children_map,List.map_id']

theorem mem_located_children {scope : Scope} {node : Node Expr} {p : Scope × Expr}
    (member : p ∈ (node.located scope).children) : p.2 ∈ node.children := by
  rw [← node.located_children scope]
  exact List.mem_map_of_mem member

end Node

end MapStyle
