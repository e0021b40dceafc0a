import MapStyle.Expr.Node

-- The typed expression tree.
--
-- Every traversal is a `fold` over the layers of the tree: `fold_eq` says that it is
-- the algebra applied to the node with its sub-expressions folded. `induct` is the
-- induction that goes with it, from the children of a node to the node.

namespace MapStyle

structure Expr where
  path : Path
  type : Ty
  node : Node Expr

namespace Expr

section Fold

variable {β : Type} (algebra : Expr → Node β → β)

mutual
def fold : Expr → β
  | ⟨path, type, node⟩ => algebra ⟨path, type, node⟩ (foldNode node)

def foldNode : Node Expr → Node β
  | .literal v => .literal v
  | .zoom => .zoom
  | .get name => .get (fold name)
  | .has key => .has (fold key)
  | .hasIn key object => .hasIn (fold key) (fold object)
  | .var name => .var name
  | .letIn bindings body => .letIn (foldBindings bindings) (fold body)
  | .coalesce args => .coalesce (foldList args)
  | .throw message => .throw message
  | .assert type args => .assert type (foldList args)
  | .assertArray item length input => .assertArray item length (fold input)
  | .parseColor input => .parseColor (fold input)
  | .not input => .not (fold input)
  | .case branches otherwise => .case (foldBranches branches) (fold otherwise)
  | .select input arms otherwise => .select (fold input) (foldArms arms) (fold otherwise)
  | .curve interpolation input stops => .curve interpolation (fold input) (foldStops stops)

def foldList : List Expr → List β
  | [] => []
  | e :: es => fold e :: foldList es

def foldBindings : List (Binding Expr) → List (Binding β)
  | [] => []
  | ⟨name, value⟩ :: rest => ⟨name, fold value⟩ :: foldBindings rest

def foldBranches : List (Branch Expr) → List (Branch β)
  | [] => []
  | ⟨condition, output⟩ :: rest => ⟨fold condition, fold output⟩ :: foldBranches rest

def foldArms : List (Arm Expr) → List (Arm β)
  | [] => []
  | ⟨labels, output⟩ :: rest => ⟨labels, fold output⟩ :: foldArms rest

def foldStops : List (Stop Expr) → List (Stop β)
  | [] => []
  | ⟨input, output⟩ :: rest => ⟨input, fold output⟩ :: foldStops rest
end

@[simp] theorem foldList_eq_map (es : List Expr) : foldList algebra es = es.map (fold algebra) := by
  induction es with
  | nil => rfl
  | cons e es ih => simp [foldList,ih]

@[simp] theorem foldBindings_eq_map (bs : List (Binding Expr)) :
    foldBindings algebra bs = bs.map fun b => ⟨b.name, fold algebra b.value⟩ := by
  induction bs with
  | nil => rfl
  | cons b bs ih => simp [foldBindings,ih]

@[simp] theorem foldBranches_eq_map (bs : List (Branch Expr)) :
    foldBranches algebra bs =
      bs.map fun b => ⟨fold algebra b.condition, fold algebra b.output⟩ := by
  induction bs with
  | nil => rfl
  | cons b bs ih => simp [foldBranches,ih]

@[simp] theorem foldArms_eq_map (as : List (Arm Expr)) :
    foldArms algebra as = as.map fun a => ⟨a.labels, fold algebra a.output⟩ := by
  induction as with
  | nil => rfl
  | cons a as ih => simp [foldArms,ih]

@[simp] theorem foldStops_eq_map (ss : List (Stop Expr)) :
    foldStops algebra ss = ss.map fun s => ⟨s.input, fold algebra s.output⟩ := by
  induction ss with
  | nil => rfl
  | cons s ss ih => simp [foldStops,ih]

@[simp] theorem foldNode_eq_map (node : Node Expr) :
    foldNode algebra node = node.map (fold algebra) := by
  cases node <;> simp [foldNode,Node.map]

theorem fold_eq (e : Expr) : fold algebra e = algebra e (e.node.map (fold algebra)) := by
  obtain ⟨path, type, node⟩ := e
  simp [fold]

end Fold

theorem sizeOf_lt_of_mem_children {c e : Expr} (member : c ∈ e.node.children) :
    sizeOf c < sizeOf e := by
  obtain ⟨path, type, node⟩ := e
  have below : sizeOf node < sizeOf (Expr.mk path type node) := by
    simp only [Expr.mk.sizeOf_spec]; omega
  refine Nat.lt_trans ?_ below
  cases node <;> simp [Node.children] at member ⊢
  case get | has | assertArray | parseColor | not => subst member; omega
  case hasIn => rcases member with rfl | rfl <;> omega
  case letIn bindings body =>
      rcases member with ⟨b, present, rfl⟩ | rfl
      · have inner : sizeOf b.value < sizeOf b := by
          cases b; simp only [Binding.mk.sizeOf_spec]; omega
        have outer := List.sizeOf_lt_of_mem present
        omega
      · omega
  case coalesce args => have outer := List.sizeOf_lt_of_mem member; omega
  case assert type args => have outer := List.sizeOf_lt_of_mem member; omega
  case case branches otherwise =>
      rcases member with ⟨b, present, which⟩ | rfl
      · have outer := List.sizeOf_lt_of_mem present
        have inner : sizeOf b.condition < sizeOf b ∧ sizeOf b.output < sizeOf b := by
          cases b; simp only [Branch.mk.sizeOf_spec]; omega
        rcases which with rfl | rfl <;> omega
      · omega
  case select input arms otherwise =>
      rcases member with rfl | ⟨a, present, rfl⟩ | rfl
      · omega
      · have inner : sizeOf a.output < sizeOf a := by
          cases a; simp only [Arm.mk.sizeOf_spec]; omega
        have outer := List.sizeOf_lt_of_mem present
        omega
      · omega
  case curve interpolation input stops =>
      rcases member with rfl | ⟨s, present, rfl⟩
      · omega
      · have inner : sizeOf s.output < sizeOf s := by
          cases s; simp only [Stop.mk.sizeOf_spec]; omega
        have outer := List.sizeOf_lt_of_mem present
        omega

theorem induct {motive : Expr → Prop}
    (step : ∀ e : Expr, (∀ c ∈ e.node.children, motive c) → motive e) (e : Expr) : motive e :=
  step e fun c member =>
    have _smaller := sizeOf_lt_of_mem_children member
    induct step c
termination_by sizeOf e

def nodes : Expr → List Expr :=
  fold fun e below => e :: below.children.flatten

theorem nodes_eq (e : Expr) : e.nodes = e :: e.node.children.flatMap nodes := by
  rw [nodes,fold_eq,Node.children_map,List.flatMap]

def asksZoom (e : Expr) : Bool :=
  e.nodes.any fun n => n.node.asksZoom

def asksFeature (e : Expr) : Bool :=
  e.nodes.any fun n => n.node.asksFeature

def equals : Expr → Expr → Bool :=
  fold fun e below other =>
    e.path == other.path && e.type == other.type && below.agrees (fun same x => same x) other.node

instance : BEq Expr := ⟨equals⟩

end Expr

end MapStyle
