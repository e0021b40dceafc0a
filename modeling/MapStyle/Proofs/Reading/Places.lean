import Mathlib.Data.List.Lex
import MapStyle.Proofs.Scope.Resolution

-- Where the nodes of a tree stand in the data that it was read from. Each path leads to
-- the array or scalar that the node was spelled as, and going through the tree comes by
-- the paths in the order in which the data is written.

namespace MapStyle

def Ty.operator? : Ty → Option Operator
  | .string => some .string
  | .number => some .number
  | .boolean => some .boolean
  | .object => some .object
  | _ => none

def Node.operator? {α : Type} : Node α → Option Operator
  | .literal _ => some .literal
  | .zoom => some .zoom
  | .get _ => some .get
  | .has _ | .hasIn _ _ => some .has
  | .var _ => some .var
  | .letIn _ _ => some .letIn
  | .coalesce _ => some .coalesce
  | .throw _ => some .error
  | .assert type _ => type.operator?
  | .assertArray _ _ _ => some .array
  | .parseColor _ => some .parseColor
  | .not _ => some .not
  | .case _ _ => some .case
  | .select _ _ _ => some .select
  | .curve _ _ _ => some .curve

def Node.SpelledBy {α : Type} (data : Json) (node : Node α) : Prop :=
  ((∃ v, node = .literal v) ∧ data.isScalar = true) ∨
    ∃ op args, node.operator? = some op ∧ data = .arr (.str op.tag :: args)

def Step.Before : Step → Step → Prop
  | .index i, .index j => i < j
  | _, _ => False

abbrev Path.Before : Path → Path → Prop :=
  List.Lex Step.Before

theorem Path.before_irrefl (path : Path) : ¬ path.Before path := by
  intro before
  induction path with
  | nil => cases before
  | cons step rest ih =>
      cases before with
      | cons after => exact ih after
      | rel first =>
          cases step with
          | key name => exact first
          | index i => exact Nat.lt_irrefl i first

-- Expressions at elements of one array, in order, from a position on and up to another.
inductive Ascend (path : Path) : Nat → Nat → List Expr → Prop
  | nil {first last : Nat} (within : first ≤ last) : Ascend path first last []
  | cons {first position last : Nat} {e : Expr} {es : List Expr} (within : first ≤ position)
      (place : e.path = path.child (.index position)) (others : Ascend path (position + 1) last es) :
      Ascend path first last (e :: es)

namespace Ascend

variable {path : Path} {first middle last : Nat} {e : Expr} {es es' : List Expr}

theorem one (place : e.path = path.child (.index first)) : Ascend path first (first + 1) [e] :=
  .cons (Nat.le_refl first) place (.nil (Nat.le_refl _))

theorem later (ascend : Ascend path middle last es) (within : first ≤ middle) :
    Ascend path first last es := by
  cases ascend with
  | nil after => exact .nil (Nat.le_trans within after)
  | cons after place others => exact .cons (Nat.le_trans within after) place others

theorem append (ascend : Ascend path first middle es) (ascend' : Ascend path middle last es') :
    Ascend path first last (es ++ es') := by
  induction ascend with
  | nil within => exact ascend'.later within
  | cons within place _ ih => exact .cons within place (ih ascend')

theorem mem_place (ascend : Ascend path first last es) :
    ∀ e ∈ es, ∃ position, first ≤ position ∧ e.path = path.child (.index position) := by
  induction ascend with
  | nil => exact nofun
  | cons within place _ ih =>
      intro e member
      rcases List.mem_cons.mp member with rfl | belongs
      · exact ⟨_, within, place⟩
      · obtain ⟨position, after, there⟩ := ih e belongs
        exact ⟨position, Nat.le_trans within (Nat.le_of_succ_le after), there⟩

theorem pairwise (ascend : Ascend path first last es) :
    es.Pairwise fun c d => ∃ i j, c.path = path.child (.index i) ∧
      d.path = path.child (.index j) ∧ i < j := by
  induction ascend with
  | nil => exact .nil
  | cons _ place others ih =>
      refine List.pairwise_cons.mpr ⟨?_, ih⟩
      intro d member
      obtain ⟨j, after, there⟩ := others.mem_place d member
      exact ⟨_, j, place, there, after⟩

end Ascend

def Expr.Ordered (e : Expr) : Prop :=
  ∃ last, Ascend e.path 1 last e.node.children

theorem Expr.nodes_inOrder (e : Expr) (ordered : ∀ n ∈ e.nodes, n.Ordered) :
    (∀ n ∈ e.nodes, e.path <+: n.path) ∧ (e.nodes.map Expr.path).Pairwise Path.Before := by
  induction e using Expr.induct with
  | step e ih =>
      have whole := e.nodes_eq
      obtain ⟨last, ascend⟩ := ordered e (by rw [whole]; exact List.mem_cons_self)
      have below : ∀ c ∈ e.node.children, (∀ n ∈ c.nodes, c.path <+: n.path) ∧
          (c.nodes.map Expr.path).Pairwise Path.Before := by
        intro c child
        refine ih c child fun n member => ordered n ?_
        rw [whole]
        exact List.mem_cons_of_mem _ (List.mem_flatMap.mpr ⟨c, child, member⟩)
      have inside : ∀ n ∈ e.node.children.flatMap Expr.nodes, ∃ step rest,
          n.path = e.path ++ step :: rest := by
        intro n member
        obtain ⟨c, child, belongs⟩ := List.mem_flatMap.mp member
        obtain ⟨position, _, place⟩ := ascend.mem_place c child
        obtain ⟨rest, extends'⟩ := (below c child).1 n belongs
        refine ⟨.index position, rest, ?_⟩
        rw [← extends',place,Path.child,List.append_assoc]
        rfl
      rw [whole]
      constructor
      · intro n member
        rcases List.mem_cons.mp member with rfl | deeper
        · exact List.prefix_rfl
        · obtain ⟨step, rest, place⟩ := inside n deeper
          exact ⟨step :: rest, place.symm⟩
      · refine List.pairwise_map.mpr (List.pairwise_cons.mpr ⟨?_, List.pairwise_flatMap.mpr ⟨?_, ?_⟩⟩)
        · intro n member
          obtain ⟨step, rest, place⟩ := inside n member
          rw [place]
          simpa using List.Lex.append_left Step.Before (.nil : List.Lex _ [] (step :: rest)) e.path
        · intro c child
          exact List.pairwise_map.mp (below c child).2
        · refine ascend.pairwise.imp_of_mem ?_
          intro c d child child' apart n member n' member'
          obtain ⟨i, j, place, place', before⟩ := apart
          obtain ⟨rest, extends'⟩ := (below c child).1 n member
          obtain ⟨rest', extends''⟩ := (below d child').1 n' member'
          have order : List.Lex Step.Before (.index i :: rest) (.index j :: rest') := .rel before
          rw [← extends',← extends'',place,place',Path.child,Path.child,List.append_assoc,
            List.append_assoc]
          exact List.Lex.append_left Step.Before order e.path

def Operand.Places (o : Operand) : Prop :=
  ∀ ctx e, o.read ctx = pure e → e.path = ctx.path

open Attempt

namespace Reading

variable {ctx : Context} {position : Nat}

theorem alternatives_ascend {operands : List Operand} (places : ∀ o ∈ operands, o.Places)
    {common final : Common} {es : List Expr}
    (success : alternatives ctx common position operands = (final, pure es)) :
    Ascend ctx.path position (position + operands.length) es := by
  induction operands generalizing common position es with
  | nil =>
      obtain rfl := pure_eq_pure.mp (Prod.mk.inj success).2
      exact .nil (Nat.le_refl _)
  | cons o rest ih =>
      obtain ⟨e, both, others, read, _, after, rfl⟩ := alternatives_cons_eq_pure.mp success
      have ascend := ih (fun o member => places o (List.mem_cons_of_mem _ member)) after
      rw [Nat.add_assoc,Nat.add_comm 1] at ascend
      exact .cons (Nat.le_refl _) (places o List.mem_cons_self _ e read) ascend

theorem all_ascend {operands : List Operand} (places : ∀ o ∈ operands, o.Places) {es : List Expr}
    (success : ((operands.zipIdx position).map fun p => p.1.readFreeAt ctx p.2) = es.map pure) :
    Ascend ctx.path position (position + operands.length) es := by
  induction operands generalizing position es with
  | nil =>
      cases es with
      | nil => exact .nil (Nat.le_refl _)
      | cons e es => cases success
  | cons o rest ih =>
      cases es with
      | nil => cases success
      | cons e es =>
          obtain ⟨read, others⟩ := List.cons.inj success
          have ascend := ih (fun o member => places o (List.mem_cons_of_mem _ member)) others
          rw [Nat.add_assoc,Nat.add_comm 1] at ascend
          exact .cons (Nat.le_refl _) (places o List.mem_cons_self _ e read) ascend

theorem output_place {o : Operand} (places : o.Places) {common final : Common} {e : Expr}
    (success : output ctx common position o = (final, pure e)) :
    e.path = ctx.path.child (.index position) :=
  places _ e (output_eq_pure.mp success).1

section Pairs

variable {pairs : List (Operand × Operand)} (places : ∀ p ∈ pairs, p.1.Places ∧ p.2.Places)
include places

theorem branches_ascend {common final : Common} {bs : List (Branch Expr)}
    (success : branches ctx common position pairs = (final, pure bs)) :
    Ascend ctx.path position (position + 2 * pairs.length)
      (bs.flatMap fun b => [b.condition, b.output]) := by
  induction pairs generalizing common position bs with
  | nil =>
      obtain rfl := pure_eq_pure.mp (Prod.mk.inj success).2
      exact .nil (Nat.le_refl _)
  | cons p rest ih =>
      obtain ⟨c, r, both, others, read, inside, after, rfl⟩ := branches_cons_eq_pure.mp success
      obtain ⟨condition, result⟩ := places p List.mem_cons_self
      have ascend := ih (fun p member => places p (List.mem_cons_of_mem _ member)) after
      rw [Nat.add_assoc,Nat.add_comm 2] at ascend
      exact .cons (Nat.le_refl _) (condition _ c read)
        (.cons (Nat.le_refl _) (output_place result inside) ascend)

theorem arms_ascend {state final : LabelState} {common final' : Common} {as : List (Arm Expr)}
    (success : arms ctx state common position pairs = (final, final', pure as)) :
    Ascend ctx.path position (position + 2 * pairs.length) (as.map Arm.output) := by
  induction pairs generalizing state common position as with
  | nil =>
      obtain rfl := pure_eq_pure.mp (Prod.mk.inj (Prod.mk.inj success).2).2
      exact .nil (Nat.le_refl _)
  | cons p rest ih =>
      obtain ⟨_, r, _, _, others, _, inside, after, rfl⟩ := arms_cons_eq_pure.mp success
      have result := (places p List.mem_cons_self).2
      have ascend := ih (fun p member => places p (List.mem_cons_of_mem _ member)) after
      rw [Nat.add_assoc,Nat.add_comm 2] at ascend
      exact .cons (Nat.le_succ _) (output_place result inside) ascend

theorem stops_ascend {common final : Common} {last : Option Float} {ss : List (Stop Expr)}
    (success : stops ctx common last position pairs = (final, pure ss)) :
    Ascend ctx.path position (position + 2 * pairs.length) (ss.map Stop.output) := by
  induction pairs generalizing common last position ss with
  | nil =>
      obtain rfl := pure_eq_pure.mp (Prod.mk.inj success).2
      exact .nil (Nat.le_refl _)
  | cons p rest ih =>
      obtain ⟨_, r, _, others, _, _, inside, after, rfl⟩ := stops_cons_eq_pure.mp success
      have result := (places p List.mem_cons_self).2
      have ascend := ih (fun p member => places p (List.mem_cons_of_mem _ member)) after
      rw [Nat.add_assoc,Nat.add_comm 2] at ascend
      exact .cons (Nat.le_succ _) (output_place result inside) ascend

theorem bindings_ascend {body : Operand} (last : body.Places) {bs : List (Binding Expr)} {e : Expr}
    (success : bindingsThen ctx position body pairs = pure (bs, e)) :
    Ascend ctx.path position (position + 2 * pairs.length + 1) (bs.map Binding.value ++ [e]) := by
  induction pairs generalizing ctx position bs with
  | nil =>
      obtain ⟨rfl, read⟩ := bindingsThen_nil_eq_pure.mp success
      exact .one (last _ e read)
  | cons p rest ih =>
      obtain ⟨n, v, others, _, _, read, after, rfl⟩ := bindingsThen_cons_eq_pure.mp success
      have value := (places p List.mem_cons_self).2
      have ascend := ih (fun p member => places p (List.mem_cons_of_mem _ member)) after
      rw [Nat.add_assoc position,Nat.add_comm 2] at ascend
      exact .cons (Nat.le_succ _) (value _ v read) ascend

end Pairs

section Operators

variable {operands : List Operand} {e : Expr} (places : ∀ o ∈ operands, o.Places)
include places

theorem letIn_ordered (success : letIn ctx operands = pure e) : e.Ordered := by
  obtain ⟨pairs, last, bs, b, taken, read, rfl⟩ := letIn_eq_pure.mp success
  obtain ⟨parts, body⟩ := pairsAndLast?_each taken places
  exact ⟨_, bindings_ascend parts body read⟩

theorem case_ordered (success : case ctx operands = pure e) : e.Ordered := by
  obtain ⟨pairs, last, _, bs, _, o, taken, read, inside, rfl⟩ := case_eq_pure.mp success
  obtain ⟨parts, otherwise⟩ := pairsAndLast?_each taken places
  rw [pairsAndLast?_length taken,Nat.add_comm] at inside
  exact ⟨_, (branches_ascend parts read).append (.one (output_place otherwise inside))⟩

theorem select_ordered (success : select ctx operands = pure e) : e.Ordered := by
  obtain ⟨input, operands, rfl⟩ := select_operands success
  obtain ⟨pairs, last, state, _, as, _, o, i, taken, read, inside, first, rfl⟩ :=
    select_eq_pure.mp success
  obtain ⟨given, others⟩ := List.forall_mem_cons.mp places
  obtain ⟨parts, otherwise⟩ := pairsAndLast?_each taken others
  have counted : operands.length + 1 = 2 + 2 * pairs.length := by
    rw [pairsAndLast?_length taken]
    omega
  have front : i.path = ctx.path.child (.index 1) := by
    unfold readInput at first
    split at first
    · exact given _ i first
    · exact given _ i first
  rw [counted] at inside
  exact ⟨_, .cons (Nat.le_refl 1) front
    ((arms_ascend parts read).append (.one (output_place otherwise inside)))⟩

theorem curve_ordered (success : curve ctx operands = pure e) : e.Ordered := by
  obtain ⟨kind, input, operands, rfl⟩ := curve_operands success
  obtain ⟨pairs, _, x, _, ss, taken, _, read, inside, _, rfl⟩ := curve_eq_pure.mp success
  obtain ⟨_, places⟩ := List.forall_mem_cons.mp places
  obtain ⟨first, others⟩ := List.forall_mem_cons.mp places
  have parts := pairs?_each taken others
  exact ⟨_, .cons (Nat.le_succ 1) (first _ x read) (stops_ascend parts inside)⟩

theorem has_ordered (success : operator .has ctx operands = pure e) : e.Ordered := by
  rcases operator_has_eq_pure.mp success with ⟨key, rfl, success⟩ | ⟨key, object, rfl, success⟩
  · obtain ⟨k, read, rfl⟩ := has_eq_pure.mp success
    exact ⟨_, .one (places key (by simp) _ k read)⟩
  · obtain ⟨k, o, read, read', rfl⟩ := hasIn_eq_pure.mp success
    exact ⟨_, .cons (Nat.le_refl 1) (places key (by simp) _ k read)
      (.one (places object (by simp) _ o read'))⟩

theorem array_ordered (success : array ctx operands = pure e) : e.Ordered := by
  obtain ⟨_, _, position, input, i, form, read, rfl⟩ := array_eq_pure.mp success
  have belongs : input ∈ operands ∧ 1 ≤ position := by
    cases form with
    | input => exact ⟨by simp, Nat.le_refl 1⟩
    | item => exact ⟨by simp, by decide⟩
    | length => exact ⟨by simp, by decide⟩
  exact ⟨_, .later (.one (places input belongs.1 _ i read)) belongs.2⟩

theorem assert_ordered {type : Ty} (success : assert type ctx operands = pure e) : e.Ordered := by
  obtain ⟨args, read, rfl⟩ := assert_eq_pure.mp success
  exact ⟨_, all_ascend places read⟩

theorem operator_ordered {op : Operator} (success : operator op ctx operands = pure e) :
    e.Ordered := by
  cases op with
  | literal =>
      obtain ⟨o, _, made⟩ := withOne_eq_pure.mp success
      obtain rfl := pure_eq_pure.mp made
      exact ⟨_, .nil (Nat.le_refl _)⟩
  | zoom =>
      obtain rfl := pure_eq_pure.mp success
      exact ⟨_, .nil (Nat.le_refl _)⟩
  | get =>
      obtain ⟨o, rfl, success⟩ := withOne_eq_pure.mp success
      obtain ⟨n, read, rfl⟩ := get_eq_pure.mp success
      exact ⟨_, .one (places o List.mem_cons_self _ n read)⟩
  | has => exact has_ordered places success
  | var =>
      obtain ⟨o, _, success⟩ := withOne_eq_pure.mp success
      obtain ⟨name, bound, _, _, rfl⟩ := var_eq_pure.mp success
      exact ⟨_, .nil (Nat.le_refl _)⟩
  | letIn => exact letIn_ordered places success
  | coalesce =>
      obtain ⟨common, args, read, rfl⟩ := coalesce_eq_pure.mp success
      exact ⟨_, alternatives_ascend places read⟩
  | error =>
      obtain ⟨o, _, success⟩ := withOne_eq_pure.mp success
      obtain ⟨message, _, rfl⟩ := error_eq_pure.mp success
      exact ⟨_, .nil (Nat.le_refl _)⟩
  | string => exact assert_ordered places success
  | number => exact assert_ordered places success
  | boolean => exact assert_ordered places success
  | object => exact assert_ordered places success
  | array => exact array_ordered places success
  | parseColor =>
      obtain ⟨o, rfl, success⟩ := withOne_eq_pure.mp success
      obtain ⟨i, read, rfl⟩ := parseColor_eq_pure.mp success
      exact ⟨_, .one (places o List.mem_cons_self _ i read)⟩
  | not =>
      obtain ⟨o, rfl, success⟩ := withOne_eq_pure.mp success
      obtain ⟨i, read, rfl⟩ := not_eq_pure.mp success
      exact ⟨_, .one (places o List.mem_cons_self _ i read)⟩
  | case => exact case_ordered places success
  | select => exact select_ordered places success
  | curve => exact curve_ordered places success

end Operators

theorem operator_kind {op : Operator} {operands : List Operand} {e : Expr}
    (success : operator op ctx operands = pure e) : e.node.operator? = some op := by
  cases op with
  | literal =>
      obtain ⟨o, _, made⟩ := withOne_eq_pure.mp success
      obtain rfl := pure_eq_pure.mp made
      rfl
  | zoom =>
      obtain rfl := pure_eq_pure.mp success
      rfl
  | get =>
      obtain ⟨o, _, success⟩ := withOne_eq_pure.mp success
      obtain ⟨n, _, rfl⟩ := get_eq_pure.mp success
      rfl
  | has =>
      rcases operator_has_eq_pure.mp success with ⟨_, _, success⟩ | ⟨_, _, _, success⟩
      · obtain ⟨k, _, rfl⟩ := has_eq_pure.mp success
        rfl
      · obtain ⟨k, o, _, _, rfl⟩ := hasIn_eq_pure.mp success
        rfl
  | var =>
      obtain ⟨o, _, success⟩ := withOne_eq_pure.mp success
      obtain ⟨name, bound, _, _, rfl⟩ := var_eq_pure.mp success
      rfl
  | letIn =>
      obtain ⟨_, _, bs, b, _, _, rfl⟩ := letIn_eq_pure.mp success
      rfl
  | coalesce =>
      obtain ⟨common, args, _, rfl⟩ := coalesce_eq_pure.mp success
      rfl
  | error =>
      obtain ⟨o, _, success⟩ := withOne_eq_pure.mp success
      obtain ⟨message, _, rfl⟩ := error_eq_pure.mp success
      rfl
  | string | number | boolean | object =>
      obtain ⟨args, _, rfl⟩ := assert_eq_pure.mp success
      rfl
  | array =>
      obtain ⟨_, _, _, _, i, _, _, rfl⟩ := array_eq_pure.mp success
      rfl
  | parseColor =>
      obtain ⟨o, _, success⟩ := withOne_eq_pure.mp success
      obtain ⟨i, _, rfl⟩ := parseColor_eq_pure.mp success
      rfl
  | not =>
      obtain ⟨o, _, success⟩ := withOne_eq_pure.mp success
      obtain ⟨i, _, rfl⟩ := not_eq_pure.mp success
      rfl
  | case =>
      obtain ⟨_, _, _, bs, _, o, _, _, _, rfl⟩ := case_eq_pure.mp success
      rfl
  | select =>
      obtain ⟨input, operands, rfl⟩ := select_operands success
      obtain ⟨_, _, _, _, as, _, o, i, _, _, _, _, rfl⟩ := select_eq_pure.mp success
      rfl
  | curve =>
      obtain ⟨kind, input, operands, rfl⟩ := curve_operands success
      obtain ⟨_, i, x, _, ss, _, _, _, _, _, rfl⟩ := curve_eq_pure.mp success
      rfl

end Reading

open Reading

namespace Expr

variable {data : Json} {ctx : Context} {e : Expr}

theorem operands_place (args : List Json) : ∀ o ∈ Expr.operands args, o.Places :=
  Expr.operands_each fun _ _ _ _ read => (Expr.read_typed read).1

theorem read_ordered (success : Expr.read data ctx = pure e) : e.Ordered := by
  obtain ⟨read, _⟩ := Expr.read_eq_pure.mp success
  rcases Expr.readAny_eq_pure.mp read with ⟨op, args, rfl, _, applied⟩ | ⟨_, rfl⟩
  · exact operator_ordered (operands_place _) applied
  · exact ⟨1, .nil (Nat.le_refl 1)⟩

theorem read_spelled (success : Expr.read data ctx = pure e) : e.node.SpelledBy data := by
  obtain ⟨read, _⟩ := Expr.read_eq_pure.mp success
  rcases Expr.readAny_eq_pure.mp read with ⟨op, args, rfl, _, applied⟩ | ⟨scalar, rfl⟩
  · exact .inr ⟨op, args, operator_kind applied, rfl⟩
  · exact .inl ⟨⟨_, rfl⟩, scalar⟩

theorem parse_places {options : ParseOptions} (parsed : Expr.parse data options = .ok e) :
    (∀ n ∈ e.nodes, ∃ positions part,
      n.path = (options.key.map Step.key).toList ++ positions.map Step.index ∧
        data.follow? positions = some part ∧ n.node.SpelledBy part) ∧
      (e.nodes.map Expr.path).Pairwise Path.Before ∧ (e.nodes.map Expr.path).Nodup := by
  have each : ∀ n ∈ e.nodes, ∃ scope,
      n.ReadAt data (Context.root options.expected options.key).path scope :=
    e.nodes_readAt (Expr.parse_readAt parsed)
  have ordered : ∀ n ∈ e.nodes, n.Ordered := by
    intro n member
    obtain ⟨_, _, _, _, _, read⟩ := each n member
    exact read_ordered read
  have inOrder := (e.nodes_inOrder ordered).2
  refine ⟨?_, inOrder, inOrder.imp ?_⟩
  · intro n member
    obtain ⟨_, positions, part, _, leads, read⟩ := each n member
    exact ⟨positions, part, (Expr.read_typed read).1, leads, read_spelled read⟩
  · intro p q before same
    exact p.before_irrefl (same ▸ before)

theorem parse_places_match :
    let data : Json := .arr [.str "match", .arr [.str "get", .str "kind"],
      .arr [.str "path", .str "track"], .num (.int 1 (by decide)),
      .arr [.str "literal", .num (.int 2 (by decide))]]
    let name : Expr := ⟨[.key "line-width", .index 1, .index 1], .string, .literal (.str "kind")⟩
    let otherwise : Expr := ⟨[.key "line-width", .index 4], .number, .literal (.num 2)⟩
    let e : Expr := ⟨[.key "line-width"], .number,
      .select ⟨[.key "line-width", .index 1], .unknown, .get name⟩
        [⟨[.str "path", .str "track"], ⟨[.key "line-width", .index 3], .number, .literal (.num 1)⟩⟩]
        otherwise⟩
    Expr.parse data ⟨none, some "line-width"⟩ = .ok e ∧ name ∈ e.nodes ∧
      (∃ positions part, name.path = .key "line-width" :: positions.map Step.index ∧
        data.follow? positions = some part ∧ name.node.SpelledBy part) ∧
      (e.nodes.map Expr.path).Pairwise Path.Before := by
  intro data name otherwise e
  have parsed : Expr.parse data ⟨none, some "line-width"⟩ = .ok e := rfl
  have below : name ∈ e.nodes := .tail _ (.tail _ (.head _))
  obtain ⟨places, inOrder, _⟩ := Expr.parse_places parsed
  exact ⟨parsed, below, places name below, inOrder⟩

end Expr

end MapStyle
