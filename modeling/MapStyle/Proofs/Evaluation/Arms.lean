import MapStyle.Proofs.Reading.Formed
import Mathlib.Data.List.Find

-- A match goes to its first arm with a label equal to the input. As no value equals labels of
-- two arms, it is the only one, wherever among the arms it stands.

namespace MapStyle

open Eval

theorem Value.beq_of_common {u v w : Value} (scalar : v.typeOf ∈ [Ty.string, .number, .boolean])
    (first : (u == v) = true) (second : (u == w) = true) : (v == w) = true := by
  cases v with
  | bool b =>
      cases u with
      | bool a =>
          cases w with
          | bool c =>
              exact BEq.trans (a := b) (b := a) (c := c) (BEq.symm (a := a) (b := b) first) second
          | _ => cases second
      | _ => cases first
  | num y =>
      cases u with
      | num x =>
          cases w with
          | num z =>
              exact BEq.trans (a := y) (b := x) (c := z) (BEq.symm (a := x) (b := y) first) second
          | _ => cases second
      | _ => cases first
  | str t =>
      cases u with
      | str s =>
          cases w with
          | str r =>
              exact BEq.trans (a := t) (b := s) (c := r) (BEq.symm (a := s) (b := t) first) second
          | _ => cases second
      | _ => cases first
  | arr items => cases items <;> simp [typeOf] at scalar
  | _ => simp [typeOf] at scalar

namespace Arm

variable {α : Type} {arms arms' : List (Arm α)}

def takes (v : Value) (a : Arm α) : Bool := a.labels.contains v

def Reordered (arms arms' : List (Arm α)) : Prop :=
  ∃ between, arms.Perm between ∧
    List.Forall₂ (fun a a' => a.labels.Perm a'.labels ∧ a'.output = a.output) between arms'

theorem Labelled.sole (labelled : Arm.Labelled arms) (v : Value) :
    arms.Pairwise fun a b => ¬ (a.takes v = true ∧ b.takes v = true) := by
  obtain ⟨type, scalar, typed⟩ := labelled.kind
  have apart := (List.pairwise_flatMap.mp labelled.apart).2
  refine List.Pairwise.imp_of_mem ?_ apart
  intro a b belongs _ differ both
  obtain ⟨l, inFirst, first⟩ := List.contains_iff_exists_mem_beq.mp both.1
  obtain ⟨m, inSecond, second⟩ := List.contains_iff_exists_mem_beq.mp both.2
  have kind : l.typeOf ∈ [Ty.string, .number, .boolean] := by
    rw [typed a belongs l inFirst]
    exact scalar
  have same := Value.beq_of_common kind first second
  rw [(differ l inFirst m inSecond).1] at same
  cases same

theorem Labelled.find?_perm (labelled : Arm.Labelled arms) (perm : arms.Perm arms') (v : Value) :
    arms.find? (takes v) = arms'.find? (takes v) := by
  refine List.find?_eq_find?_of_perm perm ?_
  intro a first b second
  refine Classical.byContradiction fun differ => ?_
  have symmetric : Std.Symm fun a b : Arm α => ¬ (a.takes v = true ∧ b.takes v = true) :=
    ⟨fun _ _ apart both => apart both.symm⟩
  exact (labelled.sole v).forall first.1 second.1 differ ⟨first.2, second.2⟩

theorem find?_labels {v : Value} (alike : List.Forall₂
    (fun a a' : Arm α => a.labels.Perm a'.labels ∧ a'.output = a.output) arms arms') :
    (arms'.find? (takes v)).map Arm.output = (arms.find? (takes v)).map Arm.output := by
  induction alike with
  | nil => rfl
  | @cons a a' rest rest' first _ ih =>
      have same : a'.takes v = a.takes v := first.1.contains_eq.symm
      rw [List.find?_cons,List.find?_cons,same]
      cases a.takes v with
      | true => exact congrArg some first.2
      | false => exact ih

theorem Labelled.reordered (labelled : Arm.Labelled arms) (reordered : Reordered arms arms')
    (v : Value) :
    (arms'.find? (takes v)).map Arm.output = (arms.find? (takes v)).map Arm.output := by
  obtain ⟨between, perm, alike⟩ := reordered
  rw [find?_labels alike,labelled.find?_perm perm]

end Arm

theorem Eval.labelled_map {α : Type} (f : α → Eval Value) (v : Value) (otherwise : Eval Value)
    (arms : List (Arm α)) :
    labelled v otherwise (arms.map fun a => ⟨a.labels, f a.output⟩) =
      (((arms.find? (Arm.takes v)).map Arm.output).map f).getD otherwise := by
  unfold labelled
  rw [List.find?_map]
  unfold Function.comp Arm.takes
  cases arms.find? fun a => a.labels.contains v <;> rfl

theorem Expr.eval_select_reordered {data : Json} {options : ParseOptions} {e : Expr}
    (parsed : Expr.parse data options = .ok e) {path : Path} {type : Ty} {input otherwise : Expr}
    {arms arms' : List (Arm Expr)}
    (member : (⟨path, type, .select input arms otherwise⟩ : Expr) ∈ e.nodes)
    (reordered : Arm.Reordered arms arms') (s : Session) :
    Expr.eval ⟨path, type, .select input arms' otherwise⟩ s =
      Expr.eval ⟨path, type, .select input arms otherwise⟩ s := by
  have labelled : Arm.Labelled arms := Expr.parse_formed parsed _ member
  have same : ∀ v, Eval.labelled v otherwise.eval (arms'.map fun a => ⟨a.labels, a.output.eval⟩) =
      Eval.labelled v otherwise.eval (arms.map fun a => ⟨a.labels, a.output.eval⟩) := by
    intro v
    rw [labelled_map Expr.eval,labelled_map Expr.eval,labelled.reordered reordered]
  rw [eval_eq,eval_eq ⟨path, type, .select input arms otherwise⟩]
  simp only [Node.map,Node.run,same]

theorem eval_select_reordered_exchanged :
    let kind : Json := .arr [.str "get", .str "kind"]
    let data : Json := .arr [.str "match", kind, .arr [.str "path", .str "track"],
      .num (.int 1 (by decide)), .str "road", .num (.int 2 (by decide)), .num (.int 3 (by decide))]
    let input : Expr := ⟨[.index 1], .unknown, .get ⟨[.index 1, .index 1], .string,
      .literal (.str "kind")⟩⟩
    let number (position : Nat) (x : Float) : Expr :=
      ⟨[.index position], .number, .literal (.num x)⟩
    let arms : List (Arm Expr) :=
      [⟨[.str "path", .str "track"], number 3 1⟩, ⟨[.str "road"], number 5 2⟩]
    let arms' : List (Arm Expr) :=
      [⟨[.str "road"], number 5 2⟩, ⟨[.str "track", .str "path"], number 3 1⟩]
    let e : Expr := ⟨[], .number, .select input arms (number 6 3)⟩
    let s := Session.start none (some (Feature.ofMembers [("kind", .str "track")]))
    Expr.parse data ⟨none, none⟩ = .ok e ∧ e ∈ e.nodes ∧ Arm.Reordered arms arms' ∧
      e.eval s = (.ok (.num 1), { s with reads := ["kind"] }) ∧
      Expr.eval ⟨[], .number, .select input arms' (number 6 3)⟩ s = e.eval s := by
  intro kind data input number arms arms' e s
  have parsed : Expr.parse data ⟨none, none⟩ = .ok e := rfl
  have reordered : Arm.Reordered arms arms' :=
    ⟨arms.reverse, (List.reverse_perm arms).symm,
      .cons ⟨.refl _, rfl⟩ (.cons ⟨.swap _ _ _, rfl⟩ .nil)⟩
  exact ⟨parsed, .head _, reordered, rfl, Expr.eval_select_reordered parsed (.head _) reordered s⟩

end MapStyle
