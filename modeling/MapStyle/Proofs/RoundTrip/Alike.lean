import MapStyle.Expr.Written
import MapStyle.Proofs.RoundTrip.Data

namespace MapStyle

open List (Forall₂)

namespace Node

variable {α β γ : Type}

theorem agreeAll_map_left (f : γ → α) (agree : α → β → Bool) (cs : List γ) (bs : List β) :
    agreeAll agree (cs.map f) bs = agreeAll (fun c b => agree (f c) b) cs bs := by
  induction cs generalizing bs with
  | nil => cases bs <;> rfl
  | cons c cs ih =>
      cases bs with
      | nil => rfl
      | cons b bs => rw [List.map_cons,agreeAll,agreeAll,ih]

theorem agreeAll_map_right (f : γ → β) (agree : α → β → Bool) (as : List α) (cs : List γ) :
    agreeAll agree as (cs.map f) = agreeAll (fun a c => agree a (f c)) as cs := by
  induction as generalizing cs with
  | nil => cases cs <;> rfl
  | cons a as ih =>
      cases cs with
      | nil => rfl
      | cons c cs => rw [List.map_cons,agreeAll,agreeAll,ih]

theorem agreeAll_of_forall₂ {agree : α → β → Bool} {as : List α} {bs : List β}
    (all : Forall₂ (fun a b => agree a b = true) as bs) : agreeAll agree as bs = true := by
  induction all with
  | nil => rfl
  | cons first _ ih => rw [agreeAll,first,ih,Bool.and_self]

theorem agrees_map_left (f : γ → α) (same : α → β → Bool) (n : Node γ) (m : Node β) :
    (n.map f).agrees same m = n.agrees (fun c b => same (f c) b) m := by
  cases n <;> cases m <;> simp only [map,agrees,agreeAll_map_left]

theorem agrees_map_right (f : γ → β) (same : α → β → Bool) (n : Node α) (m : Node γ) :
    n.agrees same (m.map f) = n.agrees (fun a c => same a (f c)) m := by
  cases n <;> cases m <;> simp only [map,agrees,agreeAll_map_right]

end Node

namespace Expr

def unplaced : Expr → Expr :=
  fold fun e node => ⟨[], e.type, node⟩

theorem unplaced_eq (e : Expr) : e.unplaced = ⟨[], e.type, e.node.map unplaced⟩ :=
  fold_eq _ e

theorem beq_eq (e f : Expr) :
    (e == f) = (e.path == f.path && e.type == f.type && e.node.agrees (· == ·) f.node) := by
  show e.equals f = _
  rw [equals,fold_eq,Node.agrees_map_left]
  rfl

theorem unplaced_beq (e f : Expr) :
    (e.unplaced == f.unplaced) =
      (e.type == f.type && e.node.agrees (fun a b => a.unplaced == b.unplaced) f.node) := by
  rw [beq_eq,unplaced_eq,unplaced_eq,Node.agrees_map_left,Node.agrees_map_right]
  simp only [beq_self_eq_true,Bool.true_and]

end Expr

def Interpolation.again : Interpolation → Interpolation
  | .exponential base => .exponential (Double.again base)
  | other => other

def Node.again {α : Type} : Node α → Node α
  | .literal v => .literal v.again
  | .select input arms otherwise =>
      .select input (arms.map fun a => ⟨a.labels.map Value.again, a.output⟩) otherwise
  | .curve interpolation input stops =>
      .curve interpolation.again input (stops.map fun s => ⟨Double.again s.input, s.output⟩)
  | other => other

def Expr.again : Expr → Expr :=
  fold fun e node => ⟨[], e.type, node.again⟩

theorem Expr.again_eq (e : Expr) : e.again = ⟨[], e.type, (e.node.map again).again⟩ :=
  fold_eq _ e

-- What the written form of a tree keeps of it: all but the places, where two
-- equal numbers count as one.
structure Expr.Alike (e e' : Expr) : Prop where
  type : e'.type = e.type
  written : e'.written = e.written
  same : (e'.unplaced == e.unplaced) = true
  again : e'.unplaced = e.again

structure Value.Alike (v v' : Value) : Prop where
  same : (v' == v) = true
  written : v'.toJson = v.toJson
  again : v' = v.again

structure Interpolation.Alike (i i' : Interpolation) : Prop where
  same : (i' == i) = true
  written : i'.toJson = i.toJson
  again : i' = i.again

theorem Interpolation.Alike.isStep {i i' : Interpolation} (alike : i.Alike i') :
    i'.isStep = i.isStep := by
  cases i <;> cases i' <;> first | rfl | cases alike.same

def Binding.Alike (b b' : Binding Expr) : Prop :=
  b'.name = b.name ∧ b.value.Alike b'.value

def Branch.Alike (b b' : Branch Expr) : Prop :=
  b.condition.Alike b'.condition ∧ b.output.Alike b'.output

def Arm.Alike (a a' : Arm Expr) : Prop :=
  Forall₂ Value.Alike a.labels a'.labels ∧ a.output.Alike a'.output

structure Stop.Alike (s s' : Stop Expr) : Prop where
  same : (s'.input == s.input) = true
  written : Json.ofFloat s'.input = Json.ofFloat s.input
  again : s'.input = Double.again s.input
  output : s.output.Alike s'.output

inductive Node.Alike : Node Expr → Node Expr → Prop
  | literal (v v' : Value) : (v' == v) = true → v'.written = v.written → v' = v.again →
      Alike (.literal v) (.literal v')
  | zoom : Alike .zoom .zoom
  | get (a a' : Expr) : a.Alike a' → Alike (.get a) (.get a')
  | has (a a' : Expr) : a.Alike a' → Alike (.has a) (.has a')
  | hasIn (a a' b b' : Expr) : a.Alike a' → b.Alike b' → Alike (.hasIn a b) (.hasIn a' b')
  | var (name : String) : Alike (.var name) (.var name)
  | letIn (bs bs' : List (Binding Expr)) (a a' : Expr) : Forall₂ Binding.Alike bs bs' →
      a.Alike a' → Alike (.letIn bs a) (.letIn bs' a')
  | coalesce (as as' : List Expr) : Forall₂ Expr.Alike as as' →
      Alike (.coalesce as) (.coalesce as')
  | throw (message : String) : Alike (.throw message) (.throw message)
  | assert (type : Ty) (as as' : List Expr) : Forall₂ Expr.Alike as as' →
      Alike (.assert type as) (.assert type as')
  | assertArray (item : Ty) (length : Option Nat) (a a' : Expr) : a.Alike a' →
      Alike (.assertArray item length a) (.assertArray item length a')
  | parseColor (a a' : Expr) : a.Alike a' → Alike (.parseColor a) (.parseColor a')
  | not (a a' : Expr) : a.Alike a' → Alike (.not a) (.not a')
  | case (bs bs' : List (Branch Expr)) (a a' : Expr) : Forall₂ Branch.Alike bs bs' →
      a.Alike a' → Alike (.case bs a) (.case bs' a')
  | select (a a' b b' : Expr) (as as' : List (Arm Expr)) : a.Alike a' → Forall₂ Arm.Alike as as' →
      b.Alike b' → Alike (.select a as b) (.select a' as' b')
  | curve (i i' : Interpolation) (a a' : Expr) (ss ss' : List (Stop Expr)) : i.Alike i' →
      a.Alike a' → Forall₂ Stop.Alike ss ss' → Alike (.curve i a ss) (.curve i' a' ss')

namespace Node.Alike

theorem map_congr {α β γ : Type} {R : α → β → Prop} {f : α → γ} {g : β → γ} {as : List α}
    {bs : List β} (alike : Forall₂ R as bs) (each : ∀ a b, R a b → g b = f a) :
    bs.map g = as.map f := by
  induction alike with
  | nil => rfl
  | cons first _ ih => rw [List.map_cons,List.map_cons,each _ _ first,ih]

theorem flatMap_congr {α β γ : Type} {R : α → β → Prop} {f : α → List γ} {g : β → List γ}
    {as : List α} {bs : List β} (alike : Forall₂ R as bs) (each : ∀ a b, R a b → g b = f a) :
    bs.flatMap g = as.flatMap f := by
  rw [List.flatMap_def,List.flatMap_def,map_congr alike each]

theorem agreeAll {α : Type} {R : α → α → Prop} {agree : α → α → Bool} {as bs : List α}
    (alike : Forall₂ R as bs) (each : ∀ a b, R a b → agree b a = true) :
    Node.agreeAll agree bs as = true :=
  agreeAll_of_forall₂ (alike.imp each).flip

theorem labels_beq {vs vs' : List Value} (alike : Forall₂ Value.Alike vs vs') :
    (vs' == vs) = true := by
  induction alike with
  | nil => rfl
  | cons first _ ih =>
      rw [List.cons_beq_cons,first.same,ih]
      rfl

theorem labels_again {vs vs' : List Value} (alike : Forall₂ Value.Alike vs vs') :
    vs' = vs.map Value.again := by
  rw [← map_congr alike (g := id) fun _ _ h => h.again,List.map_id]

theorem writtenLabels {vs vs' : List Value} (alike : Forall₂ Value.Alike vs vs') (output : Json) :
    Arm.writtenLabels ⟨vs', output⟩ = Arm.writtenLabels ⟨vs, output⟩ := by
  have texts := map_congr alike fun _ _ h => h.written
  unfold Arm.writtenLabels
  cases alike with
  | nil => rfl
  | cons first rest =>
      cases rest with
      | nil => exact first.written
      | cons _ _ => exact congrArg Json.arr texts

theorem written {n n' : Node Expr} (alike : n.Alike n') :
    (n'.map Expr.written).written = (n.map Expr.written).written := by
  cases alike with
  | literal v v' _ written _ => exact written
  | zoom => rfl
  | get a a' h => simp only [map,Node.written,h.written]
  | has a a' h => simp only [map,Node.written,h.written]
  | hasIn a a' b b' h k => simp only [map,Node.written,h.written,k.written]
  | var name => rfl
  | letIn bs bs' a a' hs h =>
      simp only [map,Node.written,h.written]
      rw [map_congr hs fun _ _ h => by rw [h.1,h.2.written]]
  | coalesce as as' hs =>
      simp only [map,Node.written]
      rw [map_congr hs fun _ _ h => h.written]
  | throw message => rfl
  | assert type as as' hs =>
      simp only [map,Node.written]
      rw [map_congr hs fun _ _ h => h.written]
  | assertArray item length a a' h => simp only [map,h.written]
  | parseColor a a' h => simp only [map,Node.written,h.written]
  | not a a' h => simp only [map,Node.written,h.written]
  | case bs bs' a a' hs h =>
      simp only [map,Node.written,h.written]
      rw [map_congr hs fun _ _ h => by rw [h.1.written,h.2.written]]
  | select a a' b b' as as' h hs k =>
      simp only [map,Node.written,h.written,k.written,List.flatMap_map]
      rw [flatMap_congr hs fun _ _ h => by rw [h.2.written,writtenLabels h.1]]
  | curve i i' a a' ss ss' hi h hs =>
      simp only [map,Node.written,h.written,hi.written,List.flatMap_map]
      rw [flatMap_congr hs fun _ _ h => by rw [h.written,h.output.written]]

theorem agrees {n n' : Node Expr} (alike : n.Alike n') :
    n'.agrees (fun a b => a.unplaced == b.unplaced) n = true := by
  cases alike with
  | literal v v' same _ _ => exact same
  | zoom => rfl
  | get a a' h => exact h.same
  | has a a' h => exact h.same
  | hasIn a a' b b' h k => simp only [Node.agrees,h.same,k.same,Bool.and_self]
  | var name => exact beq_self_eq_true name
  | letIn bs bs' a a' hs h =>
      have all := agreeAll hs fun b b' h => show (b'.name == b.name &&
        b'.value.unplaced == b.value.unplaced) = true by rw [h.1,h.2.same,beq_self_eq_true]; rfl
      simp only [Node.agrees,all,h.same,Bool.and_self]
  | coalesce as as' hs => exact agreeAll hs fun _ _ h => h.same
  | throw message => exact beq_self_eq_true message
  | assert type as as' hs =>
      simp only [Node.agrees,beq_self_eq_true,Bool.true_and]
      exact agreeAll hs fun _ _ h => h.same
  | assertArray item length a a' h => simp only [Node.agrees,beq_self_eq_true,h.same,Bool.and_self]
  | parseColor a a' h => exact h.same
  | not a a' h => exact h.same
  | case bs bs' a a' hs h =>
      have all := agreeAll hs fun b b' h => show (b'.condition.unplaced == b.condition.unplaced &&
        b'.output.unplaced == b.output.unplaced) = true by rw [h.1.same,h.2.same]; rfl
      simp only [Node.agrees,all,h.same,Bool.and_self]
  | select a a' b b' as as' h hs k =>
      have all := agreeAll hs fun a a' h => show (a'.labels == a.labels &&
        a'.output.unplaced == a.output.unplaced) = true by rw [labels_beq h.1,h.2.same]; rfl
      simp only [Node.agrees,all,h.same,k.same,Bool.and_self]
  | curve i i' a a' ss ss' hi h hs =>
      have all := agreeAll hs fun s s' h => show (s'.input == s.input &&
        s'.output.unplaced == s.output.unplaced) = true by rw [h.same,h.output.same]; rfl
      simp only [Node.agrees,all,h.same,hi.same,Bool.and_self]

theorem again {n n' : Node Expr} (alike : n.Alike n') :
    n'.map Expr.unplaced = (n.map Expr.again).again := by
  cases alike with
  | literal v v' _ _ again => rw [again]; rfl
  | zoom => rfl
  | get a a' h => simp only [map,Node.again,h.again]
  | has a a' h => simp only [map,Node.again,h.again]
  | hasIn a a' b b' h k => simp only [map,Node.again,h.again,k.again]
  | var name => rfl
  | letIn bs bs' a a' hs h =>
      simp only [map,Node.again,h.again]
      rw [map_congr hs fun _ _ h => by rw [h.1,h.2.again]]
  | coalesce as as' hs =>
      simp only [map,Node.again]
      rw [map_congr hs fun _ _ h => h.again]
  | throw message => rfl
  | assert type as as' hs =>
      simp only [map,Node.again]
      rw [map_congr hs fun _ _ h => h.again]
  | assertArray item length a a' h => simp only [map,Node.again,h.again]
  | parseColor a a' h => simp only [map,Node.again,h.again]
  | not a a' h => simp only [map,Node.again,h.again]
  | case bs bs' a a' hs h =>
      simp only [map,Node.again,h.again]
      rw [map_congr hs fun _ _ h => by rw [h.1.again,h.2.again]]
  | select a a' b b' as as' h hs k =>
      have arms : as'.map (fun a => (⟨a.labels, a.output.unplaced⟩ : Arm Expr)) =
          as.map fun a => ⟨a.labels.map Value.again, a.output.again⟩ :=
        map_congr hs fun _ _ h => by rw [labels_again h.1,h.2.again]
      simp only [map,Node.again,h.again,k.again,List.map_map,arms]
      rfl
  | curve i i' a a' ss ss' hi h hs =>
      have stops : ss'.map (fun s => (⟨s.input, s.output.unplaced⟩ : Stop Expr)) =
          ss.map fun s => ⟨Double.again s.input, s.output.again⟩ :=
        map_congr hs fun _ _ h => by rw [h.again,h.output.again]
      simp only [map,Node.again,h.again,hi.again,List.map_map,stops]
      rfl

end Node.Alike

theorem Expr.alike_of_node {e e' : Expr} (type : e'.type = e.type) (alike : e.node.Alike e'.node) :
    e.Alike e' := by
  refine ⟨type, ?_, ?_, ?_⟩
  · rw [Expr.written_eq,Expr.written_eq,alike.written]
  · rw [Expr.unplaced_beq,type,alike.agrees,beq_self_eq_true]
    rfl
  · rw [Expr.unplaced_eq,Expr.again_eq,type,alike.again]

end MapStyle
