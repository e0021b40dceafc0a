import MapStyle.Proofs.Reading.Reports
import MapStyle.Proofs.Scope.Resolution

-- Where problems are reported. A reader names a place of its own data or of an element of
-- it, so every path in a report can be followed from the data as a whole.

namespace MapStyle

def ParseError.Inside (data : Json) (path : Path) (err : ParseError) : Prop :=
  ∃ positions part, err.path = path ++ positions.map Step.index ∧ data.follow? positions = some part

namespace ParseError.Inside

variable {data part : Json} {path : Path} {position : Nat}

theorem own {problem : Problem} : Inside data path ⟨path, problem⟩ :=
  ⟨[], data, (List.append_nil path).symm, rfl⟩

theorem element {err : ParseError} (next : data.item? position = some part)
    (inside : err.Inside part (path.child (.index position))) : err.Inside data path := by
  obtain ⟨positions, inner, place, leads⟩ := inside
  refine ⟨position :: positions, inner, ?_, ?_⟩
  · rw [place,Path.child,List.append_assoc]
    rfl
  · rw [Json.follow?,next]
    exact leads

end ParseError.Inside

namespace Attempt

def Reports {α : Type} (P : ParseError → Prop) (a : Attempt α) : Prop :=
  ∀ err ∈ a.errors, P err

theorem reports_composes (P : ParseError → Prop) : Composes fun _ a => a.Reports P := by
  constructor
  · exact fun _ _ member => nomatch member
  · intro α β a next first after err member
    unfold andThen at member
    split at member
    · rename_i x found
      rcases List.mem_append.mp member with before | later
      · exact first err before
      · exact after x found err later
    · exact first err member
  · intro α β a b first second err member
    rcases List.mem_append.mp member with before | later
    · exact first err before
    · exact second err later

theorem reports_one {α : Type} {P : ParseError → Prop} {err : ParseError} (holds : P err) :
    Reports P (⟨none, [err]⟩ : Attempt α) := by
  intro err' member
  rw [List.mem_singleton.mp member]
  exact holds

end Attempt

open Attempt

theorem Expr.read_located (data : Json) :
    ∀ ctx, (Expr.read data ctx).Reports (ParseError.Inside data ctx.path) := by
  induction data using Json.induction with
  | arr items ih =>
      intro ctx
      refine Expr.read_composes (reports_composes _) (fun _ => reports_one .own) ?_
      intro position part next
      constructor
      · exact fun _ _ => reports_one (.element next .own)
      · intro here place err member
        have inside := ih part (List.mem_of_getElem? next) here err member
        rw [place] at inside
        exact .element next inside
  | _ =>
      intro ctx
      exact Expr.read_composes (reports_composes _) (fun _ => reports_one .own)
        fun _ _ next => nomatch next

def Path.indexText (position : Nat) : String :=
  "[" ++ toString position ++ "]"

theorem Path.tailText_indices (positions : List Nat) :
    Path.tailText (positions.map Step.index) = String.join (positions.map Path.indexText) := by
  induction positions with
  | nil => rfl
  | cons i rest ih =>
      rw [List.map_cons,List.map_cons,tailText,ih,String.join_cons]
      rfl

theorem Path.text_indices (key : Option String) (positions : List Nat) :
    Path.text ((key.map Step.key).toList ++ positions.map Step.index) =
      key.getD "" ++ String.join (positions.map Path.indexText) := by
  rw [← tailText_indices]
  cases key with
  | some name => rfl
  | none =>
      have bare : (none.getD "" : String) ++ tailText (positions.map Step.index) =
          tailText (positions.map Step.index) := String.empty_append
      rw [bare]
      cases positions with
      | nil => rfl
      | cons i rest => rfl

theorem Expr.parse_located {data : Json} {options : ParseOptions} {errors : List ParseError}
    (failed : Expr.parse data options = .error errors) :
    ∀ err ∈ errors, ∃ positions part,
      err.path = (options.key.map Step.key).toList ++ positions.map Step.index ∧
        err.path.text = options.key.getD "" ++ String.join (positions.map Path.indexText) ∧
        data.follow? positions = some part := by
  intro err member
  rw [Expr.parse_errors failed] at member
  obtain ⟨positions, part, place, leads⟩ := Expr.read_located data _ err member
  refine ⟨positions, part, place, ?_, leads⟩
  rw [place]
  exact Path.text_indices options.key positions

theorem Expr.parse_located_let :
    let data : Json := .arr [.str "let", .str "a-b", .arr [.str "sum"], .arr [.str "var", .str "c"]]
    let errors : List ParseError := [
      ⟨[.key "fill", .index 1], .nameCharacters⟩,
      ⟨[.key "fill", .index 2, .index 0], .unknownOperator "sum"⟩,
      ⟨[.key "fill", .index 3, .index 1], .unknownVariable "c"⟩]
    Expr.parse data ⟨none, some "fill"⟩ = .error errors ∧
      ∀ err ∈ errors, ∃ positions part, err.path = .key "fill" :: positions.map Step.index ∧
        err.path.text = "fill" ++ String.join (positions.map Path.indexText) ∧
        data.follow? positions = some part := by
  intro data errors
  have failed : Expr.parse data ⟨none, some "fill"⟩ = .error errors := rfl
  exact ⟨failed, Expr.parse_located failed⟩

end MapStyle
