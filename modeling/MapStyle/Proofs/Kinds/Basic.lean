import MapStyle.Proofs.Evaluation.Blending
import MapStyle.Proofs.Reading.Typing
import MapStyle.Proofs.Types.Meet

namespace MapStyle

inductive Kind where
  | null
  | number
  | string
  | boolean
  | color
  | object
  | array
deriving DecidableEq

-- One of a list of names is a string. Where nothing is known, there is no one kind.
def Ty.kind? : Ty → Option Kind
  | .null => some .null
  | .number => some .number
  | .string | .enum _ => some .string
  | .boolean => some .boolean
  | .color => some .color
  | .object => some .object
  | .array _ _ => some .array
  | .unknown => none

def Value.kind : Value → Kind
  | .null => .null
  | .num _ => .number
  | .str _ => .string
  | .bool _ => .boolean
  | .color _ => .color
  | .obj _ => .object
  | .arr _ => .array

-- The value is of the kind that the type promises, if it promises one.
def Ty.Covers (type : Ty) (v : Value) : Prop :=
  ∀ kind, type.kind? = some kind → v.kind = kind

namespace Ty

theorem kind?_eq_none {type : Ty} : type.kind? = none ↔ type = .unknown := by
  cases type <;> simp [kind?]

theorem covers_of_kind? {type : Ty} {v : Value} (same : type.kind? = some v.kind) :
    type.Covers v := by
  intro kind promised
  exact Option.some.inj (same.symm.trans promised)

theorem covers_iff {type : Ty} {v : Value} (known : type ≠ .unknown) :
    type.Covers v ↔ type.kind? = some v.kind := by
  refine ⟨?_, covers_of_kind?⟩
  intro covers
  cases found : type.kind? with
  | none => exact absurd (kind?_eq_none.mp found) known
  | some kind => rw [covers kind found]

theorem covers_congr {type : Ty} {v w : Value} (same : v.kind = w.kind) (covers : type.Covers v) :
    type.Covers w := by
  intro kind promised
  rw [← same]
  exact covers kind promised

theorem kind?_typeOf (v : Value) : v.typeOf.kind? = some v.kind := by
  cases v with
  | arr items => cases items <;> rfl
  | _ => rfl

theorem kind?_ofJson (data : Json) : (ofJson data).kind? = some (Value.ofJson data).kind := by
  cases data <;> rfl

theorem meet?_kind? {a b both : Ty} (meets : a.meet? b = some both)
    (uniform : a = .unknown ↔ b = .unknown) : a.kind? = both.kind? ∧ b.kind? = both.kind? := by
  cases meets_iff.mpr meets with
  | left =>
      obtain rfl := uniform.mp rfl
      exact ⟨rfl, rfl⟩
  | right =>
      obtain rfl := uniform.mpr rfl
      exact ⟨rfl, rfl⟩
  | same => exact ⟨rfl, rfl⟩
  | array items lengths => exact ⟨rfl, rfl⟩

end Ty

open Ty Reading

theorem Reading.constantType_covers (expected : Option Ty) (data : Json) :
    (constantType expected data).Covers (Value.ofJson data) := by
  unfold constantType
  split
  · split
    · rename_i admitted
      cases data with
      | arr items => exact covers_of_kind? rfl
      | _ => cases admitted
    · exact covers_of_kind? (kind?_ofJson data)
  · exact covers_of_kind? (kind?_ofJson data)

theorem Value.kind_blend {t : Float} {v w blended : Value} (done : blend t v w = .ok blended) :
    v.kind = blended.kind := by
  cases blended_of_ok done <;> rfl

theorem Reading.Common.join_kind? {type final : Ty} {types : List Ty}
    (joins : Common.join (some type) types = some (some final))
    (uniform : ∀ other ∈ types, type = .unknown ↔ other = .unknown) :
    type.kind? = final.kind? ∧ ∀ other ∈ types, other.kind? = final.kind? := by
  induction types generalizing type with
  | nil =>
      cases joins
      refine ⟨rfl, ?_⟩
      intro other member
      cases member
  | cons next rest ih =>
      cases meets : type.meet? next with
      | none =>
          simp only [Common.join,Common.add,meets] at joins
          cases joins
      | some both =>
          simp only [Common.join,Common.add,meets] at joins
          obtain ⟨first, second⟩ := meet?_kind? meets (uniform next (by simp))
          have known : both = .unknown ↔ type = .unknown := by
            rw [← kind?_eq_none,← kind?_eq_none,first]
          obtain ⟨here, others⟩ := ih joins fun other member =>
            known.trans (uniform other (List.mem_cons_of_mem _ member))
          refine ⟨first.trans here, ?_⟩
          intro other member
          rcases List.mem_cons.mp member with rfl | belongs
          · exact second.trans here
          · exact others other belongs

theorem Joined.covers {outputs : List Expr} {type : Ty} (joined : Joined outputs type)
    (uniform : (∀ o ∈ outputs, o.type = .unknown) ∨ ∀ o ∈ outputs, o.type ≠ .unknown)
    {o : Expr} (member : o ∈ outputs) {v : Value} (covers : o.type.Covers v) : type.Covers v := by
  obtain ⟨nonempty, joins⟩ := joined
  cases outputs with
  | nil => cases member
  | cons first rest =>
      have alike : ∀ other ∈ rest.map Expr.type, first.type = .unknown ↔ other = .unknown := by
        intro other belongs
        obtain ⟨o', there, rfl⟩ := List.mem_map.mp belongs
        have later : o' ∈ first :: rest := List.mem_cons_of_mem _ there
        rcases uniform with unknown | known
        · simp only [unknown first (by simp),unknown o' later]
        · simp only [known first (by simp),known o' later]
      obtain ⟨here, others⟩ := Common.join_kind? joins alike
      have same : o.type.kind? = type.kind? := by
        rcases List.mem_cons.mp member with rfl | belongs
        · exact here
        · exact others _ (List.mem_map_of_mem belongs)
      intro kind promised
      exact covers kind (same.trans promised)

end MapStyle
