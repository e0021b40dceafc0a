import MapStyle.Proofs.Reading.Places
import MapStyle.Proofs.Types.Meet
import MapStyle.Proofs.Types.Order

-- Whether data is of the type that is inferred for it. It is unless two items of an array
-- look alike although one of them has mixed items: those have no type, so the other item
-- decides for both.

namespace MapStyle

mutual
-- The items of the array have a type in common, and so have those of every array in it.
def Json.agrees : Json → Bool
  | .arr items => (Ty.meetAll? (Ty.ofItems items)).isSome && agreeing items
  | _ => true

def Json.agreeing : List Json → Bool
  | [] => true
  | j :: js => j.agrees && agreeing js
end

def Json.uniform : Json → Bool
  | .arr items => agreeing items
  | _ => true

theorem Json.agreeing_iff (items : List Json) :
    agreeing items = true ↔ ∀ j ∈ items, j.agrees = true := by
  induction items with
  | nil => simp [agreeing]
  | cons j js ih => rw [agreeing,Bool.and_eq_true,ih,List.forall_mem_cons]

theorem Json.agrees_arr {items : List Json} (agree : (Json.arr items).agrees = true) :
    (∃ common, Ty.meetAll? (items.map Ty.ofJson) = some common) ∧ ∀ j ∈ items, j.agrees = true := by
  rw [agrees,Bool.and_eq_true,agreeing_iff,Ty.ofItems_eq_map] at agree
  exact ⟨Option.isSome_iff_exists.mp agree.1, agree.2⟩

namespace Ty

theorem Meets.narrows {a b both : Ty} (meets : Meets a b both) : both ≤ a ∧ both ≤ b :=
  (narrows_splits both meets).mp (le_refl both)

theorem meetAll?_narrows {types : List Ty} {common : Ty} (meets : meetAll? types = some common) :
    ∀ type ∈ types, common ≤ type :=
  (meetAll?_eq_some.mp meets).1

theorem admits_of_meets {data : Json} (agree : data.agrees = true) {type both : Ty}
    (meets : Meets (ofJson data) type both) : type.admits data = true := by
  induction data using Json.induction generalizing type both with
  | arr items ih =>
      obtain ⟨⟨common, joined⟩, inside⟩ := Json.agrees_arr agree
      rw [ofJson_arr,joined,Option.getD_some] at meets
      -- What is below the items' common type is below the type of each of them.
      have each : ∀ (wanted narrow : Ty), narrow ≤ common → narrow ≤ wanted →
          ∀ j ∈ items, wanted.admits j = true := by
        intro wanted narrow first second j member
        have below : narrow ≤ ofJson j :=
          le_trans first (meetAll?_narrows joined _ (List.mem_map_of_mem member))
        obtain ⟨_, meets⟩ := meets_of_narrower below second
        exact ih j member (inside j member) meets
      cases meets with
      | right => rfl
      | same =>
          rw [admits_arr,Bool.and_eq_true,List.all_eq_true]
          exact ⟨beq_self_eq_true _, each common common (le_refl _) (le_refl _)⟩
      | array meets lengths =>
          rw [admits_arr,Bool.and_eq_true,List.all_eq_true]
          refine ⟨length_fits.mpr ?_, each _ _ meets.narrows.1 meets.narrows.2⟩
          rcases meetLength?_eq_some.mp lengths with ⟨unfixed, _⟩ | ⟨rfl, _⟩ | ⟨same, _⟩
          · cases unfixed
          · exact .inl rfl
          · exact .inr same
  | _ =>
      cases meets with
      | right => rfl
      | same => rfl

theorem ofJson_admits_arr (items : List Json) :
    (ofJson (.arr items)).admits (.arr items) = true ↔
      meetAll? (items.map ofJson) = none ∨
        ∀ item ∈ items, ∀ other ∈ items, (ofJson item).admits other = true := by
  rw [ofJson_arr,admits_arr,Bool.and_eq_true,List.all_eq_true,
    and_iff_right (length_fits.mpr (.inr rfl))]
  cases joined : meetAll? (items.map ofJson) with
  | none => simp [admits]
  | some common =>
      have each : ∀ other : Json, common.admits other = true ↔
          ∀ item ∈ items, (ofJson item).admits other = true := by
        intro other
        rw [(admits_splits other).meetAll? rfl joined]
        exact List.forall_mem_map
      simp only [Option.getD_some,each,reduceCtorEq,false_or]
      exact forall₂_comm

theorem ofJson_admits_uniform {data : Json} (uniform : data.uniform = true) :
    (ofJson data).admits data = true := by
  cases data with
  | arr items =>
      refine (ofJson_admits_arr items).mpr ?_
      cases joined : meetAll? (items.map ofJson) with
      | none => exact .inl rfl
      | some common =>
          right
          intro item member other member'
          have both := meetAll?_narrows joined
          obtain ⟨_, meets⟩ := meets_of_narrower (both _ (List.mem_map_of_mem member'))
            (both _ (List.mem_map_of_mem member))
          exact admits_of_meets ((Json.agreeing_iff items).mp uniform other member') meets
  | _ => rfl

end Ty

open Reading Attempt

theorem Reading.constantType_admits (expected : Option Ty) (data : Json) :
    (constantType expected data).admits data = true ∨ constantType expected data = Ty.ofJson data := by
  unfold constantType
  split
  · split
    · left
      assumption
    · exact .inr rfl
  · exact .inr rfl

def Json.SpellsConstant (part data : Json) : Prop :=
  part = data ∧ data.isScalar = true ∨ part = .arr [.str "literal", data]

theorem Expr.read_literal {part : Json} {ctx : Context} {n : Expr} {v : Value}
    (success : Expr.read part ctx = pure n) (literal : n.node = .literal v) :
    ∃ data, part.SpellsConstant data ∧ n = constant ctx data := by
  obtain ⟨read, _⟩ := Expr.read_eq_pure.mp success
  rcases Expr.readAny_eq_pure.mp read with ⟨op, args, rfl, _, applied⟩ | ⟨scalar, rfl⟩
  · have kind := operator_kind applied
    rw [literal] at kind
    cases kind
    obtain ⟨o, single, made⟩ := withOne_eq_pure.mp applied
    rw [Expr.operands_eq_map,List.map_eq_singleton_iff] at single
    obtain ⟨data, rfl, rfl⟩ := single
    exact ⟨data, .inr rfl, (pure_eq_pure.mp made).symm⟩
  · exact ⟨part, .inl ⟨rfl, scalar⟩, rfl⟩

theorem Ty.ofJson_inhabited (data : Json) :
    (data.uniform = true → (ofJson data).admits data = true) ∧
      (∀ items : List Json, (ofJson (.arr items)).admits (.arr items) = true ↔
        meetAll? (items.map ofJson) = none ∨
          ∀ item ∈ items, ∀ other ∈ items, (ofJson item).admits other = true) ∧
      ∀ options e, Expr.parse data options = .ok e → ∀ n ∈ e.nodes, ∀ v, n.node = .literal v →
        ∃ positions part written,
          n.path = (options.key.map Step.key).toList ++ positions.map Step.index ∧
          data.follow? positions = some part ∧ part.SpellsConstant written ∧
          v = Value.ofJson written ∧
          (written.uniform = true → n.type.admits written = true) ∧
          (n.type.admits written = true ∨ n.type = ofJson written) := by
  refine ⟨ofJson_admits_uniform, ofJson_admits_arr, ?_⟩
  intro options e parsed n member v literal
  obtain ⟨_, positions, part, expected, leads, read⟩ :=
    e.nodes_readAt (Expr.parse_readAt parsed) n member
  obtain ⟨written, spells, rfl⟩ := Expr.read_literal read literal
  have typed := constantType_admits expected written
  refine ⟨positions, part, written, rfl, leads, spells, ?_, ?_, typed⟩
  · exact (Node.literal.inj literal).symm
  · intro uniform
    rcases typed with admits | inferred
    · exact admits
    · show (constantType expected written).admits written = true
      rw [inferred]
      exact ofJson_admits_uniform uniform

theorem Ty.ofJson_inhabited_nested :
    let written : Json := .arr [.arr [.str "a"], .arr [.str "b"]]
    let data : Json := .arr [.str "coalesce", .arr [.str "get", .str "p"],
      .arr [.str "literal", written]]
    let rows : Ty := .array (.array .string none) none
    let n : Expr := ⟨[.index 2], rows, .literal (Value.ofJson written)⟩
    let name : Expr := ⟨[.index 1, .index 1], .string, .literal (.str "p")⟩
    let e : Expr := ⟨[], rows, .coalesce [⟨[.index 1], .unknown, .get name⟩, n]⟩
    written.uniform = true ∧ (ofJson written).admits written = true ∧
      Expr.parse data ⟨some rows, none⟩ = .ok e ∧ n ∈ e.nodes ∧
      ∃ positions part written', n.path = positions.map Step.index ∧
        data.follow? positions = some part ∧ part.SpellsConstant written' ∧
        Value.ofJson written = Value.ofJson written' ∧
        (written'.uniform = true → n.type.admits written' = true) ∧
        (n.type.admits written' = true ∨ n.type = ofJson written') := by
  intro written data rows n name e
  have uniform : written.uniform = true := by decide
  have parsed : Expr.parse data ⟨some rows, none⟩ = .ok e := rfl
  have below : n ∈ e.nodes := .tail _ (.tail _ (.tail _ (.head _)))
  exact ⟨uniform, (ofJson_inhabited written).1 uniform, parsed, below,
    (ofJson_inhabited data).2.2 _ e parsed n below _ rfl⟩

-- The second item looks like the first, whose own items have no type in common, and
-- decides for both: the data is not of the type that it is read with.
theorem Ty.ofJson_mixed :
    let mixed : Json := .arr [.arr [.num (.int 1 (by decide)), .str "a"],
      .arr [.num (.int 2 (by decide)), .num (.int 3 (by decide))]]
    ofJson mixed = .array (.array .number (some 2)) (some 2) ∧
      (ofJson mixed).admits mixed = false ∧
      Expr.parse (.arr [.str "literal", mixed]) ⟨none, none⟩ =
        .ok ⟨[], ofJson mixed, .literal (Value.ofJson mixed)⟩ :=
  ⟨rfl, rfl, rfl⟩

end MapStyle
