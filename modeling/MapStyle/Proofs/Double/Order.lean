import MapStyle.Proofs.Double.Comparison

namespace MapStyle.Double

open Float.Model Float.Model.UnpackedFloat

-- Where a double stands on the line: first its side of zero and whether it has an
-- end, then the exponent, then the digits. Below zero the larger ones come first.
def rank : UnpackedFloat → ℤ ×ₗ ℤ ×ₗ ℤ
  | .infinity .negative => toLex (-2, toLex (0, 0))
  | .finite .negative m e _ => toLex (-1, toLex (-e, -(m : ℤ)))
  | .zero _ => toLex (0, toLex (0, 0))
  | .notANumber => toLex (0, toLex (0, 0))
  | .finite .positive m e _ => toLex (1, toLex (e, (m : ℤ)))
  | .infinity .positive => toLex (2, toLex (0, 0))

theorem compare_neg (a b : ℤ) : compare (-a) (-b) = (compare a b).swap := by
  rcases lt_trichotomy a b with below | rfl | above
  · rw [compare_lt_iff_lt.mpr below,compare_gt_iff_gt.mpr (neg_lt_neg below)]
    rfl
  · rw [compare_eq_iff_eq.mpr rfl,compare_eq_iff_eq.mpr rfl]
    rfl
  · rw [compare_gt_iff_gt.mpr above,compare_lt_iff_lt.mpr (neg_lt_neg above)]
    rfl

theorem compare_cast (m n : ℕ) : compare (m : ℤ) (n : ℤ) = compare m n := by
  rcases lt_trichotomy m n with below | rfl | above
  · rw [compare_lt_iff_lt.mpr below,compare_lt_iff_lt.mpr (Int.ofNat_lt.mpr below)]
  · rw [compare_eq_iff_eq.mpr rfl,compare_eq_iff_eq.mpr rfl]
  · rw [compare_gt_iff_gt.mpr above,compare_gt_iff_gt.mpr (Int.ofNat_lt.mpr above)]

theorem compare_toLex {α β : Type} [Ord α] [Ord β] (a b : α × β) :
    compare (toLex a) (toLex b) = (compare a.1 b.1).then (compare a.2 b.2) := by
  rw [Prod.Lex.compare_def]
  rfl

theorem compare_rank {p q : UnpackedFloat} (left : p.isNaN = false) (right : q.isNaN = false) :
    p.compare q = some (compare (rank p) (rank q)) := by
  cases p with
  | notANumber => cases left
  | infinity s => cases s <;> cases q with
      | notANumber => cases right
      | infinity t => cases t <;> rfl
      | zero t => rfl
      | finite t n f => cases t <;> rfl
  | zero s => cases q with
      | notANumber => cases right
      | infinity t => cases t <;> rfl
      | zero t => rfl
      | finite t n f => cases t <;> rfl
  | finite s m e => cases q with
      | notANumber => cases right
      | infinity t => cases s <;> cases t <;> rfl
      | zero t => cases s <;> rfl
      | finite t n f =>
          cases s <;> cases t
          case positive.positive =>
            simp only [UnpackedFloat.compare,rank,compare_toLex,compare_cast]
            rfl
          case negative.negative =>
            simp only [UnpackedFloat.compare,rank,compare_toLex,compare_neg,compare_cast,
              Ordering.swap_then]
            rfl
          all_goals rfl

theorem compare_isSome {p q : UnpackedFloat} {o : Ordering} (known : p.compare q = some o) :
    p.isNaN = false ∧ q.isNaN = false := by
  cases p with
  | notANumber => cases known
  | infinity s => cases q with
      | notANumber => cases s <;> cases known
      | _ => exact ⟨rfl, rfl⟩
  | zero s => cases q with
      | notANumber => cases known
      | _ => exact ⟨rfl, rfl⟩
  | finite s m e => cases q with
      | notANumber => cases s <;> cases known
      | _ => exact ⟨rfl, rfl⟩

theorem lt_iff_rank {x y : Float} :
    x < y ↔ x.isNaN = false ∧ y.isNaN = false ∧ rank (parts x) < rank (parts y) := by
  rw [lt_iff,isNaN_eq,isNaN_eq]
  constructor
  · intro known
    obtain ⟨left, right⟩ := compare_isSome known
    rw [compare_rank left right,Option.some.injEq,compare_lt_iff_lt] at known
    exact ⟨left, right, known⟩
  · intro given
    obtain ⟨left, right, below⟩ := given
    rw [compare_rank left right,Option.some.injEq,compare_lt_iff_lt]
    exact below

theorem le_iff_rank {x y : Float} :
    x ≤ y ↔ x.isNaN = false ∧ y.isNaN = false ∧ rank (parts x) ≤ rank (parts y) := by
  rw [le_iff,isNaN_eq,isNaN_eq]
  constructor
  · intro known
    obtain ⟨o, found, upTo⟩ := (Option.any_eq_true _ _).mp known
    obtain ⟨left, right⟩ := compare_isSome found
    rw [compare_rank left right,Option.some.injEq] at found
    subst found
    exact ⟨left, right, compare_le_iff_le.mp (Ordering.isLE_iff_ne_gt.mp upTo)⟩
  · intro given
    obtain ⟨left, right, upTo⟩ := given
    rw [compare_rank left right,Option.any_some]
    exact Ordering.isLE_iff_ne_gt.mpr (compare_le_iff_le.mpr upTo)

theorem beq_iff_rank {x y : Float} :
    (x == y) = true ↔ x.isNaN = false ∧ y.isNaN = false ∧ rank (parts x) = rank (parts y) := by
  rw [beq_iff,isNaN_eq,isNaN_eq]
  constructor
  · intro known
    obtain ⟨left, right⟩ := compare_isSome known
    rw [compare_rank left right,Option.some.injEq,compare_eq_iff_eq] at known
    exact ⟨left, right, known⟩
  · intro given
    obtain ⟨left, right, same⟩ := given
    rw [compare_rank left right,Option.some.injEq,compare_eq_iff_eq]
    exact same

theorem le_of_lt {x y : Float} (below : x < y) : x ≤ y := by
  obtain ⟨left, right, ranks⟩ := lt_iff_rank.mp below
  exact le_iff_rank.mpr ⟨left, right, ranks.le⟩

theorem lt_of_lt_of_le {x y z : Float} (below : x < y) (upTo : y ≤ z) : x < z := by
  obtain ⟨left, _, first⟩ := lt_iff_rank.mp below
  obtain ⟨_, right, second⟩ := le_iff_rank.mp upTo
  exact lt_iff_rank.mpr ⟨left, right, first.trans_le second⟩

theorem lt_trans {x y z : Float} (first : x < y) (second : y < z) : x < z :=
  lt_of_lt_of_le first (le_of_lt second)

theorem le_trans {x y z : Float} (first : x ≤ y) (second : y ≤ z) : x ≤ z := by
  obtain ⟨left, _, below⟩ := le_iff_rank.mp first
  obtain ⟨_, right, above⟩ := le_iff_rank.mp second
  exact le_iff_rank.mpr ⟨left, right, below.trans above⟩

theorem le_refl {x : Float} (number : x.isNaN = false) : x ≤ x :=
  le_iff_rank.mpr ⟨number, number, le_rfl⟩

theorem not_le_iff {x y : Float} (left : x.isNaN = false) (right : y.isNaN = false) :
    ¬ x ≤ y ↔ y < x := by
  rw [le_iff_rank,lt_iff_rank]
  simp only [left,right,true_and,not_le]

theorem not_le_of_lt {x y : Float} (below : x < y) : ¬ y ≤ x := by
  obtain ⟨left, right, _⟩ := lt_iff_rank.mp below
  exact (not_le_iff right left).mpr below

theorem beq_iff_le {x y : Float} : (x == y) = true ↔ x ≤ y ∧ y ≤ x := by
  rw [beq_iff_rank,le_iff_rank,le_iff_rank]
  constructor
  · intro given
    obtain ⟨left, right, same⟩ := given
    exact ⟨⟨left, right, same.le⟩, right, left, same.ge⟩
  · intro given
    obtain ⟨⟨left, right, upTo⟩, _, _, downTo⟩ := given
    exact ⟨left, right, le_antisymm upTo downTo⟩

end MapStyle.Double
