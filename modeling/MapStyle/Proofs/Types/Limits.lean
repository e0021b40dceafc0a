import MapStyle.Proofs.Types.Meet
import MapStyle.Proofs.Types.Expectation
import MapStyle.Proofs.Types.Order

-- Types where a limit is expected besides what was expected before. What is read there is
-- of the type that it had before, or of what the limit leaves of it. Both cases pass the
-- stricter check, and they stay the only ones when outputs are brought together.

namespace MapStyle

namespace Ty

variable {limit lower expected expected' a b both : Ty}

theorem meets_iff_le : Meets a b both ↔ ∀ type, type ≤ both ↔ type ≤ a ∧ type ≤ b := by
  constructor
  · intro meets type
    exact narrows_splits type meets
  · intro widest
    obtain ⟨first, second⟩ := (widest both).mp (.refl both)
    obtain ⟨other, meets⟩ := meets_of_narrower first second
    have sides := (narrows_splits other meets).mp (.refl other)
    have narrower : both ≤ other := (narrows_splits both meets).mpr ⟨first, second⟩
    rwa [Narrows.antisymm narrower ((widest other).mpr sides)]

theorem eq_unknown_of_le (wider : .unknown ≤ a) : a = .unknown := by
  cases wider <;> rfl

theorem meets_le (meets : Meets a b both) : both ≤ a ∧ both ≤ b :=
  (narrows_splits both meets).mp (.refl both)

theorem meet_accepts (meets : Meets a b both) (type : Ty) :
    both.accepts type = true ↔ a.accepts type = true ∧ b.accepts type = true := by
  induction meets generalizing type with
  | left b => exact (and_iff_right (unknown_accepts type)).symm
  | right a => exact (and_iff_left (unknown_accepts type)).symm
  | same a => exact and_self_iff.symm
  | array items lengths ih =>
      cases type with
      | unknown => simp
      | array item length =>
          simp only [accepts_array,ih,meetLength?_comm _ length,length_splits lengths]
          exact and_and_and_comm
      | _ => simp [accepts,meet?]

def Limited (limit a b : Ty) : Prop :=
  Meets a limit b ∧ (a = .unknown → limit = .unknown)

-- What it leaves of the type of an expression. One of which nothing was known only changes
-- where the limit itself was expected.
def Shifts (limit expected a b : Ty) : Prop :=
  b = a ∨ Meets a limit b ∧ (a = .unknown → expected = limit)

theorem limited_self (type : Ty) : Limited .unknown type type :=
  ⟨.right type, fun _ => rfl⟩

theorem shifts_unknown (shifts : Shifts .unknown expected a b) : b = a := by
  rcases shifts with same | ⟨meets, _⟩
  · exact same
  · cases meets <;> rfl

theorem Shifts.le (shifts : Shifts limit expected a b) : b ≤ a := by
  rcases shifts with rfl | ⟨meets, _⟩
  · exact .refl b
  · exact (meets_le meets).1

theorem Shifts.accepts (limited : Limited limit expected expected')
    (shifts : Shifts limit expected a b) (within : lower ≤ limit) (below : lower ≤ a)
    (passes : expected.accepts a = true) : expected'.accepts b = true := by
  obtain ⟨_, meets⟩ := meets_of_narrower within below
  have stays := (meet_accepts limited.1 a).mpr ⟨passes, accepts_of_meets meets⟩
  rcases shifts with rfl | ⟨left, _⟩
  · exact stays
  · refine (accepts_splits expected' left).mpr ⟨stays, ?_⟩
    exact accepts_of_meets (meets_of_le (meets_le limited.1).2)

def orExpected (common expected : Ty) : Ty :=
  if common = .unknown then expected else common

theorem Shifts.orExpected (limited : Limited limit expected expected')
    (shifts : Shifts limit expected a b) :
    b.orExpected expected' = a.orExpected expected ∨
      Limited limit (a.orExpected expected) (b.orExpected expected') := by
  unfold Ty.orExpected
  by_cases unknown : a = .unknown
  · subst unknown
    rw [if_pos rfl]
    rcases shifts with rfl | ⟨meets, same⟩
    · rw [if_pos rfl]
      exact .inr limited
    · obtain rfl := same rfl
      cases meets with
      | left =>
          split
          · exact .inr limited
          · exact .inl rfl
      | right =>
          rw [if_pos rfl]
          exact .inr limited
      | same =>
          rw [if_pos rfl]
          exact .inr limited
  · rw [if_neg unknown]
    rcases shifts with rfl | ⟨meets, _⟩
    · rw [if_neg unknown]
      exact .inl rfl
    · have known : b ≠ .unknown := by
        rintro rfl
        exact unknown (eq_unknown_of_le (meets_le meets).1)
      rw [if_neg known]
      exact .inr ⟨meets, fun same => absurd same unknown⟩

theorem Shifts.meet {type type' : Ty} (common : Shifts limit expected a b)
    (output : Shifts limit (a.orExpected expected) type type') (within : lower ≤ limit)
    (below : lower ≤ both) (meets : Meets a type both) :
    ∃ both', Meets b type' both' ∧ Shifts limit expected both both' := by
  have unknown : both = .unknown → a = .unknown ∧ type = .unknown := by
    rintro rfl
    obtain ⟨first, second⟩ := meets_le meets
    exact ⟨eq_unknown_of_le first, eq_unknown_of_le second⟩
  have parts := meets_iff_le.mp meets
  obtain ⟨rest, limits⟩ := meets_of_narrower below within
  have left := meets_iff_le.mp limits
  rcases common with rfl | ⟨common, source⟩
  · rcases output with rfl | ⟨output, source⟩
    · exact ⟨both, meets, .inl rfl⟩
    · have shifted := meets_iff_le.mp output
      refine ⟨rest, meets_iff_le.mpr fun t => ?_, .inr ⟨limits, fun lost => ?_⟩⟩
      · rw [left,parts,shifted,and_assoc]
      · obtain ⟨first, second⟩ := unknown lost
        rw [← source second,Ty.orExpected,if_pos first]
  · have shifted := meets_iff_le.mp common
    refine ⟨rest, meets_iff_le.mpr fun t => ?_, .inr ⟨limits, fun lost => source (unknown lost).1⟩⟩
    rcases output with rfl | ⟨output, _⟩
    · rw [left,parts,shifted,and_right_comm]
    · rw [left,parts,shifted,meets_iff_le.mp output]
      tauto

theorem blends_array {item : Ty} {length : Option Nat} :
    (Ty.array item length).blends = true ↔ item = .number ∧ ∃ n, length = some n := by
  cases item <;> cases length <;> simp [blends]

theorem blends_of_le (narrower : a ≤ b) (blends : b.blends = true) : a.blends = true := by
  cases narrower with
  | refl => exact blends
  | unknown => cases blends
  | array items lengths =>
      obtain ⟨rfl, n, rfl⟩ := blends_array.mp blends
      cases items
      rcases lengths with unfixed | rfl
      · cases unfixed
      · rfl

end Ty

end MapStyle
