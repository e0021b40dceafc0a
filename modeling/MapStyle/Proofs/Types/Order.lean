import Mathlib.Order.Bounds.Basic
import MapStyle.Proofs.Reading.Typing
import MapStyle.Proofs.Types.Meet

-- The order of types: a narrower one decides what a wider one leaves open. Two types meet
-- just where some type is narrower than both, and then in the widest of these, so it does
-- not matter in which order types are brought together.

namespace MapStyle.Ty

inductive Narrows : Ty → Ty → Prop
  | refl (type : Ty) : Narrows type type
  | unknown (type : Ty) : Narrows type .unknown
  | array {item item' : Ty} {length length' : Option Nat} (items : Narrows item item')
      (lengths : Fixes length length') : Narrows (.array item length) (.array item' length')

theorem Narrows.trans {a b c : Ty} (first : Narrows a b) (second : Narrows b c) : Narrows a c := by
  induction first generalizing c with
  | refl => exact second
  | unknown type =>
      cases second with
      | refl => exact .unknown type
      | unknown => exact .unknown type
  | array items lengths ih =>
      cases second with
      | refl => exact .array items lengths
      | unknown => exact .unknown _
      | array items' lengths' => exact .array (ih items') (fixes_trans lengths lengths')

theorem Narrows.antisymm {a b : Ty} (first : Narrows a b) (second : Narrows b a) : a = b := by
  induction first with
  | refl => rfl
  | unknown type =>
      cases second with
      | refl => rfl
      | unknown => rfl
  | array items lengths ih =>
      cases second with
      | refl => rfl
      | array items' lengths' => rw [ih items',fixes_antisymm lengths lengths']

instance : PartialOrder Ty where
  le := Narrows
  le_refl := .refl
  le_trans _ _ _ := Narrows.trans
  le_antisymm _ _ := Narrows.antisymm

theorem le_array {item : Ty} {length : Option Nat} {type : Ty} :
    type ≤ .array item length ↔
      ∃ item' length', type = .array item' length' ∧ item' ≤ item ∧ Fixes length' length := by
  constructor
  · intro narrower
    cases narrower with
    | refl => exact ⟨item, length, rfl, .refl item, .inr rfl⟩
    | array items lengths => exact ⟨_, _, rfl, items, lengths⟩
  · intro given
    obtain ⟨_, _, rfl, items, lengths⟩ := given
    exact .array items lengths

variable {a b both type : Ty}

theorem narrows_splits (type : Ty) : Splits (type ≤ ·) := by
  intro a b both meets
  induction meets generalizing type with
  | left a => exact (and_iff_right (.unknown type)).symm
  | right a => exact (and_iff_left (.unknown type)).symm
  | same a => exact and_self_iff.symm
  | array _ lengths ih =>
      simp only [le_array]
      constructor
      · intro given
        obtain ⟨item, length, rfl, items, fixes⟩ := given
        obtain ⟨first, second⟩ := (ih item).mp items
        obtain ⟨fixes, fixes'⟩ := (fixes_meet lengths).mp fixes
        exact ⟨⟨item, length, rfl, first, fixes⟩, item, length, rfl, second, fixes'⟩
      · intro given
        obtain ⟨⟨item, length, rfl, first, fixes⟩, _, _, same, second, fixes'⟩ := given
        cases same
        exact ⟨item, length, rfl, (ih item).mpr ⟨first, second⟩,
          (fixes_meet lengths).mpr ⟨fixes, fixes'⟩⟩

theorem meets_of_le (narrower : a ≤ b) : Meets a b a := by
  induction narrower with
  | refl type => exact .same type
  | unknown type => exact .right type
  | array _ lengths ih =>
      refine .array ih (meetLength?_eq_some.mpr ?_)
      rcases lengths with rfl | rfl
      · exact .inr (.inl ⟨rfl, rfl⟩)
      · exact .inr (.inr ⟨rfl, rfl⟩)

theorem meets_of_narrower (first : type ≤ a) (second : type ≤ b) : ∃ both, Meets a b both := by
  induction first generalizing b with
  | refl a => exact ⟨a, meets_of_le second⟩
  | unknown => exact ⟨b, .left b⟩
  | array items lengths ih =>
      cases second with
      | refl => exact ⟨_, (meets_of_le (.array items lengths)).swap⟩
      | unknown => exact ⟨_, .right _⟩
      | array items' lengths' =>
          obtain ⟨both, meets⟩ := ih items'
          obtain ⟨shared, agree⟩ := meetLength?_of_fixes lengths lengths'
          exact ⟨.array both shared, .array meets agree⟩

theorem foldlM_of_narrower {start : Ty} {types : List Ty} (first : type ≤ start)
    (others : ∀ other ∈ types, type ≤ other) : ∃ common, types.foldlM meet? start = some common := by
  induction types generalizing start with
  | nil => exact ⟨start, rfl⟩
  | cons next rest ih =>
      obtain ⟨below, others⟩ := List.forall_mem_cons.mp others
      obtain ⟨both, meets⟩ := meets_of_narrower first below
      rw [List.foldlM_cons,meets_iff.mp meets]
      exact ih ((narrows_splits type meets).mpr ⟨first, below⟩) others

theorem meetAll?_eq_some {types : List Ty} {common : Ty} :
    meetAll? types = some common ↔ IsGLB {type | type ∈ types} common := by
  have greatest : ∀ {common}, meetAll? types = some common → IsGLB {type | type ∈ types} common := by
    intro common meets
    refine isGLB_iff_le_iff.mpr fun type => ?_
    exact (narrows_splits type).meetAll? (.unknown type) meets
  refine ⟨greatest, ?_⟩
  intro glb
  obtain ⟨other, meets⟩ := foldlM_of_narrower (.unknown common) glb.1
  rw [glb.unique (greatest meets)]
  exact meets

theorem meetAll?_perm {types types' : List Ty} (reordered : types.Perm types') :
    meetAll? types = meetAll? types' := by
  refine Option.ext fun common => ?_
  simp only [meetAll?_eq_some,reordered.mem_iff]

theorem meetAll?_pair (a b : Ty) : meetAll? [a, b] = a.meet? b :=
  Option.bind_fun_some (a.meet? b)

theorem meetAll?_triple (a b c : Ty) :
    meetAll? [a, b, c] = (a.meet? b).bind fun ab => ab.meet? c :=
  congrArg (a.meet? b).bind (funext fun ab => Option.bind_fun_some (ab.meet? c))

theorem meet?_comm (a b : Ty) : a.meet? b = b.meet? a := by
  rw [← meetAll?_pair,← meetAll?_pair]
  exact meetAll?_perm (List.Perm.swap b a [])

theorem meet?_assoc (a b c : Ty) :
    ((a.meet? b).bind fun ab => ab.meet? c) = (b.meet? c).bind fun bc => a.meet? bc := by
  calc ((a.meet? b).bind fun ab => ab.meet? c)
      _ = meetAll? [a, b, c] := (meetAll?_triple a b c).symm
      _ = meetAll? [b, c, a] := meetAll?_perm (List.perm_append_singleton a [b, c]).symm
      _ = (b.meet? c).bind fun bc => bc.meet? a := meetAll?_triple b c a
      _ = (b.meet? c).bind fun bc => a.meet? bc := by simp only [meet?_comm a]

theorem meet?_eq_some : a.meet? b = some both ↔ IsGLB {a, b} both := by
  have sides : {type | type ∈ [a, b]} = ({a, b} : Set Ty) := by
    ext type
    simp
  rw [← meetAll?_pair,meetAll?_eq_some,sides]

theorem join_perm {types types' : List Ty} (reordered : types.Perm types') :
    Reading.Common.join none types = Reading.Common.join none types' := by
  by_cases empty : types = []
  · subst empty
    rw [reordered.nil_eq]
  · have nonempty : types' ≠ [] := fun emptied => empty (emptied ▸ reordered).eq_nil
    rw [Reading.Common.join_all empty,Reading.Common.join_all nonempty]
    exact congrArg _ (meetAll?_perm reordered)

theorem meet_laws (a b c : Ty) :
    (∀ both, a.meet? b = some both ↔ IsGLB {a, b} both) ∧
      a.meet? b = b.meet? a ∧ a.meet? a = some a ∧ Ty.unknown.meet? a = some a ∧
      ((a.meet? b).bind fun ab => ab.meet? c) = ((b.meet? c).bind fun bc => a.meet? bc) ∧
      ∀ types types' : List Ty, types.Perm types' →
        meetAll? types = meetAll? types' ∧
          Reading.Common.join none types = Reading.Common.join none types' := by
  refine ⟨fun _ => meet?_eq_some, meet?_comm a b, meet?_self a, rfl, meet?_assoc a b c, ?_⟩
  intro types types' reordered
  exact ⟨meetAll?_perm reordered, join_perm reordered⟩

theorem meet_laws_reordered :
    let types : List Ty := [.array .number none, .unknown, .array .unknown (some 2)]
    let types' : List Ty := [.array .unknown (some 2), .array .number none, .unknown]
    types.Perm types' ∧ meetAll? types = meetAll? types' ∧
      Reading.Common.join none types = Reading.Common.join none types' ∧
      meetAll? types = some (.array .number (some 2)) := by
  intro types types'
  have reordered : types.Perm types' := by decide
  obtain ⟨meets, joins⟩ :=
    (meet_laws .unknown .unknown .unknown).2.2.2.2.2 types types' reordered
  exact ⟨reordered, meets, joins, rfl⟩

end MapStyle.Ty
