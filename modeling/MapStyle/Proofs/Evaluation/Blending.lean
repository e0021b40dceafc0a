import MapStyle.Evaluation.Run

-- Which values blend. Values of the same shape do, each leaf with the one across from it.
-- Where the shapes differ, the error is about the first pair of parts that differ by
-- themselves and not only in what is inside of them.

namespace MapStyle.Value

inductive SameShape : Value → Value → Prop
  | num (x y : Float) : SameShape (.num x) (.num y)
  | color (x y : Color) : SameShape (.color x) (.color y)
  | arr {as bs : List Value} (length : as.length = bs.length)
      (items : ∀ (i : Nat) (a b : Value), as[i]? = some a → bs[i]? = some b → SameShape a b) :
      SameShape (.arr as) (.arr bs)

inductive SameOutline : Value → Value → Prop
  | num (x y : Float) : SameOutline (.num x) (.num y)
  | color (x y : Color) : SameOutline (.color x) (.color y)
  | arr {as bs : List Value} (length : as.length = bs.length) : SameOutline (.arr as) (.arr bs)

-- Items are paired where the arrays are of the same length, so that none is left over.
def pair? (position : Nat) : Value → Value → Option (Value × Value)
  | .arr as, .arr bs => if as.length = bs.length then (as.zip bs)[position]? else none
  | _, _ => none

def pairAt? (a b : Value) : List Nat → Option (Value × Value)
  | [] => some (a, b)
  | position :: rest => (pair? position a b).bind fun p => pairAt? p.1 p.2 rest

def item? (position : Nat) : Value → Option Value
  | .arr items => items[position]?
  | _ => none

def follow? : Value → List Nat → Option Value
  | v, [] => some v
  | v, position :: rest => (v.item? position).bind fun part => part.follow? rest

-- From left to right, the one place comes no later than the other.
def NoLater (place other : List Nat) : Prop :=
  place = other ∨ List.Lex (· < ·) place other

structure Innermost (a b : Value) (place : List Nat) (u w : Value) : Prop where
  pair : pairAt? a b place = some (u, w)
  differ : ¬ u.SameShape w
  inside : ∀ position rest x y, pairAt? u w (position :: rest) = some (x, y) → x.SameShape y

variable {t : Float} {a b u v w : Value} {as bs vs : List Value} {place : List Nat}

theorem pairAt?_cons_eq_some {position : Nat} :
    pairAt? a b (position :: place) = some (u, w) ↔ ∃ as bs x y, a = .arr as ∧ b = .arr bs ∧
      as.length = bs.length ∧ as[position]? = some x ∧ bs[position]? = some y ∧
      pairAt? x y place = some (u, w) := by
  constructor
  · intro found
    obtain ⟨⟨x, y⟩, pair, inside⟩ := Option.bind_eq_some_iff.mp found
    unfold pair? at pair
    split at pair
    · split at pair
      · rename_i as bs length
        obtain ⟨first, second⟩ := List.getElem?_zip_eq_some.mp pair
        exact ⟨as, bs, x, y, rfl, rfl, length, first, second, inside⟩
      · cases pair
    · cases pair
  · rintro ⟨as, bs, x, y, rfl, rfl, length, first, second, inside⟩
    have pair : (as.zip bs)[position]? = some (x, y) :=
      List.getElem?_zip_eq_some.mpr ⟨first, second⟩
    rw [pairAt?,pair?,if_pos length,pair]
    exact inside

theorem pairAt?_head (length : as.length = bs.length) :
    pairAt? (.arr (a :: as)) (.arr (b :: bs)) (0 :: place) = pairAt? a b place := by
  simp [pairAt?,pair?,length]

theorem pairAt?_tail (position : Nat) :
    pairAt? (.arr (a :: as)) (.arr (b :: bs)) ((position + 1) :: place) =
      pairAt? (.arr as) (.arr bs) (position :: place) := by
  simp [pairAt?,pair?]

theorem SameShape.outline (same : a.SameShape b) : a.SameOutline b := by
  cases same with
  | num x y => exact .num x y
  | color x y => exact .color x y
  | arr length => exact .arr length

theorem SameShape.cons (first : a.SameShape b) (others : SameShape (.arr as) (.arr bs)) :
    SameShape (.arr (a :: as)) (.arr (b :: bs)) := by
  cases others with
  | arr length items =>
      refine .arr (congrArg (· + 1) length) ?_
      intro i x y here there
      cases i with
      | zero =>
          cases here
          cases there
          exact first
      | succ i => exact items i x y here there

theorem SameShape.pairAt? (same : a.SameShape b) (found : pairAt? a b place = some (u, w)) :
    u.SameShape w := by
  induction place generalizing a b with
  | nil =>
      cases found
      exact same
  | cons position rest ih =>
      obtain ⟨as, bs, x, y, rfl, rfl, _, here, there, found⟩ := pairAt?_cons_eq_some.mp found
      cases same with
      | arr length items => exact ih (items position x y here there) found

theorem innermost_iff :
    Innermost a b place u w ↔ pairAt? a b place = some (u, w) ∧ ¬ u.SameOutline w := by
  constructor
  · intro innermost
    refine ⟨innermost.pair, fun outline => innermost.differ ?_⟩
    cases outline with
    | num x y => exact .num x y
    | color x y => exact .color x y
    | arr length =>
        refine .arr length fun i x y here there => innermost.inside i [] x y ?_
        exact pairAt?_cons_eq_some.mpr ⟨_, _, x, y, rfl, rfl, length, here, there, rfl⟩
  · rintro ⟨pair, apart⟩
    refine ⟨pair, fun same => apart same.outline, ?_⟩
    intro position rest x y found
    obtain ⟨as, bs, _, _, rfl, rfl, length, _⟩ := pairAt?_cons_eq_some.mp found
    exact absurd (.arr length) apart

structure FirstApart (a b : Value) (place : List Nat) (u w : Value) : Prop where
  pair : pairAt? a b place = some (u, w)
  apart : ¬ u.SameOutline w
  first : ∀ other x y, pairAt? a b other = some (x, y) → ¬ x.SameOutline y → NoLater place other

namespace FirstApart

theorem here (apart : ¬ a.SameOutline b) : FirstApart a b [] a b where
  pair := rfl
  apart := apart
  first other _ _ _ _ := by
    cases other with
    | nil => exact .inl rfl
    | cons position rest => exact .inr .nil

theorem head (length : as.length = bs.length) (first : FirstApart a b place u w) :
    FirstApart (.arr (a :: as)) (.arr (b :: bs)) (0 :: place) u w where
  pair := (pairAt?_head length).trans first.pair
  apart := first.apart
  first other x y found apart := by
    match other with
    | [] =>
        cases found
        exact absurd (.arr (congrArg (· + 1) length)) apart
    | 0 :: rest =>
        rw [pairAt?_head length] at found
        rcases first.first rest x y found apart with rfl | before
        · exact .inl rfl
        · exact .inr (.cons before)
    | (position + 1) :: rest => exact .inr (.rel (Nat.succ_pos position))

theorem tail (same : a.SameShape b) (length : as.length = bs.length)
    (first : FirstApart (.arr as) (.arr bs) place u w) :
    ∃ place', FirstApart (.arr (a :: as)) (.arr (b :: bs)) place' u w := by
  obtain ⟨pair, apart, first⟩ := first
  cases place with
  | nil =>
      cases pair
      exact absurd (.arr length) apart
  | cons i place =>
      refine ⟨(i + 1) :: place, (pairAt?_tail i).trans pair, apart, ?_⟩
      intro other x y found apart'
      match other with
      | [] =>
          cases found
          exact absurd (.arr (congrArg (· + 1) length)) apart'
      | 0 :: rest =>
          rw [pairAt?_head length] at found
          exact absurd (same.pairAt? found).outline apart'
      | (j + 1) :: rest =>
          rw [pairAt?_tail] at found
          rcases first (j :: rest) x y found apart' with equal | before
          · cases equal
            exact .inl rfl
          · cases before with
            | cons inside => exact .inr (.cons inside)
            | rel less => exact .inr (.rel (Nat.succ_lt_succ less))

end FirstApart

inductive Blended (t : Float) : Value → Value → Value → Prop
  | num (x y : Float) : Blended t (.num x) (.num y) (.num (between x y t))
  | color (x y : Color) : Blended t (.color x) (.color y) (.color (x.mix y t))
  | nil : Blended t (.arr []) (.arr []) (.arr [])
  | cons {a b v : Value} {as bs vs : List Value} (first : Blended t a b v)
      (others : Blended t (.arr as) (.arr bs) (.arr vs)) :
      Blended t (.arr (a :: as)) (.arr (b :: bs)) (.arr (v :: vs))

namespace Blended

theorem sameShape (blended : Blended t a b v) : a.SameShape b ∧ a.SameShape v := by
  induction blended with
  | num x y => exact ⟨.num _ _, .num _ _⟩
  | color x y => exact ⟨.color _ _, .color _ _⟩
  | nil => exact ⟨.arr rfl nofun, .arr rfl nofun⟩
  | cons _ _ first others => exact ⟨first.1.cons others.1, first.2.cons others.2⟩

theorem item {position : Nat} (blended : Blended t (.arr as) (.arr bs) (.arr vs))
    (here : as[position]? = some a) (there : bs[position]? = some b) :
    ∃ v, vs[position]? = some v ∧ Blended t a b v := by
  induction position generalizing as bs vs with
  | zero =>
      cases blended with
      | nil => cases here
      | cons first others =>
          cases here
          cases there
          exact ⟨_, rfl, first⟩
  | succ position ih =>
      cases blended with
      | nil => cases here
      | cons first others => exact ih others here there

theorem follow (blended : Blended t a b v) (found : pairAt? a b place = some (u, w)) :
    ∃ part, v.follow? place = some part ∧ Blended t u w part := by
  induction place generalizing a b v with
  | nil =>
      cases found
      exact ⟨v, rfl, blended⟩
  | cons position rest ih =>
      obtain ⟨as, bs, x, y, rfl, rfl, _, here, there, found⟩ := pairAt?_cons_eq_some.mp found
      have array : ∃ vs, v = .arr vs := by
        cases blended with
        | nil => exact ⟨_, rfl⟩
        | cons => exact ⟨_, rfl⟩
      obtain ⟨vs, rfl⟩ := array
      obtain ⟨item, next, blended⟩ := blended.item here there
      obtain ⟨part, leads, blended⟩ := ih blended found
      refine ⟨part, ?_, blended⟩
      rw [follow?,item?,next]
      exact leads

end Blended

inductive Outcome (t : Float) (a b : Value) : Except EvalError Value → Prop
  | blended {v : Value} : Blended t a b v → Outcome t a b (.ok v)
  | apart {place : List Nat} {u w : Value} : FirstApart a b place u w →
      Outcome t a b (.error (.typeMismatch u.typeOf w.typeOf))

mutual
theorem blend_outcome (t : Float) (a b : Value) : Outcome t a b (blend t a b) := by
  unfold blend
  split
  · exact .blended (.num _ _)
  · exact .blended (.color _ _)
  · split
    · rename_i as bs length
      have items := blendItems_outcome t as bs length
      cases result : blendItems t as bs with
      | ok vs =>
          rw [result] at items
          exact items
      | error e =>
          rw [result] at items
          exact items
    · rename_i unequal
      exact .apart (.here fun | .arr length => unequal length)
  · rename_i numbers colors arrays
    refine .apart (.here fun outline => ?_)
    cases outline with
    | num x y => exact numbers x y rfl rfl
    | color x y => exact colors x y rfl rfl
    | arr => exact arrays _ _ rfl rfl

-- Of arrays of the same length, told of the arrays of their items: the items are gone
-- through from the left, and the first error is the end.
theorem blendItems_outcome (t : Float) (as bs : List Value) (length : as.length = bs.length) :
    Outcome t (.arr as) (.arr bs) ((blendItems t as bs).map .arr) := by
  match as, bs with
  | [], [] => exact .blended .nil
  | a :: as, b :: bs =>
      have equal : as.length = bs.length := Nat.succ.inj length
      have here := blend_outcome t a b
      have others := blendItems_outcome t as bs equal
      unfold blendItems
      cases first : blend t a b with
      | error e =>
          rw [first] at here
          cases here with
          | apart place => exact .apart (place.head equal)
      | ok v =>
          rw [first] at here
          cases here with
          | blended blended =>
              cases rest : blendItems t as bs with
              | error e =>
                  rw [rest] at others
                  cases others with
                  | apart place =>
                      obtain ⟨place', later⟩ := place.tail blended.sameShape.1 equal
                      exact .apart later
              | ok vs =>
                  rw [rest] at others
                  cases others with
                  | blended items => exact .blended (blended.cons items)
end

theorem blended_of_ok (done : blend t a b = .ok v) : Blended t a b v := by
  have outcome := blend_outcome t a b
  rw [done] at outcome
  cases outcome with
  | blended blended => exact blended

theorem apart_of_error {e : EvalError} (failed : blend t a b = .error e) :
    ∃ place u w, FirstApart a b place u w ∧ e = .typeMismatch u.typeOf w.typeOf := by
  have outcome := blend_outcome t a b
  rw [failed] at outcome
  cases outcome with
  | apart first => exact ⟨_, _, _, first, rfl⟩

theorem SameShape.blends (same : a.SameShape b) (t : Float) : ∃ v, blend t a b = .ok v := by
  cases result : blend t a b with
  | ok v => exact ⟨v, rfl⟩
  | error e =>
      obtain ⟨place, u, w, first, _⟩ := apart_of_error result
      exact absurd (same.pairAt? first.pair).outline first.apart

theorem blend_shapes (t : Float) (a b : Value) :
    ((∃ v, blend t a b = .ok v) ↔ a.SameShape b) ∧
    (∀ v, blend t a b = .ok v → a.SameShape v ∧
      (∀ place x y, pairAt? a b place = some (.num x, .num y) →
        v.follow? place = some (.num (x + (y - x) * t))) ∧
      ∀ place x y, pairAt? a b place = some (.color x, .color y) →
        v.follow? place = some (.color ⟨x.red + (y.red - x.red) * t,
          x.green + (y.green - x.green) * t, x.blue + (y.blue - x.blue) * t,
          x.alpha + (y.alpha - x.alpha) * t⟩)) ∧
    (¬ a.SameShape b → ∃ place u w, Innermost a b place u w ∧
      (∀ other x y, Innermost a b other x y → NoLater place other) ∧
      blend t a b = .error (.typeMismatch u.typeOf w.typeOf)) := by
  refine ⟨⟨?shaped, fun same => same.blends t⟩, ?leaves, ?reported⟩
  case shaped =>
    rintro ⟨v, done⟩
    exact (blended_of_ok done).sameShape.1
  case leaves =>
    intro v done
    have blended := blended_of_ok done
    refine ⟨blended.sameShape.2, ?_, ?_⟩
    · intro place x y found
      obtain ⟨part, leads, between⟩ := blended.follow found
      cases between
      exact leads
    · intro place x y found
      obtain ⟨part, leads, mixed⟩ := blended.follow found
      cases mixed
      exact leads
  case reported =>
    intro differ
    cases result : blend t a b with
    | ok v => exact absurd (blended_of_ok result).sameShape.1 differ
    | error e =>
        obtain ⟨place, u, w, found, rfl⟩ := apart_of_error result
        refine ⟨place, u, w, innermost_iff.mpr ⟨found.pair, found.apart⟩, ?_, rfl⟩
        intro other x y innermost
        obtain ⟨pair, apart⟩ := innermost_iff.mp innermost
        exact found.first other x y pair apart

theorem blend_shapes_nested :
    let black : Color := ⟨0, 0, 0, 1⟩
    let white : Color := ⟨1, 1, 1, 1⟩
    let a : Value := .arr [.arr [.num 0, .num 2], .color black]
    let b : Value := .arr [.arr [.num 10, .num 4], .color white]
    let c : Value := .arr [.arr [.num 10, .null], .str "x"]
    let v : Value := .arr [.arr [.num 5, .num 3], .color ⟨0.5, 0.5, 0.5, 1⟩]
    blend 0.5 a b = .ok v ∧ a.SameShape b ∧ a.SameShape v ∧
      v.follow? [0, 1] = some (.num (2 + (4 - 2) * 0.5)) ∧
      ¬ a.SameShape c ∧ Innermost a c [1] (.color black) (.str "x") ∧
      ∃ place u w, Innermost a c place u w ∧ NoLater place [1] ∧
        blend 0.5 a c = .error (.typeMismatch u.typeOf w.typeOf) := by
  intro black white a b c v
  have five : between 0 10 0.5 = 5 := by decide +kernel
  have three : between 2 4 0.5 = 3 := by decide +kernel
  have half : between 0 1 0.5 = 0.5 := by decide +kernel
  have one : between 1 1 0.5 = 1 := by decide +kernel
  have done : blend 0.5 a b = .ok v := by
    simp only [a,b,v,black,white,blend,blendItems,Color.mix,five,three,half,one,List.length_cons,
      if_true]
  have second : Innermost a c [1] (.color black) (.str "x") := innermost_iff.mpr ⟨rfl, nofun⟩
  have differ : ¬ a.SameShape c := fun same => second.differ (same.pairAt? second.pair)
  obtain ⟨same, whole, _⟩ := blend_shapes 0.5 a b
  obtain ⟨kept, leaf, _⟩ := whole v done
  obtain ⟨_, _, first⟩ := blend_shapes 0.5 a c
  obtain ⟨place, u, w, innermost, leftmost, failed⟩ := first differ
  exact ⟨done, same.mp ⟨v, done⟩, kept, leaf [0, 1] 2 4 rfl, differ, second, place, u, w, innermost,
    leftmost [1] _ _ second, failed⟩

end MapStyle.Value
