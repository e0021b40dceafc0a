import MapStyle.Proofs.Double.Written
import MapStyle.Reading.Access

namespace MapStyle

theorem Json.induction {motive : Json → Prop} (null : motive .null) (bool : ∀ b, motive (.bool b))
    (num : ∀ n, motive (.num n)) (str : ∀ s, motive (.str s))
    (arr : ∀ items, (∀ j ∈ items, motive j) → motive (.arr items))
    (obj : ∀ members, (∀ m ∈ members, motive m.2) → motive (.obj members)) :
    ∀ j, motive j := by
  intro j
  refine @Json.rec motive (fun items => ∀ j ∈ items, motive j)
    (fun members => ∀ m ∈ members, motive m.2) (fun m => motive m.2)
    null bool num str arr obj ?_ ?_ ?_ ?_ ?_ j
  · intro j member
    cases member
  · intro head tail first others j member
    rcases List.mem_cons.mp member with rfl | belongs
    · exact first
    · exact others j belongs
  · intro m member
    cases member
  · intro head tail first others m member
    rcases List.mem_cons.mp member with rfl | belongs
    · exact first
    · exact others m belongs
  · intro key j holds
    exact holds

namespace Value

@[simp] theorem ofItems_eq_map (js : List Json) : ofItems js = js.map ofJson := by
  induction js with
  | nil => rfl
  | cons j js ih => exact congrArg (ofJson j :: ·) ih

@[simp] theorem ofMembers_eq_map (ms : List (String × Json)) :
    ofMembers ms = ms.map fun m => (m.1, ofJson m.2) := by
  induction ms with
  | nil => rfl
  | cons m ms ih => exact congrArg ((m.1, ofJson m.2) :: ·) ih

@[simp] theorem toItems_eq_map (vs : List Value) : toItems vs = vs.map toJson := by
  induction vs with
  | nil => rfl
  | cons v vs ih => exact congrArg (toJson v :: ·) ih

@[simp] theorem toMembers_eq_map (ms : List (String × Value)) :
    toMembers ms = ms.map fun m => (m.1, toJson m.2) := by
  induction ms with
  | nil => rfl
  | cons m ms ih => exact congrArg ((m.1, toJson m.2) :: ·) ih

@[simp] theorem ofJson_arr (items : List Json) : ofJson (.arr items) = .arr (items.map ofJson) :=
  congrArg arr (ofItems_eq_map items)

@[simp] theorem ofJson_obj (members : List (String × Json)) :
    ofJson (.obj members) = .obj (members.map fun m => (m.1, ofJson m.2)) :=
  congrArg obj (ofMembers_eq_map members)

@[simp] theorem toJson_arr (items : List Value) : toJson (.arr items) = .arr (items.map toJson) :=
  congrArg Json.arr (toItems_eq_map items)

@[simp] theorem toJson_obj (members : List (String × Value)) :
    toJson (.obj members) = .obj (members.map fun m => (m.1, toJson m.2)) :=
  congrArg Json.obj (toMembers_eq_map members)

@[simp] theorem equalItems_cons (v w : Value) (vs ws : List Value) :
    equalItems (v :: vs) (w :: ws) = (equals v w && equalItems vs ws) := rfl

@[simp] theorem equalMembers_cons (m n : String × Value) (ms ns : List (String × Value)) :
    equalMembers (m :: ms) (n :: ns) = (m.1 == n.1 && equals m.2 n.2 && equalMembers ms ns) := rfl

theorem equalItems_map {α : Type} {f g : α → Value} {xs : List α}
    (same : ∀ x ∈ xs, equals (f x) (g x) = true) : equalItems (xs.map f) (xs.map g) = true := by
  induction xs with
  | nil => rfl
  | cons x xs ih =>
      rw [List.map_cons,List.map_cons,equalItems_cons,same x List.mem_cons_self,Bool.true_and]
      exact ih fun y member => same y (List.mem_cons_of_mem x member)

theorem equalMembers_map {α : Type} {f g : α → Value} {ms : List (String × α)}
    (same : ∀ m ∈ ms, equals (f m.2) (g m.2) = true) :
    equalMembers (ms.map fun m => (m.1, f m.2)) (ms.map fun m => (m.1, g m.2)) = true := by
  induction ms with
  | nil => rfl
  | cons m ms ih =>
      rw [List.map_cons,List.map_cons,equalMembers_cons,same m List.mem_cons_self,
        beq_self_eq_true,Bool.true_and,Bool.true_and]
      exact ih fun n member => same n (List.mem_cons_of_mem m member)

end Value

@[simp] theorem Ty.ofItems_eq_map (js : List Json) : Ty.ofItems js = js.map Ty.ofJson := by
  induction js with
  | nil => rfl
  | cons j js ih => exact congrArg (Ty.ofJson j :: ·) ih

@[simp] theorem Ty.ofJson_arr (items : List Json) :
    Ty.ofJson (.arr items) =
      .array ((meetAll? (items.map Ty.ofJson)).getD .unknown) (some items.length) := by
  rw [← ofItems_eq_map]
  rfl

@[simp] theorem Ty.admits_arr (item : Ty) (length : Option Nat) (items : List Json) :
    (Ty.array item length).admits (.arr items) =
      (length.all (· == items.length) && items.all fun j => item.admits j) := rfl

-- Data as it is written again: all doubles in it have their own numeral.
def Json.again (j : Json) : Json :=
  (Value.ofJson j).toJson

def Value.again (v : Value) : Value :=
  ofJson v.toJson

def Double.again (x : Float) : Float :=
  (Json.ofFloat x).float?.getD x

theorem Double.again_eq {x y : Float} (read : (Json.ofFloat x).float? = some y) : y = again x := by
  rw [again,read,Option.getD_some]

theorem Double.again_of_finite {x : Float} (finite : x.isFinite = true) (signed : x ≠ -0) :
    again x = x := by
  obtain ⟨n, written, same, _⟩ := Number.ofFloat?_finite finite
  have read : n.toFloat = again x := again_eq (by rw [Json.ofFloat,written]; rfl)
  rw [← read]
  rcases compare_eq_cases ((beq_iff _ _).mp same) with one | ⟨s, t, _, right⟩
  · exact eq_of_parts one
  · cases t with
    | negative => exact absurd (eq_of_parts right) signed
    | positive =>
        obtain rfl : x = 0 := eq_of_parts right
        exact read.trans rfl

namespace Json

theorem ofFloat_toFloat (n : Number) :
    ∃ m, ofFloat n.toFloat = .num m ∧ (m.toFloat == n.toFloat) = true ∧
      ofFloat m.toFloat = .num m := by
  obtain ⟨m, written, same, stable⟩ := Number.ofFloat?_finite n.toFloat_isFinite
  refine ⟨m, ?_, same, ?_⟩
  · simp only [ofFloat,written]
  · simp only [ofFloat,stable]

theorem ofFloat_of_float? {j : Json} {x : Float} (numeral : j.float? = some x) :
    ∃ y, (ofFloat x).float? = some y ∧ (y == x) = true ∧ ofFloat y = ofFloat x := by
  cases j with
  | num n =>
      cases numeral
      obtain ⟨m, written, same, stable⟩ := ofFloat_toFloat n
      refine ⟨m.toFloat, ?_, same, ?_⟩
      · rw [written]
        rfl
      · rw [stable,written]
  | _ => cases numeral

theorem nat?_lt {j : Json} {n : Nat} (known : j.nat? = some n) : n < 2 ^ 64 := by
  cases j with
  | num m =>
      cases m with
      | float x finite => cases known
      | int value inRange =>
          simp only [nat?,Number.toNat?] at known
          split at known
          · rw [Option.some.injEq] at known
            omega
          · cases known
  | _ => cases known

theorem nat?_ofNat_of_lt {n : Nat} (small : n < 2 ^ 64) : (ofNat n).nat? = some n := by
  have inRange : -9223372036854775808 ≤ (n : Int) ∧ (n : Int) < 18446744073709551616 := by omega
  have numeral : Number.ofInt? n = some (.int n inRange) := dif_pos inRange
  rw [ofNat,numeral]
  show (if 0 ≤ (n : Int) then some (n : Int).toNat else none) = some n
  rw [if_pos (Int.natCast_nonneg n),Int.toNat_natCast]

theorem nat?_ofNat {j : Json} {n : Nat} (known : j.nat? = some n) : (ofNat n).nat? = some n :=
  nat?_ofNat_of_lt (nat?_lt known)

@[simp] theorem again_arr (items : List Json) : again (.arr items) = .arr (items.map again) := by
  rw [again,Value.ofJson_arr,Value.toJson_arr,List.map_map]
  rfl

@[simp] theorem again_obj (members : List (String × Json)) :
    again (.obj members) = .obj (members.map fun m => (m.1, again m.2)) := by
  rw [again,Value.ofJson_obj,Value.toJson_obj,List.map_map]
  rfl

theorem again_num (n : Number) :
    ∃ m, again (.num n) = .num m ∧ (m.toFloat == n.toFloat) = true ∧ again (.num m) = .num m :=
  ofFloat_toFloat n

theorem again_again (j : Json) : again (again j) = again j := by
  induction j using Json.induction with
  | null => rfl
  | bool b => rfl
  | str s => rfl
  | num n =>
      obtain ⟨m, written, _, stable⟩ := again_num n
      rw [written,stable]
  | arr items ih =>
      rw [again_arr,again_arr,List.map_map]
      exact congrArg Json.arr (List.map_congr_left ih)
  | obj members ih =>
      rw [again_obj,again_obj,List.map_map]
      refine congrArg Json.obj (List.map_congr_left ?_)
      intro m member
      simp only [Function.comp_apply,ih m member]

theorem ofJson_again (j : Json) : (Value.ofJson (again j) == Value.ofJson j) = true := by
  show Value.equals _ _ = true
  induction j using Json.induction with
  | null => rfl
  | bool b => exact beq_self_eq_true b
  | str s => exact beq_self_eq_true s
  | num n =>
      obtain ⟨m, written, same, _⟩ := again_num n
      rw [written]
      exact same
  | arr items ih =>
      rw [again_arr,Value.ofJson_arr,Value.ofJson_arr,List.map_map]
      exact Value.equalItems_map ih
  | obj members ih =>
      rw [again_obj,Value.ofJson_obj,Value.ofJson_obj,List.map_map]
      exact Value.equalMembers_map (f := fun j => Value.ofJson j.again) (g := Value.ofJson) ih

end Json

namespace Ty

theorem ofJson_again (j : Json) : ofJson j.again = ofJson j := by
  induction j using Json.induction with
  | null => rfl
  | bool b => rfl
  | str s => rfl
  | num n =>
      obtain ⟨m, written, _⟩ := Json.again_num n
      rw [written]
      rfl
  | arr items ih =>
      rw [Json.again_arr,ofJson_arr,ofJson_arr,List.map_map,List.length_map]
      rw [show items.map (ofJson ∘ Json.again) = items.map ofJson from List.map_congr_left ih]
  | obj members ih =>
      rw [Json.again_obj]
      rfl

theorem admits_again (type : Ty) (j : Json) : type.admits j.again = type.admits j := by
  induction j using Json.induction generalizing type with
  | null => rfl
  | bool b => rfl
  | str s => rfl
  | num n =>
      obtain ⟨m, written, _⟩ := Json.again_num n
      rw [written]
      cases type <;> rfl
  | arr items ih =>
      rw [Json.again_arr]
      cases type with
      | array item length =>
          rw [admits_arr,admits_arr,List.length_map,List.all_map]
          refine congrArg _ (Bool.eq_iff_iff.mpr ?_)
          simp only [List.all_eq_true,Function.comp_apply]
          exact forall₂_congr fun j member => by rw [ih j member item]
      | _ => rfl
  | obj members ih =>
      rw [Json.again_obj]
      cases type <;> rfl

end Ty

namespace Reading

theorem constantType_again (expected : Option Ty) (j : Json) :
    constantType expected j.again = constantType expected j := by
  unfold constantType
  simp only [Ty.admits_again,Ty.ofJson_again]

end Reading

end MapStyle
