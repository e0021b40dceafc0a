import MapStyle.Proofs.Double.Comparison
import MapStyle.Proofs.RoundTrip.Data

-- JSON data that compares equal is interchangeable where only comparisons are made: the
-- comparison is an equivalence, although it is none of doubles alone, since data holds
-- no NaN.

namespace MapStyle

namespace Number

@[simp] theorem beq_self (n : Number) : (n == n) = true := by
  cases n with
  | int value inRange => exact beq_self_eq_true value
  | float value finite => exact Double.beq_self (Double.isNaN_of_isFinite finite)

theorem beq_symm {m n : Number} (same : (m == n) = true) : (n == m) = true := by
  cases m with
  | int a _ =>
      cases n with
      | int b _ => exact BEq.symm (a := a) (b := b) same
      | float b _ => cases same
  | float a _ =>
      cases n with
      | int b _ => cases same
      | float b _ => exact BEq.symm (a := a) (b := b) same

theorem beq_trans {m n o : Number} (first : (m == n) = true) (second : (n == o) = true) :
    (m == o) = true := by
  cases m with
  | int a _ =>
      cases n with
      | int b _ =>
          cases o with
          | int c _ => exact BEq.trans (a := a) (b := b) (c := c) first second
          | float c _ => cases second
      | float b _ => cases first
  | float a _ =>
      cases n with
      | int b _ => cases first
      | float b _ =>
          cases o with
          | int c _ => cases second
          | float c _ => exact BEq.trans (a := a) (b := b) (c := c) first second

theorem toFloat_beq {m n : Number} (same : (m == n) = true) : (m.toFloat == n.toFloat) = true := by
  cases m with
  | int a _ =>
      cases n with
      | int b _ =>
          obtain rfl : a = b := eq_of_beq same
          exact Double.beq_self (Double.isNaN_of_isFinite (toFloat_isFinite (.int a _)))
      | float b _ => cases same
  | float a _ =>
      cases n with
      | int b _ => cases same
      | float b _ => exact same

end Number

namespace Json

@[simp] theorem equalItems_cons (i j : Json) (is js : List Json) :
    equalItems (i :: is) (j :: js) = (i.equals j && equalItems is js) := rfl

@[simp] theorem equalMembers_cons (m n : String × Json) (ms ns : List (String × Json)) :
    equalMembers (m :: ms) (n :: ns) = (m.1 == n.1 && m.2.equals n.2 && equalMembers ms ns) := rfl

theorem equalItems_self {items : List Json} (each : ∀ j ∈ items, j.equals j = true) :
    equalItems items items = true := by
  induction items with
  | nil => rfl
  | cons j rest ih =>
      rw [equalItems_cons,each j List.mem_cons_self,
        ih fun i member => each i (List.mem_cons_of_mem _ member),Bool.and_self]

theorem equalMembers_self {members : List (String × Json)}
    (each : ∀ m ∈ members, m.2.equals m.2 = true) : equalMembers members members = true := by
  induction members with
  | nil => rfl
  | cons m rest ih =>
      rw [equalMembers_cons,each m List.mem_cons_self,beq_self_eq_true,
        ih fun i member => each i (List.mem_cons_of_mem _ member),Bool.and_self,Bool.and_self]

@[simp] theorem equals_self (j : Json) : j.equals j = true := by
  induction j using Json.induction with
  | null => rfl
  | bool b => exact beq_self_eq_true b
  | num n => exact n.beq_self
  | str s => exact beq_self_eq_true s
  | arr items ih => exact equalItems_self ih
  | obj members ih => exact equalMembers_self ih

theorem equalItems_symm {items items' : List Json}
    (each : ∀ j ∈ items, ∀ j', j.equals j' = true → j'.equals j = true)
    (same : equalItems items items' = true) : equalItems items' items = true := by
  induction items generalizing items' with
  | nil =>
      cases items' with
      | nil => rfl
      | cons j' rest' => cases same
  | cons j rest ih =>
      cases items' with
      | nil => cases same
      | cons j' rest' =>
          rw [equalItems_cons,Bool.and_eq_true] at same ⊢
          exact ⟨each j List.mem_cons_self j' same.1,
            ih (fun i member => each i (List.mem_cons_of_mem _ member)) same.2⟩

theorem equalMembers_symm {members members' : List (String × Json)}
    (each : ∀ m ∈ members, ∀ j', m.2.equals j' = true → j'.equals m.2 = true)
    (same : equalMembers members members' = true) : equalMembers members' members = true := by
  induction members generalizing members' with
  | nil =>
      cases members' with
      | nil => rfl
      | cons m' rest' => cases same
  | cons m rest ih =>
      cases members' with
      | nil => cases same
      | cons m' rest' =>
          rw [equalMembers_cons,Bool.and_eq_true,Bool.and_eq_true] at same ⊢
          obtain ⟨⟨key, value⟩, others⟩ := same
          exact ⟨⟨BEq.symm key, each m List.mem_cons_self m'.2 value⟩,
            ih (fun i member => each i (List.mem_cons_of_mem _ member)) others⟩

theorem equals_symm (j : Json) : ∀ j', j.equals j' = true → j'.equals j = true := by
  induction j using Json.induction with
  | null => intro j' same; cases j' <;> first | rfl | cases same
  | bool b =>
      intro j' same
      cases j' with
      | bool b' => exact BEq.symm (a := b) (b := b') same
      | _ => cases same
  | num n =>
      intro j' same
      cases j' with
      | num n' => exact Number.beq_symm same
      | _ => cases same
  | str s =>
      intro j' same
      cases j' with
      | str s' => exact BEq.symm (a := s) (b := s') same
      | _ => cases same
  | arr items ih =>
      intro j' same
      cases j' with
      | arr items' => exact equalItems_symm ih same
      | _ => cases same
  | obj members ih =>
      intro j' same
      cases j' with
      | obj members' => exact equalMembers_symm ih same
      | _ => cases same

theorem equalItems_trans {items items' items'' : List Json}
    (each : ∀ j ∈ items, ∀ j' j'', j.equals j' = true → j'.equals j'' = true → j.equals j'' = true)
    (first : equalItems items items' = true) (second : equalItems items' items'' = true) :
    equalItems items items'' = true := by
  induction items generalizing items' items'' with
  | nil =>
      cases items' with
      | nil => exact second
      | cons j' rest' => cases first
  | cons j rest ih =>
      cases items' with
      | nil => cases first
      | cons j' rest' =>
          cases items'' with
          | nil => cases second
          | cons j'' rest'' =>
              rw [equalItems_cons,Bool.and_eq_true] at first second ⊢
              exact ⟨each j List.mem_cons_self j' j'' first.1 second.1,
                ih (fun i member => each i (List.mem_cons_of_mem _ member)) first.2 second.2⟩

theorem equalMembers_trans {members members' members'' : List (String × Json)}
    (each : ∀ m ∈ members, ∀ j' j'', m.2.equals j' = true → j'.equals j'' = true →
      m.2.equals j'' = true)
    (first : equalMembers members members' = true)
    (second : equalMembers members' members'' = true) : equalMembers members members'' = true := by
  induction members generalizing members' members'' with
  | nil =>
      cases members' with
      | nil => exact second
      | cons m' rest' => cases first
  | cons m rest ih =>
      cases members' with
      | nil => cases first
      | cons m' rest' =>
          cases members'' with
          | nil => cases second
          | cons m'' rest'' =>
              rw [equalMembers_cons,Bool.and_eq_true,Bool.and_eq_true] at first second ⊢
              obtain ⟨⟨key, value⟩, others⟩ := first
              obtain ⟨⟨key', value'⟩, others'⟩ := second
              exact ⟨⟨BEq.trans key key', each m List.mem_cons_self m'.2 m''.2 value value'⟩,
                ih (fun i member => each i (List.mem_cons_of_mem _ member)) others others'⟩

theorem equals_trans (j : Json) :
    ∀ j' j'', j.equals j' = true → j'.equals j'' = true → j.equals j'' = true := by
  induction j using Json.induction with
  | null => intro j' j'' first second; cases j' <;> first | exact second | cases first
  | bool b =>
      intro j' j'' first second
      cases j' with
      | bool b' => rwa [show b = b' from eq_of_beq first]
      | _ => cases first
  | num n =>
      intro j' j'' first second
      cases j' with
      | num n' =>
          cases j'' with
          | num n'' => exact Number.beq_trans first second
          | _ => cases second
      | _ => cases first
  | str s =>
      intro j' j'' first second
      cases j' with
      | str s' => rwa [show s = s' from eq_of_beq first]
      | _ => cases first
  | arr items ih =>
      intro j' j'' first second
      cases j' with
      | arr items' =>
          cases j'' with
          | arr items'' => exact equalItems_trans ih first second
          | _ => cases second
      | _ => cases first
  | obj members ih =>
      intro j' j'' first second
      cases j' with
      | obj members' =>
          cases j'' with
          | obj members'' => exact equalMembers_trans ih first second
          | _ => cases second
      | _ => cases first

instance : EquivBEq Json where
  rfl := equals_self _
  symm := equals_symm _ _
  trans := equals_trans _ _ _

end Json

end MapStyle
