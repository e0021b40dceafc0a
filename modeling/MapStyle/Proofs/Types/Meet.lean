import MapStyle.Ty.Data
import MapStyle.Proofs.RoundTrip.Data

-- How types meet: what the one leaves open, the other decides, and where both are known
-- they are the same. `Meets` has a rule for each way, and what is said of meets is proved
-- by induction on these rules.

namespace MapStyle.Ty

section Lengths

variable {n m both k : Option Nat}

@[simp] theorem meetLength?_self (length : Option Nat) : meetLength? length length = some length := by
  cases length with
  | none => rfl
  | some n => simp only [meetLength?,if_true]

theorem meetLength?_comm (n m : Option Nat) : meetLength? n m = meetLength? m n := by
  cases n with
  | none => cases m <;> rfl
  | some x =>
      cases m with
      | none => rfl
      | some y =>
          simp only [meetLength?]
          by_cases same : x = y
          · rw [same]
          · rw [if_neg same,if_neg (Ne.symm same)]

theorem meetLength?_eq_some :
    meetLength? n m = some both ↔ n = none ∧ both = m ∨ m = none ∧ both = n ∨ n = m ∧ both = n := by
  cases n with
  | none => cases m <;> simp [meetLength?,eq_comm]
  | some x =>
      cases m with
      | none => simp [meetLength?,eq_comm]
      | some y => simp [meetLength?,eq_comm]

def Fixes (length other : Option Nat) : Prop :=
  other = none ∨ length = other

theorem fixes_trans (first : Fixes k n) (second : Fixes n m) : Fixes k m := by
  rcases second with rfl | rfl
  · exact .inl rfl
  · exact first

theorem fixes_antisymm (first : Fixes n m) (second : Fixes m n) : n = m := by
  rcases first with rfl | rfl
  · rcases second with rfl | rfl
    · rfl
    · rfl
  · rfl

theorem fixes_meet (meets : meetLength? n m = some both) : Fixes k both ↔ Fixes k n ∧ Fixes k m := by
  rcases meetLength?_eq_some.mp meets with ⟨rfl, rfl⟩ | ⟨rfl, rfl⟩ | ⟨rfl, rfl⟩
  · simp [Fixes]
  · simp [Fixes]
  · simp [Fixes]

theorem meetLength?_of_fixes (first : Fixes k n) (second : Fixes k m) :
    ∃ both, meetLength? n m = some both := by
  rcases first with rfl | rfl
  · exact ⟨m, meetLength?_eq_some.mpr (.inl ⟨rfl, rfl⟩)⟩
  · rcases second with rfl | rfl
    · exact ⟨k, meetLength?_eq_some.mpr (.inr (.inl ⟨rfl, rfl⟩))⟩
    · exact ⟨k, meetLength?_self k⟩

end Lengths

@[simp] theorem meet?_self (type : Ty) : type.meet? type = some type := by
  induction type with
  | array item length ih => simp [meet?,ih]
  | _ => simp [meet?]

inductive Meets : Ty → Ty → Ty → Prop
  | left (type : Ty) : Meets .unknown type type
  | right (type : Ty) : Meets type .unknown type
  | same (type : Ty) : Meets type type type
  | array {item item' both : Ty} {length length' shared : Option Nat} (items : Meets item item' both)
      (lengths : meetLength? length length' = some shared) :
      Meets (.array item length) (.array item' length') (.array both shared)

theorem Meets.swap {a b c : Ty} (meets : Meets a b c) : Meets b a c := by
  induction meets with
  | left type => exact .right type
  | right type => exact .left type
  | same type => exact .same type
  | array _ lengths ih => exact .array ih (meetLength?_comm _ _ ▸ lengths)

theorem meets_iff {a b c : Ty} : Meets a b c ↔ a.meet? b = some c := by
  constructor
  · intro meets
    induction meets with
    | left type => rfl
    | right type => cases type <;> rfl
    | same type => exact meet?_self type
    | array items lengths ih =>
        simp only [meet?,ih,lengths,Option.bind_eq_bind,Option.bind_some]
  · intro meets
    fun_induction meet? a b generalizing c with
    | case1 b =>
        cases meets
        exact .left _
    | case2 a =>
        cases meets
        exact .right _
    | case3 item length item' length' ih =>
        simp only [Option.bind_eq_bind,Option.bind_eq_some_iff] at meets
        obtain ⟨both, items, shared, lengths, made⟩ := meets
        cases made
        exact .array (ih items) lengths
    | case4 a =>
        cases meets
        exact .same _
    | case5 => cases meets

def Splits (P : Ty → Prop) : Prop :=
  ∀ ⦃a b c : Ty⦄, Meets a b c → (P c ↔ P a ∧ P b)

namespace Splits

variable {P : Ty → Prop} {types : List Ty} {start common : Ty}

theorem foldlM (splits : Splits P) (meets : types.foldlM meet? start = some common) :
    P common ↔ P start ∧ ∀ type ∈ types, P type := by
  induction types generalizing start with
  | nil =>
      cases meets
      simp
  | cons type rest ih =>
      rw [List.foldlM_cons,Option.bind_eq_bind,Option.bind_eq_some_iff] at meets
      obtain ⟨both, first, others⟩ := meets
      rw [ih others,splits (meets_iff.mpr first),List.forall_mem_cons,and_assoc]

theorem meetAll? (splits : Splits P) (top : P .unknown) (meets : Ty.meetAll? types = some common) :
    P common ↔ ∀ type ∈ types, P type := by
  rw [splits.foldlM meets]
  exact and_iff_right top

end Splits

theorem length_fits {length : Option Nat} {n : Nat} :
    length.all (· == n) = true ↔ Fixes (some n) length := by
  cases length with
  | none => simp [Fixes]
  | some m =>
      simp only [Option.all_some,beq_iff_eq,Fixes,reduceCtorEq,false_or,Option.some.injEq]
      exact eq_comm

theorem admits_splits (data : Json) : Splits fun type => type.admits data = true := by
  intro a b both meets
  induction meets generalizing data with
  | left type => simp [admits]
  | right type => simp [admits]
  | same type => exact and_self_iff.symm
  | array _ lengths ih =>
      cases data with
      | arr items =>
          simp [length_fits,fixes_meet lengths,ih,imp_and,forall_and]
          exact and_and_and_comm
      | _ => simp [admits]

theorem admits_meet {a b both : Ty} (meets : a.meet? b = some both) (data : Json) :
    both.admits data = true ↔ a.admits data = true ∧ b.admits data = true :=
  admits_splits data (meets_iff.mpr meets)

theorem admits_meet_names :
    let a : Ty := .array (.array .unknown (some 1)) none
    let b : Ty := .array (.array (.enum ["butt", "round"]) none) (some 2)
    let both : Ty := .array (.array (.enum ["butt", "round"]) (some 1)) (some 2)
    let data : Json := .arr [.arr [.str "butt"], .arr [.str "round"]]
    a.meet? b = some both ∧ a.admits data = true ∧ b.admits data = true ∧
      both.admits data = true := by
  intro a b both data
  have meets : a.meet? b = some both := by decide
  have first : a.admits data = true := by decide
  have second : b.admits data = true := by decide
  exact ⟨meets, first, second, (admits_meet meets data).mpr ⟨first, second⟩⟩

end MapStyle.Ty
