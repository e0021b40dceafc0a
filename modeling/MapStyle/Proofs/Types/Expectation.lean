import MapStyle.Proofs.Reading.Typing
import MapStyle.Proofs.Types.Meet

-- What an expectation passes. It is laxer than having a meet only for a string in place of
-- one out of a list of names, and it passes a meet just where it passes both sides. So the
-- node that yields one of several outputs is passed where each of the outputs is.

namespace MapStyle

namespace Ty

def hasNames : Ty → Bool
  | .enum _ => true
  | .array item _ => item.hasNames
  | _ => false

variable {expected a b both : Ty}

@[simp] theorem accepts_self (type : Ty) : type.accepts type = true := by
  induction type with
  | array item length ih => simp [accepts,ih]
  | _ => simp [accepts]

@[simp] theorem unknown_accepts (type : Ty) : Ty.unknown.accepts type = true := by
  cases type <;> rfl

@[simp] theorem accepts_unknown (type : Ty) : type.accepts .unknown = true := by
  cases type <;> rfl

theorem accepts_array {item item' : Ty} {length length' : Option Nat} :
    (Ty.array item length).accepts (.array item' length') = true ↔
      item.accepts item' = true ∧ ∃ shared, meetLength? length length' = some shared := by
  rw [accepts,Bool.and_eq_true]
  refine and_congr_right fun _ => ?_
  cases length with
  | none => simp [meetLength?]
  | some n => cases length' <;> simp [meetLength?]

theorem length_splits {n m shared k : Option Nat} (lengths : meetLength? n m = some shared) :
    (∃ l, meetLength? k shared = some l) ↔
      (∃ l, meetLength? k n = some l) ∧ ∃ l, meetLength? k m = some l := by
  have any : ∃ l, meetLength? k none = some l := by cases k <;> exact ⟨_, rfl⟩
  rcases meetLength?_eq_some.mp lengths with ⟨rfl, rfl⟩ | ⟨rfl, rfl⟩ | ⟨rfl, rfl⟩
  · exact (and_iff_right any).symm
  · exact (and_iff_left any).symm
  · exact and_self_iff.symm

theorem accepts_of_meets (meets : Meets expected a both) : expected.accepts a = true := by
  induction meets with
  | left type => exact unknown_accepts type
  | right type => exact accepts_unknown type
  | same type => exact accepts_self type
  | array _ lengths ih => exact accepts_array.mpr ⟨ih, _, lengths⟩

theorem meets_of_accepts (nameless : expected.hasNames = false) (accepts : expected.accepts a = true) :
    ∃ both, Meets expected a both := by
  fun_induction Ty.accepts expected a with
  | case1 names => cases nameless
  | case2 item length item' length' ih =>
      obtain ⟨items, shared, lengths⟩ := accepts_array.mp accepts
      obtain ⟨both, meets⟩ := ih nameless items
      exact ⟨.array both shared, .array meets lengths⟩
  | case3 expected a =>
      obtain ⟨both, meets⟩ := Option.isSome_iff_exists.mp accepts
      exact ⟨both, meets_iff.mpr meets⟩

theorem accepts_splits (expected : Ty) : Splits fun type => expected.accepts type = true := by
  intro a b both meets
  induction meets generalizing expected with
  | left type => simp
  | right type => simp
  | same type => exact and_self_iff.symm
  | array _ lengths ih =>
      -- Arrays pass or fail by their items and lengths, or all of them alike.
      cases expected with
      | unknown => simp
      | array item length =>
          simp only [accepts_array,ih,length_splits lengths]
          exact and_and_and_comm
      | _ => simp [accepts,meet?]

end Ty

theorem Joined.meetAll? {outputs : List Expr} {type : Ty} (joined : Joined outputs type) :
    Ty.meetAll? (outputs.map Expr.type) = some type := by
  obtain ⟨nonempty, joins⟩ := joined
  rw [Reading.Common.join_all (by simpa using nonempty),Option.map_eq_some_iff] at joins
  obtain ⟨common, meets, same⟩ := joins
  rw [meets,Option.some.inj same]

theorem Node.typed_joined {scope : Scope} {type : Ty} {node : Node Expr}
    (typed : node.Typed scope type) (yields : node.outputs ≠ []) : Joined node.outputs type := by
  cases node with
  | coalesce | case | select | curve => exact typed
  | _ => exact absurd rfl yields

theorem Expr.outputs_meet {data : Json} {ctx : Context} {n : Expr}
    (read : Expr.readAny data ctx = pure n) (yields : n.node.outputs ≠ []) :
    Ty.meetAll? (n.node.outputs.map Expr.type) = some n.type :=
  (Node.typed_joined (Expr.readAny_typed read).2 yields).meetAll?

theorem Expr.outputs_accepted {data : Json} {ctx : Context} {n : Expr}
    (read : Expr.readAny data ctx = pure n) (yields : n.node.outputs ≠ []) (expected : Ty) :
    expected.accepts n.type = true ↔ ∀ o ∈ n.node.outputs, expected.accepts o.type = true := by
  rw [(Ty.accepts_splits expected).meetAll? expected.accepts_unknown (Expr.outputs_meet read yields)]
  exact List.forall_mem_map

theorem Ty.accepts_relaxes :
    (∀ expected a : Ty, (expected.meet? a).isSome = true → expected.accepts a = true) ∧
      (∀ expected a : Ty, expected.hasNames = false →
        (expected.accepts a = true ↔ (expected.meet? a).isSome = true)) ∧
      (∀ expected a b both : Ty, a.meet? b = some both →
        (expected.accepts both = true ↔ expected.accepts a = true ∧ expected.accepts b = true)) ∧
      ∀ (data : Json) (ctx : Context) (n : Expr), Expr.readAny data ctx = pure n →
        n.node.outputs ≠ [] →
          (∀ expected : Ty, expected.accepts n.type = true ↔
            ∀ o ∈ n.node.outputs, expected.accepts o.type = true) ∧
          ((∀ expected, ctx.expected = some expected →
              ∀ o ∈ n.node.outputs, expected.accepts o.type = true) →
            Expr.read data ctx = pure n) := by
  have relaxes : ∀ expected a : Ty, (expected.meet? a).isSome = true →
      expected.accepts a = true := by
    intro expected a given
    obtain ⟨both, meets⟩ := Option.isSome_iff_exists.mp given
    exact accepts_of_meets (meets_iff.mpr meets)
  refine ⟨relaxes, ?_, ?_, ?_⟩
  · intro expected a nameless
    refine ⟨?_, relaxes expected a⟩
    intro accepts
    obtain ⟨both, meets⟩ := meets_of_accepts nameless accepts
    exact Option.isSome_iff_exists.mpr ⟨both, meets_iff.mp meets⟩
  · intro expected a b both meets
    exact accepts_splits expected (meets_iff.mpr meets)
  · intro data ctx n read yields
    have accepted := Expr.outputs_accepted read yields
    refine ⟨accepted, ?_⟩
    intro each
    refine Expr.read_eq_pure.mpr ⟨read, ?_⟩
    intro expected found
    exact (accepted expected).mpr (each expected found)

theorem Ty.accepts_relaxes_pair :
    let names : Ty := .array (.enum ["butt", "round"]) none
    let numbers : Ty := .array .number none
    let pair : Ty := .array .string (some 2)
    let data : Json := .arr [.str "coalesce", .arr [.str "get", .str "p"],
      .arr [.str "array", .str "string", .num (.int 2 (by decide)), .arr [.str "get", .str "q"]]]
    numbers.hasNames = false ∧
      (numbers.accepts (.array .unknown (some 2)) = true ↔
        (numbers.meet? (.array .unknown (some 2))).isSome = true) ∧
      (Ty.array .string none).meet? (.array .unknown (some 2)) = some pair ∧
      names.accepts (.array .string none) = true ∧ names.accepts (.array .unknown (some 2)) = true ∧
      names.accepts pair = true ∧
      ∃ n, Expr.readAny data (Context.root (some names) none) = pure n ∧ n.node.outputs ≠ [] ∧
        n.type = pair ∧ (∀ o ∈ n.node.outputs, names.accepts o.type = true) ∧
        names.accepts n.type = true ∧ Expr.read data (Context.root (some names) none) = pure n := by
  intro names numbers pair data
  have nameless : numbers.hasNames = false := rfl
  have meets : (Ty.array .string none).meet? (.array .unknown (some 2)) = some pair := by decide
  have first : names.accepts (.array .string none) = true := by decide
  have second : names.accepts (.array .unknown (some 2)) = true :=
    accepts_relaxes.1 names _ (by decide)
  obtain ⟨_, strict, both, node⟩ := accepts_relaxes
  refine ⟨nameless, strict numbers _ nameless, meets, first, second,
    (both names _ _ _ meets).mpr ⟨first, second⟩, ?_⟩
  let p : Expr := ⟨[.index 1, .index 1], .string, .literal (.str "p")⟩
  let q : Expr := ⟨[.index 2, .index 3, .index 1], .string, .literal (.str "q")⟩
  let n : Expr := ⟨[], pair, .coalesce [⟨[.index 1], .unknown, .get p⟩,
    ⟨[.index 2], pair, .assertArray .string (some 2) ⟨[.index 2, .index 3], .unknown, .get q⟩⟩]⟩
  have read : Expr.readAny data (Context.root (some names) none) = pure n := rfl
  have each : ∀ o ∈ n.node.outputs, names.accepts o.type = true := by decide
  obtain ⟨accepted, passes⟩ := node data _ n read (List.cons_ne_nil _ _)
  refine ⟨n, read, List.cons_ne_nil _ _, rfl, each, (accepted names).mpr each, passes ?_⟩
  intro expected found
  cases found
  exact each

end MapStyle
