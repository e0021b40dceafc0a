import MapStyle.Proofs.Double.Written
import MapStyle.Proofs.Evaluation.Curve
import MapStyle.Proofs.Reading.Operators
import MapStyle.Proofs.Scope.Resolution

-- What a tree that was read can be relied on for beyond its types. Later passes take the
-- first of the stops, search the labels of a match and write a name back without another
-- look at them.

namespace MapStyle

open Reading Attempt

theorem Json.float?_isNaN {j : Json} {x : Float} (found : j.float? = some x) : x.isNaN = false := by
  cases j with
  | num n =>
      cases found
      exact Double.isNaN_of_isFinite n.toFloat_isFinite
  | _ => cases found

namespace Reading

variable {ctx : Context} {common final : Common} {last : Option Float} {position : Nat}
  {pairs : List (Operand × Operand)} {ss : List (Stop Expr)}

def ReadStop (p : Operand × Operand) (s : Stop Expr) : Prop :=
  p.1.raw.float? = some s.input ∧ ∃ ctx, p.2.read ctx = pure s.output

theorem stops_read (success : stops ctx common last position pairs = (final, pure ss)) :
    List.Forall₂ ReadStop pairs ss := by
  induction pairs generalizing common last position ss with
  | nil =>
      obtain rfl := pure_eq_pure.mp (Prod.mk.inj success).2
      exact .nil
  | cons p rest ih =>
      obtain ⟨x, e, _, others, numeral, _, made, after, rfl⟩ := stops_cons_eq_pure.mp success
      exact .cons ⟨numeral, _, (output_eq_pure.mp made).1⟩ (ih after)

-- Data holds no NaN, so a number that is not up to the last one read lies above it.
theorem stops_ascending (number : ∀ y, last = some y → y.isNaN = false)
    (success : stops ctx common last position pairs = (final, pure ss)) :
    Stop.Ascending ss ∧ ∀ y, last = some y → ∀ s ∈ ss, y < s.input := by
  induction pairs generalizing common last position ss with
  | nil =>
      obtain rfl := pure_eq_pure.mp (Prod.mk.inj success).2
      exact ⟨⟨nofun, .nil⟩, fun _ _ _ member => nomatch member⟩
  | cons p rest ih =>
      obtain ⟨x, e, _, others, numeral, order, _, after, rfl⟩ := stops_cons_eq_pure.mp success
      have numeric := Json.float?_isNaN numeral
      obtain ⟨ascending, above⟩ := ih (fun y same => by cases same; exact numeric) after
      have beyond : ∀ y, last = some y → y < x := by
        intro y given
        rw [given,Option.any_some,decide_eq_false_iff_not] at order
        exact (Double.not_le_iff numeric (number y given)).mp order
      refine ⟨⟨?_, ?_⟩, ?_⟩
      · intro s member
        rcases List.mem_cons.mp member with rfl | belongs
        · exact numeric
        · exact ascending.numbers s belongs
      · exact List.pairwise_cons.mpr ⟨above x rfl, ascending.ordered⟩
      · intro y given s member
        rcases List.mem_cons.mp member with rfl | belongs
        · exact beyond y given
        · exact Double.lt_trans (beyond y given) (above x rfl s belongs)

end Reading

def WordCharacter (c : Char) : Prop :=
  ('A' ≤ c ∧ c ≤ 'Z') ∨ ('a' ≤ c ∧ c ≤ 'z') ∨ ('0' ≤ c ∧ c ≤ '9') ∨ c = '_'

def Binding.Named {α : Type} (b : Binding α) : Prop :=
  b.name ≠ "" ∧ ∀ c ∈ b.name.toList, WordCharacter c

structure Arm.Labelled {α : Type} (arms : List (Arm α)) : Prop where
  inhabited : arms ≠ []
  each : ∀ a ∈ arms, a.labels ≠ []
  kind : ∃ type, type ∈ [Ty.string, .number, .boolean] ∧
    ∀ a ∈ arms, ∀ v ∈ a.labels, v.typeOf = type
  apart : (arms.flatMap Arm.labels).Pairwise fun v w => (v == w) = false ∧ (w == v) = false

def Interpolation.Valid : Interpolation → Prop
  | .exponential base => base.isFinite = true ∧ 0 < base
  | _ => True

def Node.Formed {α : Type} (type : Ty) : Node α → Prop
  | .letIn bindings _ => bindings ≠ [] ∧ ∀ b ∈ bindings, b.Named
  | .coalesce args => args ≠ []
  | .assert _ args => args ≠ []
  | .assertArray item length _ =>
      item ∈ [Ty.string, .number, .boolean, .unknown] ∧ ∀ n, length = some n → 0 < n
  | .case branches _ => branches ≠ []
  | .select _ arms _ => Arm.Labelled arms
  | .curve interpolation _ stops =>
      stops ≠ [] ∧ Stop.Ascending stops ∧ interpolation.Valid ∧
        (interpolation.isStep = false → type.blends = true)
  | _ => True

theorem Arity.least_le {least found : Nat} {most : Option Nat}
    (counted : (Arity.between least most).fault? (found + 1) = none) : least ≤ found :=
  (Arity.fault?_between.mp counted).1

theorem pairs?_ne_nil {α : Type} {xs : List α} {pairs : List (α × α)}
    (split : pairs? xs = some pairs) (present : 0 < xs.length) : pairs ≠ [] := by
  rw [pairs?_eq_some] at split
  subst split
  rintro rfl
  exact absurd present (Nat.lt_irrefl 0)

theorem pairsAndLast?_ne_nil {α : Type} {xs : List α} {pairs : List (α × α)} {last : α}
    (split : pairsAndLast? xs = some (pairs, last)) (more : 1 < xs.length) : pairs ≠ [] := by
  rw [pairsAndLast?_eq_some] at split
  subst split
  rintro rfl
  exact absurd more (Nat.lt_irrefl 1)

theorem ne_nil_of_length {α β : Type} {xs : List α} {ys : List β} (present : xs ≠ [])
    (same : ys.length = xs.length) : ys ≠ [] := by
  rw [← List.length_pos_iff,same]
  exact List.length_pos_iff.mpr present

namespace Reading

variable {ctx : Context} {operands : List Operand} {e : Expr}

theorem isNameChar_word {c : Char} (valid : isNameChar c = true) : WordCharacter c := by
  rw [isNameChar,Bool.or_eq_true,beq_iff_eq] at valid
  rcases valid with letter | underscore
  · simp only [Char.isAlphanum,Char.isAlpha,Char.isUpper,Char.isLower,Char.isDigit,Bool.or_eq_true,
      decide_eq_true_eq,Bool.and_eq_true] at letter
    rcases letter with (upper | lower) | digit
    · exact .inl upper
    · exact .inr (.inl lower)
    · exact .inr (.inr (.inl digit))
  · exact .inr (.inr (.inr underscore))

theorem isName_named {b : Binding Expr} (valid : isName b.name = true) : b.Named := by
  rw [isName,Bool.and_eq_true,bne_iff_ne,List.all_eq_true] at valid
  obtain ⟨inhabited, each⟩ := valid
  constructor
  · intro empty
    rw [empty] at inhabited
    exact inhabited rfl
  · intro c member
    exact isNameChar_word (each c member)

theorem bindings_named {position : Nat} {body : Operand} {pairs : List (Operand × Operand)}
    {bs : List (Binding Expr)} (success : bindingsThen ctx position body pairs = pure (bs, e)) :
    ∀ b ∈ bs, b.Named := by
  induction pairs generalizing ctx position bs with
  | nil =>
      obtain ⟨rfl, _⟩ := bindingsThen_nil_eq_pure.mp success
      intro b member
      cases member
  | cons p rest ih =>
      obtain ⟨n, v, others, _, valid, _, after, rfl⟩ := bindingsThen_cons_eq_pure.mp success
      intro b member
      rcases List.mem_cons.mp member with rfl | belongs
      · exact isName_named valid
      · exact ih after b belongs

theorem label_beq_comm {j : Json} {type : Ty} (kind : labelType? j = some type) (w : Value) :
    (Value.ofJson j == w) = (w == Value.ofJson j) := by
  cases j with
  | num n =>
      cases w with
      | num y => exact BEq.comm (α := Float)
      | _ => rfl
  | bool b =>
      cases w with
      | bool c => exact BEq.comm (α := Bool)
      | _ => rfl
  | str s =>
      cases w with
      | str t => exact BEq.comm (α := String)
      | _ => rfl
  | _ => cases kind

theorem label_kind {j : Json} {type : Ty} (kind : labelType? j = some type) :
    (Value.ofJson j).typeOf = type ∧ type ∈ [Ty.string, .number, .boolean] := by
  cases j with
  | null => cases kind
  | arr items => cases kind
  | obj members => cases kind
  | _ => cases kind; exact ⟨rfl, by decide⟩

structure LabelState.Sound (state : LabelState) : Prop where
  typed : ∀ v ∈ state.seen, state.type? = some v.typeOf
  kind : ∀ type, state.type? = some type → type ∈ [Ty.string, .number, .boolean]
  apart : state.seen.Pairwise fun v w => (v == w) = false ∧ (w == v) = false

theorem empty_sound : LabelState.Sound ⟨none, []⟩ :=
  ⟨nofun, nofun, .nil⟩

theorem label_sound {state : LabelState} {j : Json} {type : Ty} (sound : state.Sound)
    (kind : labelType? j = some type) (shared : state.type?.getD type = type)
    (fresh : state.seen.contains (Value.ofJson j) = false) :
    LabelState.Sound ⟨some type, Value.ofJson j :: state.seen⟩ := by
  obtain ⟨typeOf, scalar⟩ := label_kind kind
  refine ⟨?_, ?_, List.pairwise_cons.mpr ⟨?_, sound.apart⟩⟩
  · intro v member
    rcases List.mem_cons.mp member with rfl | earlier
    · rw [typeOf]
    · have known := sound.typed v earlier
      rw [known,Option.getD_some] at shared
      rw [shared]
  · intro type' same
    cases same
    exact scalar
  · intro v earlier
    have differs : (Value.ofJson j == v) = false := by
      rw [← Bool.not_eq_true]
      intro same
      rw [List.contains_iff_exists_mem_beq.mpr ⟨v, earlier, same⟩] at fresh
      cases fresh
    exact ⟨differs, label_beq_comm kind v ▸ differs⟩

theorem labels_sound {position : Nat} {state final : LabelState} {js : List Json} {vs : List Value}
    (sound : state.Sound) (success : labels ctx position state js = (final, pure vs)) :
    final.Sound ∧ final.seen = vs.reverse ++ state.seen := by
  induction js generalizing state vs with
  | nil =>
      obtain ⟨rfl, ended⟩ := Prod.mk.inj success
      obtain rfl := pure_eq_pure.mp ended
      exact ⟨sound, rfl⟩
  | cons j rest ih =>
      obtain ⟨type, others, kind, shared, fresh, after, rfl⟩ := labels_cons_eq_pure.mp success
      obtain ⟨final', seen⟩ := ih (label_sound sound kind shared fresh) after
      refine ⟨final', ?_⟩
      rw [seen,List.reverse_cons,List.append_assoc,List.singleton_append]

theorem armLabels_sound {position : Nat} {state final : LabelState} {data : Json} {vs : List Value}
    (sound : state.Sound) (success : armLabels ctx position state data = (final, pure vs)) :
    final.Sound ∧ final.seen = vs.reverse ++ state.seen ∧ vs ≠ [] := by
  obtain ⟨j, js, read⟩ := armLabels_eq_pure success
  obtain ⟨final', seen⟩ := labels_sound sound read
  obtain ⟨_, _, _, _, _, _, rfl⟩ := labels_cons_eq_pure.mp read
  exact ⟨final', seen, List.cons_ne_nil _ _⟩

theorem arms_sound {state final : LabelState} {common final' : Common} {position : Nat}
    {pairs : List (Operand × Operand)} {as : List (Arm Expr)} (sound : state.Sound)
    (success : arms ctx state common position pairs = (final, final', pure as)) :
    final.Sound ∧ final.seen = (as.flatMap Arm.labels).reverse ++ state.seen ∧
      ∀ a ∈ as, a.labels ≠ [] := by
  induction pairs generalizing state common position as with
  | nil =>
      obtain ⟨rfl, ended⟩ := Prod.mk.inj success
      obtain rfl := pure_eq_pure.mp (Prod.mk.inj ended).2
      exact ⟨sound, rfl, nofun⟩
  | cons p rest ih =>
      obtain ⟨vs, r, middle, _, others, read, _, after, rfl⟩ := arms_cons_eq_pure.mp success
      obtain ⟨sound', seen, inhabited⟩ := armLabels_sound sound read
      obtain ⟨sound'', seen', each⟩ := ih sound' after
      refine ⟨sound'', ?_, ?_⟩
      · rw [seen',seen,List.flatMap_cons,List.reverse_append,List.append_assoc]
      · intro a member
        rcases List.mem_cons.mp member with rfl | belongs
        · exact inhabited
        · exact each a belongs

theorem arms_labelled {common : Common} {state : LabelState} {position : Nat}
    {pairs : List (Operand × Operand)} {as : List (Arm Expr)} (present : pairs ≠ [])
    (success : arms ctx ⟨none, []⟩ none position pairs = (state, common, pure as)) :
    Arm.Labelled as := by
  obtain ⟨sound, seen, each⟩ := arms_sound empty_sound success
  rw [List.append_nil] at seen
  refine ⟨ne_nil_of_length present (arms_length success), each, ?_, ?_⟩
  · have known : ∀ a ∈ as, ∀ v ∈ a.labels, state.type? = some v.typeOf := by
      intro a belongs v member
      apply sound.typed
      rw [seen,List.mem_reverse]
      exact List.mem_flatMap.mpr ⟨a, belongs, member⟩
    cases told : state.type? with
    | none =>
        refine ⟨.string, by decide, ?_⟩
        intro a belongs v member
        have typed := known a belongs v member
        rw [told] at typed
        cases typed
    | some type =>
        refine ⟨type, sound.kind type told, ?_⟩
        intro a belongs v member
        have typed := known a belongs v member
        rw [told,Option.some.injEq] at typed
        exact typed.symm
  · have apart := sound.apart
    rw [seen,List.pairwise_reverse] at apart
    exact apart.imp And.symm

theorem interpolation_valid {data : Json} {i : Interpolation}
    (success : interpolation ctx data = pure i) : i.Valid := by
  obtain ⟨_, valid⟩ := interpolation_eq_pure.mp success
  cases i with
  | exponential base => exact valid base rfl
  | _ => trivial

theorem itemType?_scalar {data : Json} {type : Ty} (found : itemType? data = some type) :
    type ∈ [Ty.string, .number, .boolean, .unknown] := by
  unfold itemType? at found
  split at found
  all_goals cases found
  all_goals decide

theorem letIn_formed (counted : 3 ≤ operands.length) (success : letIn ctx operands = pure e) :
    e.node.Formed e.type := by
  obtain ⟨pairs, last, bs, b, split, read, rfl⟩ := letIn_eq_pure.mp success
  have present := pairsAndLast?_ne_nil split (Nat.lt_of_succ_lt counted)
  exact ⟨ne_nil_of_length present (bindingsThen_length read), bindings_named read⟩

theorem coalesce_formed (counted : 1 ≤ operands.length) (success : coalesce ctx operands = pure e) :
    e.node.Formed e.type := by
  obtain ⟨common, args, read, rfl⟩ := coalesce_eq_pure.mp success
  exact ne_nil_of_length (List.length_pos_iff.mp counted) (alternatives_length read)

theorem assert_formed {type : Ty} (counted : 1 ≤ operands.length)
    (success : assert type ctx operands = pure e) : e.node.Formed e.type := by
  obtain ⟨args, read, rfl⟩ := assert_eq_pure.mp success
  have lengths := congrArg List.length read
  rw [List.length_map,List.length_zipIdx,List.length_map] at lengths
  exact ne_nil_of_length (List.length_pos_iff.mp counted) lengths.symm

theorem array_formed (success : array ctx operands = pure e) : e.node.Formed e.type := by
  obtain ⟨item, length, position, input, i, form, _, rfl⟩ := array_eq_pure.mp success
  cases form with
  | input => exact ⟨by decide, nofun⟩
  | item _ _ _ found => exact ⟨itemType?_scalar found, nofun⟩
  | length _ _ _ _ n found _ =>
      refine ⟨itemType?_scalar found, ?_⟩
      intro m same
      cases same
      exact Nat.succ_pos n

theorem case_formed (counted : 3 ≤ operands.length) (success : case ctx operands = pure e) :
    e.node.Formed e.type := by
  obtain ⟨pairs, last, _, bs, _, o, split, read, _, rfl⟩ := case_eq_pure.mp success
  have present := pairsAndLast?_ne_nil split (Nat.lt_of_succ_lt counted)
  exact ne_nil_of_length present (branches_length read)

theorem select_formed (counted : 4 ≤ operands.length) (success : select ctx operands = pure e) :
    e.node.Formed e.type := by
  obtain ⟨input, operands, rfl⟩ := select_operands success
  obtain ⟨pairs, last, state, _, as, _, o, i, split, read, _, _, rfl⟩ :=
    select_eq_pure.mp success
  have present := pairsAndLast?_ne_nil split (Nat.lt_of_succ_lt (Nat.le_of_succ_le_succ counted))
  exact arms_labelled present read

theorem curve_formed (counted : 4 ≤ operands.length) (success : curve ctx operands = pure e) :
    e.node.Formed e.type := by
  obtain ⟨kind, input, operands, rfl⟩ := curve_operands success
  obtain ⟨pairs, i, x, common, ss, split, kind, _, read, blends, rfl⟩ :=
    curve_eq_pure.mp success
  have present := pairs?_ne_nil split
    (Nat.lt_of_succ_lt (Nat.le_of_succ_le_succ (Nat.le_of_succ_le_succ counted)))
  obtain ⟨ascending, _⟩ := stops_ascending (by intro y given; cases given) read
  refine ⟨ne_nil_of_length present (stops_length read), ascending, interpolation_valid kind, ?_⟩
  intro eases
  rw [eases,Bool.false_or] at blends
  exact blends

theorem operator_formed {op : Operator} (counted : op.arity.fault? (operands.length + 1) = none)
    (success : operator op ctx operands = pure e) : e.node.Formed e.type := by
  cases op with
  | literal =>
      obtain ⟨o, _, made⟩ := withOne_eq_pure.mp success
      obtain rfl := pure_eq_pure.mp made
      trivial
  | zoom =>
      obtain rfl := pure_eq_pure.mp success
      trivial
  | get =>
      obtain ⟨o, _, success⟩ := withOne_eq_pure.mp success
      obtain ⟨n, _, rfl⟩ := get_eq_pure.mp success
      trivial
  | has =>
      rcases operator_has_eq_pure.mp success with ⟨key, _, success⟩ | ⟨key, object, _, success⟩
      · obtain ⟨k, _, rfl⟩ := has_eq_pure.mp success
        trivial
      · obtain ⟨k, o, _, _, rfl⟩ := hasIn_eq_pure.mp success
        trivial
  | var =>
      obtain ⟨o, _, success⟩ := withOne_eq_pure.mp success
      obtain ⟨name, bound, _, _, rfl⟩ := var_eq_pure.mp success
      trivial
  | letIn => exact letIn_formed (Arity.least_le counted) success
  | coalesce => exact coalesce_formed (Arity.least_le counted) success
  | error =>
      obtain ⟨o, _, success⟩ := withOne_eq_pure.mp success
      obtain ⟨message, _, rfl⟩ := error_eq_pure.mp success
      trivial
  | string => exact assert_formed (Arity.least_le counted) success
  | number => exact assert_formed (Arity.least_le counted) success
  | boolean => exact assert_formed (Arity.least_le counted) success
  | object => exact assert_formed (Arity.least_le counted) success
  | array => exact array_formed success
  | parseColor =>
      obtain ⟨o, _, success⟩ := withOne_eq_pure.mp success
      obtain ⟨i, _, rfl⟩ := parseColor_eq_pure.mp success
      trivial
  | not =>
      obtain ⟨o, _, success⟩ := withOne_eq_pure.mp success
      obtain ⟨i, _, rfl⟩ := not_eq_pure.mp success
      trivial
  | case => exact case_formed (Arity.least_le counted) success
  | select => exact select_formed (Arity.least_le counted) success
  | curve => exact curve_formed (Arity.least_le counted) success

end Reading

theorem Expr.read_formed {data : Json} {ctx : Context} {e : Expr}
    (success : Expr.read data ctx = pure e) : e.node.Formed e.type := by
  obtain ⟨read, _⟩ := Expr.read_eq_pure.mp success
  rcases Expr.readAny_eq_pure.mp read with ⟨op, args, rfl, counted, applied⟩ | ⟨_, rfl⟩
  · exact operator_formed counted applied
  · trivial

-- Every node of a parsed tree was read somewhere in the data, so what reading makes sure
-- of holds all over the tree.
theorem Expr.parse_formed {data : Json} {options : ParseOptions} {e : Expr}
    (parsed : Expr.parse data options = .ok e) : ∀ n ∈ e.nodes, n.node.Formed n.type := by
  intro n member
  obtain ⟨scope, _, _, _, _, read⟩ := e.nodes_readAt (Expr.parse_readAt parsed) n member
  exact Expr.read_formed read

theorem parse_formed_nested :
    let data : Json := .arr [.str "match", .arr [.str "get", .str "kind"],
      .arr [.str "path", .str "track"], .num (.int 1 (by decide)), .str "road",
      .arr [.str "curve", .arr [.str "exponential", .num (.float 1.5 (by decide))], .arr [.str "zoom"],
        .num (.int 0 (by decide)), .num (.int 1 (by decide)), .num (.int 10 (by decide)),
        .num (.int 5 (by decide))],
      .num (.int 2 (by decide))]
    let key : Expr := ⟨[.index 1, .index 1], .string, .literal (.str "kind")⟩
    let zoom : Expr := ⟨[.index 5, .index 2], .number, .zoom⟩
    let curve : Expr := ⟨[.index 5], .number, .curve (.exponential 1.5) zoom
      [⟨0, ⟨[.index 5, .index 4], .number, .literal (.num 1)⟩⟩,
        ⟨10, ⟨[.index 5, .index 6], .number, .literal (.num 5)⟩⟩]⟩
    let e : Expr := ⟨[], .number, .select ⟨[.index 1], .unknown, .get key⟩
      [⟨[.str "path", .str "track"], ⟨[.index 3], .number, .literal (.num 1)⟩⟩,
        ⟨[.str "road"], curve⟩]
      ⟨[.index 6], .number, .literal (.num 2)⟩⟩
    Expr.parse data ⟨none, none⟩ = .ok e ∧ e.node.Formed .number ∧
      curve ∈ e.nodes ∧ curve.node.Formed .number := by
  intro data key zoom curve e
  have parsed : Expr.parse data ⟨none, none⟩ = .ok e := rfl
  have below : curve ∈ e.nodes := .tail _ (.tail _ (.tail _ (.tail _ (.head _))))
  have formed := Expr.parse_formed parsed
  exact ⟨parsed, formed e (.head _), below, formed curve below⟩

end MapStyle
