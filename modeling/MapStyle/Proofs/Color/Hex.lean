import Mathlib
import MapStyle.Proofs.Bounds.Color

-- Colors in hexadecimal form: three, four, six or eight digits and nothing else, but for
-- a plus sign that takes the place of a pair's first digit.

namespace MapStyle.Color

def lowered (text : String) : List Char :=
  (Text.trim text.toList).map Char.toLower

namespace Hex

def digits : List Char :=
  ['0', '1', '2', '3', '4', '5', '6', '7', '8', '9', 'a', 'b', 'c', 'd', 'e', 'f']

def value (c : Char) : Nat :=
  digits.idxOf c

def byte (high low : Char) : Nat :=
  16 * value high + value low

-- The colors in their digits. One digit for a channel stands for itself twice, and a
-- color without an alpha channel is opaque.
inductive Spells : List Char → Color → Prop
  | three (r g b : Char) : (∀ c ∈ [r, g, b], c ∈ digits) →
      Spells [r, g, b] (ofBytes (byte r r) (byte g g) (byte b b) 255)
  | four (r g b a : Char) : (∀ c ∈ [r, g, b, a], c ∈ digits) →
      Spells [r, g, b, a] (ofBytes (byte r r) (byte g g) (byte b b) (byte a a))
  | six (r r' g g' b b' : Char) : (∀ c ∈ [r, r', g, g', b, b'], c ∈ digits) →
      Spells [r, r', g, g', b, b'] (ofBytes (byte r r') (byte g g') (byte b b') 255)
  | eight (r r' g g' b b' a a' : Char) : (∀ c ∈ [r, r', g, g', b, b', a, a'], c ∈ digits) →
      Spells [r, r', g, g', b, b', a, a']
        (ofBytes (byte r r') (byte g g') (byte b b') (byte a a'))

theorem digit?_digits : ∀ c ∈ digits, digit? c = some (value c) := by
  intro c member
  fin_cases member <;> rfl

theorem eq_ofNat_of_range {first last c : Char} (fromFirst : first ≤ c) (upTo : c ≤ last) :
    ∃ k ≤ last.toNat - first.toNat, c = Char.ofNat (first.toNat + k) := by
  have low : first.toNat ≤ c.toNat := fromFirst
  have high : c.toNat ≤ last.toNat := upTo
  refine ⟨c.toNat - first.toNat, by omega, ?_⟩
  rw [Nat.add_sub_cancel' low,Char.ofNat_toNat]

theorem digit?_eq_some {c : Char} {d : Nat} (lower : c.isUpper = false) :
    digit? c = some d ↔ c ∈ digits ∧ value c = d := by
  constructor
  · intro found
    suffices known : c ∈ digits by
      rw [digit?_digits c known] at found
      exact ⟨known, Option.some.inj found⟩
    unfold digit? at found
    split at found
    · rename_i decimal
      obtain ⟨k, small, rfl⟩ := eq_ofNat_of_range decimal.1 decimal.2
      have each : ∀ k ≤ 9, Char.ofNat ('0'.toNat + k) ∈ digits := by decide
      exact each k small
    · split at found
      · rename_i letter
        obtain ⟨k, small, rfl⟩ := eq_ofNat_of_range letter.1 letter.2
        have each : ∀ k ≤ 5, Char.ofNat ('a'.toNat + k) ∈ digits := by decide
        exact each k small
      · split at found
        · rename_i letter
          obtain ⟨k, small, rfl⟩ := eq_ofNat_of_range letter.1 letter.2
          have each : ∀ k ≤ 5, (Char.ofNat ('A'.toNat + k)).isUpper = true := by decide
          rw [each k small] at lower
          cases lower
        · cases found
  · intro given
    obtain ⟨known, rfl⟩ := given
    exact digit?_digits c known

variable {c c' : Char} {n : Nat}

theorem channel?_one (lower : c.isUpper = false) :
    channel? [c] = some n ↔ c ∈ digits ∧ byte c c = n := by
  show (digit? c).map (fun d => 16 * d + d) = some n ↔ _
  rw [Option.map_eq_some_iff]
  simp only [digit?_eq_some lower]
  constructor
  · intro given
    obtain ⟨_, ⟨known, rfl⟩, rfl⟩ := given
    exact ⟨known, rfl⟩
  · intro given
    exact ⟨_, ⟨given.1, rfl⟩, given.2⟩

-- A pair is read as a numeral, which may begin with a sign.
theorem channel?_two (lower : c.isUpper = false) (lower' : c'.isUpper = false)
    (unsigned : c ≠ '+') :
    channel? [c, c'] = some n ↔ c ∈ digits ∧ c' ∈ digits ∧ byte c c' = n := by
  have read : channel? [c, c'] =
      (digit? c).bind fun high => (digit? c').map fun low => 16 * high + low := by
    unfold channel?
    split
    · rename_i one
      cases one
    · rename_i signed
      cases signed
      exact absurd rfl unsigned
    · rename_i two
      cases two
      rfl
    · rename_i unlike
      exact absurd rfl (unlike c c')
  rw [read,Option.bind_eq_some_iff]
  simp only [Option.map_eq_some_iff,digit?_eq_some lower,digit?_eq_some lower']
  constructor
  · intro given
    obtain ⟨_, ⟨known, rfl⟩, _, ⟨known', rfl⟩, rfl⟩ := given
    exact ⟨known, known', rfl⟩
  · intro given
    obtain ⟨known, known', rfl⟩ := given
    exact ⟨_, ⟨known, rfl⟩, _, ⟨known', rfl⟩, rfl⟩

theorem read?_length {cs : List Char} {color : Color} (read : read? cs = some color) :
    cs.length ∈ [3, 4, 6, 8] := by
  obtain ⟨layout, found, _⟩ := Option.bind_eq_some_iff.mp read
  unfold layout? at found
  split at found
  case h_5 => cases found
  all_goals rename_i count; rw [count]; decide

theorem mapM_eq_some {α β : Type} {f : α → Option β} {xs : List α} {ys : List β} :
    xs.mapM f = some ys ↔ List.Forall₂ (fun x y => f x = some y) xs ys := by
  induction xs generalizing ys with
  | nil =>
      rw [List.mapM_nil,List.forall₂_nil_left_iff,eq_comm (a := ys)]
      exact Option.some_inj
  | cons x rest ih =>
      rw [List.mapM_cons,List.forall₂_cons_left_iff]
      simp only [← ih,Option.bind_eq_bind,Option.bind_eq_some_iff,Option.pure_def,Option.some.injEq]
      constructor
      · rintro ⟨y, first, others, after, rfl⟩
        exact ⟨y, others, first, after, rfl⟩
      · rintro ⟨y, others, first, after, rfl⟩
        exact ⟨y, first, others, after, rfl⟩

def ofChannels? : List Nat → Option Color
  | [red, green, blue] => some (ofBytes red green blue 255)
  | [red, green, blue, alpha] => some (ofBytes red green blue alpha)
  | _ => none

def Layout.fields (layout : Layout) (cs : List Char) : List (List Char) :=
  (List.range layout.channels).map (layout.field cs)

theorem read?_eq (cs : List Char) :
    read? cs = (layout? cs.length).bind fun layout =>
      ((layout.fields cs).mapM channel?).bind ofChannels? := by
  unfold read?
  refine congrArg _ (funext fun layout => ?_)
  have fields : (layout.fields cs).mapM channel? =
      (List.range layout.channels).mapM fun i => channel? (layout.field cs i) := List.mapM_map
  rw [fields]
  cases (List.range layout.channels).mapM fun i => channel? (layout.field cs i) with
  | none => rfl
  | some channels => match channels with
    | [] | [_] | [_, _] | [_, _, _] | [_, _, _, _] | _ :: _ :: _ :: _ :: _ :: _ => rfl

theorem read?_of_fields {α : Type} {xs : List α} {field : α → List Char} {known : α → Prop}
    {channel : α → Nat} {cs : List Char} {layout : Layout} {color : Color}
    (found : layout? cs.length = some layout) (fields : layout.fields cs = xs.map field)
    (each : ∀ x ∈ xs, ∀ n, channel? (field x) = some n ↔ known x ∧ channel x = n) :
    read? cs = some color ↔
      (∀ x ∈ xs, known x) ∧ ofChannels? (xs.map channel) = some color := by
  have channels : ∀ ns, List.Forall₂ (fun field n => channel? field = some n) (xs.map field) ns ↔
      (∀ x ∈ xs, known x) ∧ xs.map channel = ns := by
    clear fields
    induction xs with
    | nil => simp [eq_comm]
    | cons x rest ih =>
        obtain ⟨here, others⟩ := List.forall_mem_cons.mp each
        intro ns
        simp only [List.map_cons,List.forall₂_cons_left_iff,List.forall_mem_cons,here,ih others]
        constructor
        · rintro ⟨_, _, ⟨first, rfl⟩, ⟨after, rfl⟩, rfl⟩
          exact ⟨⟨first, after⟩, rfl⟩
        · rintro ⟨⟨first, after⟩, rfl⟩
          exact ⟨_, _, ⟨first, rfl⟩, ⟨after, rfl⟩, rfl⟩
  rw [read?_eq,found,Option.bind_some,Option.bind_eq_some_iff,fields]
  simp only [mapM_eq_some,channels]
  constructor
  · rintro ⟨_, ⟨all, rfl⟩, made⟩
    exact ⟨all, made⟩
  · rintro ⟨all, made⟩
    exact ⟨_, ⟨all, rfl⟩, made⟩

theorem read?_ones {cs : List Char} {layout : Layout} {color : Color}
    (found : layout? cs.length = some layout) (fields : layout.fields cs = cs.map fun c => [c])
    (lower : ∀ c ∈ cs, c.isUpper = false) :
    read? cs = some color ↔
      (∀ c ∈ cs, c ∈ digits) ∧ ofChannels? (cs.map fun c => byte c c) = some color :=
  read?_of_fields found fields fun c member _ => channel?_one (lower c member)

def joined (pairs : List (Char × Char)) : List Char :=
  pairs.flatMap fun p => [p.1, p.2]

-- Only in pairs does a sign make a difference, and only in first place.
def Unsigned (cs : List Char) : Prop :=
  cs.length ∈ [6, 8] → ∀ i, cs[2 * i]? ≠ some '+'

theorem unsigned_pairs {pairs : List (Char × Char)}
    (unsigned : ∀ i, (joined pairs)[2 * i]? ≠ some '+') : ∀ p ∈ pairs, p.1 ≠ '+' := by
  induction pairs with
  | nil => exact nofun
  | cons p rest ih =>
      refine List.forall_mem_cons.mpr ⟨fun signed => unsigned 0 (congrArg some signed), ih ?_⟩
      intro i signed
      refine unsigned (i + 1) ?_
      rw [Nat.mul_add]
      exact signed

theorem read?_twos (pairs : List (Char × Char)) {layout : Layout} {color : Color}
    (found : layout? (joined pairs).length = some layout)
    (fields : layout.fields (joined pairs) = pairs.map fun p => [p.1, p.2])
    (several : (joined pairs).length ∈ [6, 8]) (lower : ∀ c ∈ joined pairs, c.isUpper = false)
    (unsigned : Unsigned (joined pairs)) :
    read? (joined pairs) = some color ↔
      (∀ c ∈ joined pairs, c ∈ digits) ∧
        ofChannels? (pairs.map fun p => byte p.1 p.2) = some color := by
  have each : ∀ {P : Char → Prop}, (∀ c ∈ joined pairs, P c) ↔ ∀ p ∈ pairs, P p.1 ∧ P p.2 := by
    intro P
    simp only [joined,List.forall_mem_flatMap,List.forall_mem_cons,List.not_mem_nil,false_implies,
      implies_true,and_true]
  rw [each] at lower
  rw [each,read?_of_fields found fields fun p member _ =>
    (channel?_two (lower p member).1 (lower p member).2
      (unsigned_pairs (unsigned several) p member)).trans and_assoc.symm]

theorem read?_spells {cs : List Char} {color : Color} (lower : ∀ c ∈ cs, c.isUpper = false)
    (unsigned : Unsigned cs) : read? cs = some color ↔ Spells cs color := by
  constructor
  · intro read
    have count : cs.length ∈ [3, 4, 6, 8] := read?_length read
    match cs, count with
    | [r, g, b], _ =>
        obtain ⟨known, made⟩ := (read?_ones rfl rfl lower).mp read
        cases made
        exact .three r g b known
    | [r, g, b, a], _ =>
        obtain ⟨known, made⟩ := (read?_ones rfl rfl lower).mp read
        cases made
        exact .four r g b a known
    | [r, r', g, g', b, b'], _ =>
        obtain ⟨known, made⟩ := (read?_twos [(r, r'), (g, g'), (b, b')] rfl rfl
          (by simp [joined]) lower unsigned).mp read
        cases made
        exact .six r r' g g' b b' known
    | [r, r', g, g', b, b', a, a'], _ =>
        obtain ⟨known, made⟩ := (read?_twos [(r, r'), (g, g'), (b, b'), (a, a')] rfl rfl
          (by simp [joined]) lower unsigned).mp read
        cases made
        exact .eight r r' g g' b b' a a' known
  · intro spells
    cases spells with
    | three r g b known => exact (read?_ones rfl rfl lower).mpr ⟨known, rfl⟩
    | four r g b a known => exact (read?_ones rfl rfl lower).mpr ⟨known, rfl⟩
    | six r r' g g' b b' known =>
        exact (read?_twos [(r, r'), (g, g'), (b, b')] rfl rfl
          (by simp [joined]) lower unsigned).mpr ⟨known, rfl⟩
    | eight r r' g g' b b' a a' known =>
        exact (read?_twos [(r, r'), (g, g'), (b, b'), (a, a')] rfl rfl
          (by simp [joined]) lower unsigned).mpr ⟨known, rfl⟩

theorem spelled_iff {cs : List Char} :
    (∃ color, Spells cs color) ↔ cs.length ∈ [3, 4, 6, 8] ∧ ∀ c ∈ cs, c ∈ digits := by
  constructor
  · intro given
    obtain ⟨color, spells⟩ := given
    cases spells <;> exact ⟨by simp, by assumption⟩
  · intro given
    obtain ⟨count, known⟩ := given
    match cs, count with
    | [r, g, b], _ => exact ⟨_, .three r g b known⟩
    | [r, g, b, a], _ => exact ⟨_, .four r g b a known⟩
    | [r, r', g, g', b, b'], _ => exact ⟨_, .six r r' g g' b b' known⟩
    | [r, r', g, g', b, b', a, a'], _ => exact ⟨_, .eight r r' g g' b b' a a' known⟩

end Hex

theorem lowered_isUpper (text : String) : ∀ c ∈ lowered text, c.isUpper = false := by
  intro c member
  obtain ⟨given, _, rfl⟩ := List.mem_map.mp member
  exact Char.isUpper_toLower_eq_false given

theorem ofCss?_hash {text : String} {rest : List Char} (hash : lowered text = '#' :: rest) :
    ofCss? text = Hex.read? rest := by
  fun_cases ofCss? text with
  | case1 cs digits starts =>
      obtain rfl : digits = rest := List.tail_eq_of_cons_eq (starts.symm.trans hash)
      rfl
  | case2 cs inner taken other => exact absurd hash (other rest)
  | case3 cs untaken inner taken other => exact absurd hash (other rest)
  | case4 cs untaken untaken' other => exact absurd hash (other rest)

theorem ofCss?_digits {text : String} {rest : List Char} (hash : lowered text = '#' :: rest)
    (unsigned : Hex.Unsigned rest) :
    ((ofCss? text).isSome = true ↔ rest.length ∈ [3, 4, 6, 8] ∧ ∀ c ∈ rest, c ∈ Hex.digits) ∧
      ∀ color, ofCss? text = some color ↔ Hex.Spells rest color := by
  have lower : ∀ c ∈ rest, c.isUpper = false := by
    intro c member
    refine lowered_isUpper text c ?_
    rw [hash]
    exact List.mem_cons_of_mem _ member
  have spells : ∀ color, ofCss? text = some color ↔ Hex.Spells rest color := by
    intro color
    rw [ofCss?_hash hash]
    exact Hex.read?_spells lower unsigned
  refine ⟨?_, spells⟩
  rw [Option.isSome_iff_exists,← Hex.spelled_iff]
  exact exists_congr spells

theorem ofCss?_digits_capital :
    let rest := ['f', 'f', 'a', '0', '8', 'b']
    lowered " #FFA08B\n" = '#' :: rest ∧ Hex.Unsigned rest ∧
      ofCss? " #FFA08B\n" = some (ofBytes 255 160 139 255) := by
  intro rest
  have hash : lowered " #FFA08B\n" = '#' :: rest := rfl
  have unsigned : Hex.Unsigned rest := by
    intro _ i signed
    have member := List.mem_of_getElem? signed
    simp [rest] at member
  refine ⟨hash, unsigned, ((ofCss?_digits hash unsigned).2 _).mpr ?_⟩
  exact .six 'f' 'f' 'a' '0' '8' 'b' (by simp [Hex.digits])

-- A pair with a sign is accepted as well.
theorem ofCss?_signed :
    let rest := ['+', 'f', '+', 'f', '+', 'f']
    lowered "#+f+f+f" = '#' :: rest ∧ ofCss? "#+f+f+f" = some (ofBytes 15 15 15 255) ∧
      ¬ ∀ c ∈ rest, c ∈ Hex.digits := by
  refine ⟨rfl, rfl, ?_⟩
  intro known
  exact absurd (known '+' List.mem_cons_self) (by simp [Hex.digits])

end MapStyle.Color
