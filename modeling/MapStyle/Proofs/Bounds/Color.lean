import MapStyle.Color.Css

-- Reading colors by position. A text is cut at byte offsets, which has no outcome past its
-- end or within a character, and arguments are taken by their numbers.

namespace MapStyle

namespace Text

def bytes : List Char → Nat
  | [] => 0
  | c :: cs => c.utf8Size + bytes cs

def isAscii (cs : List Char) : Bool :=
  cs.all fun c => c.val ≤ 127

def cut? : Nat → List Char → Option (List Char × List Char)
  | 0, cs => some ([], cs)
  | _ + 1, [] => none
  | n + 1, c :: cs =>
      if c.utf8Size ≤ n + 1 then do
        let (front, back) ← cut? (n + 1 - c.utf8Size) cs
        some (c :: front, back)
      else none

def slice? (cs : List Char) (first last : Nat) : Option (List Char) :=
  if last < first then none
  else do
    let (upTo, _) ← cut? last cs
    let (_, part) ← cut? first upTo
    some part

end Text

def found? {α β : Type} (a : Option α) (next : α → Option (Option β)) : Option (Option β) :=
  match a with
  | some x => next x
  | none => some none

namespace Color

namespace Positional

def channels (cs : List Char) (width : Nat) : List Nat → Option (Option (List Nat))
  | [] => some (some [])
  | i :: rest => do
      let field ← Text.slice? cs (i * width) (i * width + width)
      found? (Hex.channel? field) fun first => do
        let others ← channels cs width rest
        some (others.map fun others => first :: others)

def hex (cs : List Char) : Option (Option Color) :=
  if Text.isAscii cs then
    found? (Hex.layout? (Text.bytes cs)) fun layout => do
      let found ← channels cs layout.width (List.range layout.channels)
      some (match found with
        | some [red, green, blue] => some (ofBytes red green blue 255)
        | some [red, green, blue, alpha] => some (ofBytes red green blue alpha)
        | _ => none)
  else some none

def alpha (part : Option (List Char)) : Option Float :=
  match part with
  | none => some 1
  | some cs => (Decimal.read? cs).map Functional.clamp

def functional (first second third : List Char → Option Float)
    (make : Float → Float → Float → Float → Color) (inner : List Char) : Option (Option Color) :=
  let parts := Functional.arguments inner
  if parts.length ≠ 3 ∧ parts.length ≠ 4 then some none
  else do
    let one ← parts[0]?
    found? (first one) fun x => do
      let two ← parts[1]?
      found? (second two) fun y => do
        let three ← parts[2]?
        found? (third three) fun z =>
          found? (alpha parts[3]?) fun a => some (some (make x y z a))

def rgb : List Char → Option (Option Color) :=
  functional Functional.channel? Functional.channel? Functional.channel? Color.mk

def hsl : List Char → Option (Option Color) :=
  functional Decimal.read? Functional.percentage? Functional.percentage? fun h =>
    Functional.ofHue (Decimal.wrap h 360 / 360)

end Positional

open Functional in
def byPosition (text : String) : Option (Option Color) :=
  let cs := (Text.trim text.toList).map Char.toLower
  match Text.dropStart? ['#'] cs with
  | some digits => Positional.hex digits
  | none =>
      match (inner? "rgba" cs).or (inner? "rgb" cs) with
      | some inner => Positional.rgb inner
      | none =>
          match (inner? "hsla" cs).or (inner? "hsl" cs) with
          | some inner => Positional.hsl inner
          | none => some (ofName? (String.ofList cs))

end Color

theorem found?_some {α β : Type} (a : Option α) (next : α → Option β) :
    (found? a fun x => some (next x)) = some (a.bind next) := by
  cases a with
  | none => rfl
  | some x => rfl

namespace Text

variable {cs : List Char}

theorem isAscii_cons {c : Char} :
    isAscii (c :: cs) = true ↔ c.val ≤ 127 ∧ isAscii cs = true := by
  rw [isAscii,List.all_cons,Bool.and_eq_true,decide_eq_true_iff]
  rfl

theorem bytes_ascii (ascii : isAscii cs = true) : bytes cs = cs.length := by
  induction cs with
  | nil => rfl
  | cons c cs ih =>
      obtain ⟨first, others⟩ := isAscii_cons.mp ascii
      rw [bytes,Char.utf8Size_eq_one_iff.mpr first,ih others,List.length_cons,Nat.add_comm]

theorem cut?_ascii (ascii : isAscii cs = true) {n : Nat} (within : n ≤ cs.length) :
    cut? n cs = some (cs.take n, cs.drop n) := by
  induction cs generalizing n with
  | nil =>
      cases n with
      | zero => rfl
      | succ n => cases within
  | cons c cs ih =>
      cases n with
      | zero => rfl
      | succ n =>
          obtain ⟨first, others⟩ := isAscii_cons.mp ascii
          have rest := ih others (Nat.le_of_succ_le_succ within)
          rw [cut?,Char.utf8Size_eq_one_iff.mpr first,if_pos (Nat.le_add_left 1 n),
            Nat.add_sub_cancel,rest]
          rfl

theorem slice?_ascii (ascii : isAscii cs = true) {first width : Nat}
    (within : first + width ≤ cs.length) :
    slice? cs first (first + width) = some ((cs.drop first).take width) := by
  have front : isAscii (cs.take (first + width)) = true := by
    unfold isAscii at ascii ⊢
    rw [List.all_eq_true] at ascii ⊢
    exact fun c member => ascii c (List.mem_of_mem_take member)
  have before : first ≤ (cs.take (first + width)).length := by
    rw [List.length_take]
    omega
  unfold slice?
  rw [if_neg (by omega),cut?_ascii ascii within]
  simp only [Option.bind_eq_bind,Option.bind_some]
  rw [cut?_ascii front before,List.drop_take,Nat.add_sub_cancel_left]
  rfl

example : slice? ['é'] 0 1 = none := by decide

end Text

namespace Color

namespace Hex

theorem layout?_eq_some {count : Nat} {layout : Layout} (found : layout? count = some layout) :
    count = layout.channels * layout.width ∧ 0 < layout.width := by
  unfold layout? at found
  split at found
  · cases found
    exact ⟨rfl, Nat.one_pos⟩
  · cases found
    exact ⟨rfl, Nat.one_pos⟩
  · cases found
    exact ⟨rfl, Nat.two_pos⟩
  · cases found
    exact ⟨rfl, Nat.two_pos⟩
  · cases found

theorem digit?_ascii {c : Char} {d : Nat} (found : digit? c = some d) : c.val ≤ 127 := by
  unfold digit? at found
  split at found
  · rename_i decimal
    exact UInt32.le_trans decimal.2 (by decide)
  · split at found
    · rename_i lower
      exact UInt32.le_trans lower.2 (by decide)
    · split at found
      · rename_i upper
        exact UInt32.le_trans upper.2 (by decide)
      · cases found

theorem channel?_ascii {field : List Char} {n : Nat} (found : channel? field = some n) :
    ∀ c ∈ field, c.val ≤ 127 := by
  unfold channel? at found
  split at found
  · obtain ⟨d, digit, _⟩ := Option.map_eq_some_iff.mp found
    simpa using digit?_ascii digit
  · simpa using digit?_ascii found
  · obtain ⟨high, first, rest⟩ := Option.bind_eq_some_iff.mp found
    obtain ⟨low, second, _⟩ := Option.map_eq_some_iff.mp rest
    simpa using And.intro (digit?_ascii first) (digit?_ascii second)
  · cases found

theorem field_covers {layout : Layout} {cs : List Char}
    (count : cs.length = layout.channels * layout.width) (wide : 0 < layout.width) :
    ∀ c ∈ cs, ∃ i ∈ List.range layout.channels, c ∈ layout.field cs i := by
  intro c member
  obtain ⟨k, there⟩ := List.getElem?_of_mem member
  have inside := (List.getElem?_eq_some_iff.mp there).1
  refine ⟨k / layout.width, ?_, ?_⟩
  · rw [List.mem_range]
    exact Nat.div_lt_of_lt_mul (by rwa [Nat.mul_comm,← count])
  · have place : (layout.field cs (k / layout.width))[k % layout.width]? = some c := by
      rw [Layout.field,List.getElem?_take_of_lt (Nat.mod_lt k wide),List.getElem?_drop,
        Nat.div_add_mod']
      exact there
    exact List.mem_of_getElem? place

theorem mapM_none {α β : Type} {f : α → Option β} {xs : List α} {x : α} (member : x ∈ xs)
    (fails : f x = none) : xs.mapM f = none := by
  induction xs with
  | nil => cases member
  | cons y ys ih =>
      rw [List.mapM_cons]
      rcases List.mem_cons.mp member with rfl | later
      · rw [fails]
        rfl
      · rw [ih later]
        cases f y with
        | none => rfl
        | some first => rfl

theorem read?_other {cs : List Char} (other : Text.isAscii cs = false) : read? cs = none := by
  unfold read?
  cases found : layout? cs.length with
  | none => rfl
  | some layout =>
      obtain ⟨count, wide⟩ := layout?_eq_some found
      obtain ⟨c, member, wider⟩ := List.all_eq_false.mp other
      obtain ⟨i, channel, belongs⟩ := field_covers count wide c member
      have unread : channel? (layout.field cs i) = none := by
        cases read : channel? (layout.field cs i) with
        | none => rfl
        | some n => exact absurd (decide_eq_true (channel?_ascii read c belongs)) wider
      rw [Option.bind_some,mapM_none channel unread]

end Hex

namespace Positional

theorem channels_eq {cs : List Char} {layout : Hex.Layout} (ascii : Text.isAscii cs = true)
    {positions : List Nat}
    (within : ∀ i ∈ positions, i * layout.width + layout.width ≤ cs.length) :
    channels cs layout.width positions =
      some (positions.mapM fun i => Hex.channel? (layout.field cs i)) := by
  induction positions with
  | nil => rfl
  | cons i rest ih =>
      have others := ih fun j member => within j (List.mem_cons_of_mem _ member)
      rw [channels,Text.slice?_ascii ascii (within i List.mem_cons_self),List.mapM_cons,others]
      simp only [Option.bind_eq_bind,Option.bind_some]
      rw [found?_some]
      simp only [Hex.Layout.field,Option.pure_def,Option.map_eq_bind]
      rfl

theorem hex_eq (cs : List Char) : hex cs = some (Hex.read? cs) := by
  unfold hex
  cases ascii : Text.isAscii cs with
  | false => rw [Hex.read?_other ascii]; rfl
  | true =>
      unfold Hex.read?
      rw [if_pos rfl,Text.bytes_ascii ascii]
      cases found : Hex.layout? cs.length with
      | none => rfl
      | some layout =>
          obtain ⟨count, _⟩ := Hex.layout?_eq_some found
          have within : ∀ i ∈ List.range layout.channels,
              i * layout.width + layout.width ≤ cs.length := by
            intro i member
            rw [count,← Nat.succ_mul]
            exact Nat.mul_le_mul_right _ (List.mem_range.mp member)
          simp only [found?,channels_eq ascii within]
          rfl

theorem alpha_eq {rest : List (List Char)} (few : rest.length ≤ 1) :
    Functional.alpha? rest = alpha rest[0]? := by
  match rest, few with
  | [], _ => rfl
  | [cs], _ => rfl

theorem alpha_many {rest : List (List Char)} (many : 1 < rest.length) :
    Functional.alpha? rest = none := by
  match rest, many with
  | _ :: _ :: _, _ => rfl

theorem functional_eq {first second third : List Char → Option Float}
    {make : Float → Float → Float → Float → Color} {inner : List Char} :
    functional first second third make inner =
      some (match Functional.arguments inner with
        | one :: two :: three :: rest => do
            let x ← first one
            let y ← second two
            let z ← third three
            let a ← Functional.alpha? rest
            some (make x y z a)
        | _ => none) := by
  unfold functional
  generalize Functional.arguments inner = parts
  match parts with
  | [] | [_] | [_, _] => rfl
  | one :: two :: three :: rest =>
      dsimp only
      by_cases few : rest.length ≤ 1
      · rw [if_neg (by simp only [List.length_cons]; omega),alpha_eq few]
        simp only [Option.bind_eq_bind,List.getElem?_cons_zero,List.getElem?_cons_succ,
          Option.bind_some,found?_some]
      · rw [if_pos (by simp only [List.length_cons]; omega),alpha_many (by omega)]
        simp only [Option.bind_eq_bind,Option.bind_none,Option.bind_fun_none]

theorem rgb_eq (inner : List Char) : rgb inner = some (Functional.rgb? inner) :=
  functional_eq

theorem hsl_eq (inner : List Char) : hsl inner = some (Functional.hsl? inner) :=
  functional_eq

end Positional

theorem dropStart?_none {c : Char} {cs : List Char} (other : ∀ rest, cs ≠ c :: rest) :
    Text.dropStart? [c] cs = none := by
  cases cs with
  | nil => rfl
  | cons d rest =>
      have apart : (c == d) = false := by
        refine beq_false_of_ne ?_
        rintro rfl
        exact other rest rfl
      calc Text.dropStart? [c] (d :: rest)
          = if c == d then some rest else none := rfl
        _ = none := by rw [apart]; rfl

theorem byPosition_eq (text : String) : byPosition text = some (ofCss? text) := by
  unfold byPosition
  dsimp only
  fun_cases ofCss? text with
  | case1 cs digits hash =>
      simp only [cs] at hash
      rw [hash]
      exact Positional.hex_eq digits
  | case2 cs inner taken other =>
      simp only [cs] at taken
      rw [dropStart?_none other]
      simp only [taken]
      exact Positional.rgb_eq inner
  | case3 cs untaken inner taken other =>
      simp only [cs] at untaken taken
      rw [dropStart?_none other]
      simp only [untaken,taken]
      exact Positional.hsl_eq inner
  | case4 cs untaken untaken' other =>
      simp only [cs] at untaken untaken'
      rw [dropStart?_none other]
      simp only [untaken,untaken',cs]

end Color

end MapStyle
