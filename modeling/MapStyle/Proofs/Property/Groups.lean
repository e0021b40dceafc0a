import MapStyle.Proofs.Json.Equality
import MapStyle.Property.Conversion

-- Stops grouped by their zoom: there is one group for each zoom, in the order in which
-- the zooms first occur, and it holds the stops of that zoom in their order.

namespace MapStyle

section Distinct

variable {α : Type}

theorem eraseDupsBy_loop_concat (r : α → α → Bool) (as bs : List α) (z : α) :
    List.eraseDupsBy.loop r (as ++ [z]) bs =
      if (List.eraseDupsBy.loop r as bs).any (r z) then List.eraseDupsBy.loop r as bs
      else List.eraseDupsBy.loop r as bs ++ [z] := by
  induction as generalizing bs with
  | nil =>
      simp only [List.nil_append,List.eraseDupsBy.loop,List.any_reverse]
      cases bs.any (r z) with
      | true => rfl
      | false => exact List.reverse_cons
  | cons a as ih =>
      have step : ∀ items, List.eraseDupsBy.loop r (a :: items) bs =
          List.eraseDupsBy.loop r items (if bs.any (r a) then bs else a :: bs) := by
        intro items
        rw [List.eraseDupsBy.loop]
        cases bs.any (r a) <;> rfl
      rw [List.cons_append,step,step,ih]

variable [BEq α]

theorem eraseDups_concat (as : List α) (z : α) :
    (as ++ [z]).eraseDups =
      if as.eraseDups.any (z == ·) then as.eraseDups else as.eraseDups ++ [z] :=
  eraseDupsBy_loop_concat _ as [] z

theorem eraseDups_head? (as : List α) : as.eraseDups.head? = as.head? := by
  cases as with
  | nil => rfl
  | cons a as => rw [List.eraseDups_cons,List.head?_cons,List.head?_cons]

theorem mem_of_mem_eraseDups {as : List α} {a : α} (member : a ∈ as.eraseDups) : a ∈ as := by
  induction as using List.reverseRecOn with
  | nil => cases member
  | append_singleton as z ih =>
      rw [eraseDups_concat] at member
      split at member
      · exact List.mem_append_left _ (ih member)
      · rcases List.mem_append.mp member with before | last
        · exact List.mem_append_left _ (ih before)
        · exact List.mem_append_right _ last

variable [EquivBEq α]

theorem eraseDups_covers {as : List α} {a : α} (member : a ∈ as) :
    as.eraseDups.any (a == ·) = true := by
  induction as using List.reverseRecOn with
  | nil => cases member
  | append_singleton as z ih =>
      rw [eraseDups_concat]
      cases known : as.eraseDups.any (z == ·) with
      | true =>
          rw [if_pos rfl]
          rcases List.mem_append.mp member with before | last
          · exact ih before
          · rw [List.mem_singleton.mp last]
            exact known
      | false =>
          rw [if_neg Bool.false_ne_true,List.any_append,Bool.or_eq_true]
          rcases List.mem_append.mp member with before | last
          · exact .inl (ih before)
          · rw [List.mem_singleton.mp last]
            exact .inr (by simp)

theorem eraseDups_distinct (as : List α) :
    as.eraseDups.Pairwise fun a b => (a == b) = false := by
  induction as using List.reverseRecOn with
  | nil => exact .nil
  | append_singleton as z ih =>
      rw [eraseDups_concat]
      cases known : as.eraseDups.any (z == ·) with
      | true => exact ih
      | false =>
          rw [if_neg Bool.false_ne_true]
          refine List.pairwise_append.mpr ⟨ih, List.pairwise_singleton _ _, ?_⟩
          intro a before b last
          rw [List.mem_singleton.mp last,BEq.comm]
          exact Bool.eq_false_iff.mpr (List.any_eq_false.mp known a before)

theorem flatMap_key {keys : List α} {k : α} {β : Type} (b : β)
    (distinct : keys.Pairwise fun x y => (x == y) = false) (known : ∃ x ∈ keys, (x == k) = true) :
    (keys.flatMap fun x => if x == k then [b] else []) = [b] := by
  induction keys with
  | nil =>
      obtain ⟨x, member, _⟩ := known
      cases member
  | cons x rest ih =>
      obtain ⟨first, others⟩ := List.pairwise_cons.mp distinct
      rw [List.flatMap_cons]
      cases here : x == k with
      | true =>
          have others : ∀ y ∈ rest, (if y == k then [b] else []) = [] := by
            intro y member
            refine if_neg fun same => ?_
            have equal : (x == y) = true := BEq.trans here (BEq.symm same)
            rw [first y member] at equal
            cases equal
          rw [if_pos rfl,List.flatMap_eq_nil_iff.mpr others,List.append_nil]
      | false =>
          rw [if_neg Bool.false_ne_true,List.nil_append]
          refine ih others ?_
          obtain ⟨y, member, same⟩ := known
          rcases List.mem_cons.mp member with rfl | belongs
          · rw [here] at same
            cases same
          · exact ⟨y, belongs, same⟩

theorem flatMap_filter_perm {β : Type} {keys : List α} {key : β → α} {bs : List β}
    (distinct : keys.Pairwise fun x y => (x == y) = false)
    (covers : ∀ b ∈ bs, keys.any (key b == ·) = true) :
    (keys.flatMap fun k => bs.filter fun b => k == key b).Perm bs := by
  induction bs with
  | nil => simp
  | cons b rest ih =>
      obtain ⟨here, others⟩ := List.forall_mem_cons.mp covers
      obtain ⟨k, member, same⟩ := List.any_eq_true.mp here
      have first := flatMap_key b distinct ⟨k, member, BEq.symm same⟩
      have split : (fun k => (b :: rest).filter fun c => k == key c) =
          fun k => (if k == key b then [b] else []) ++ rest.filter fun c => k == key c := by
        funext k
        rw [List.filter_cons]
        split <;> rfl
      rw [split]
      refine (List.flatMap_append_perm keys _ _).symm.trans ?_
      rw [first]
      exact (ih others).cons b

end Distinct

namespace Conversion

def zoomOf (stop : Json × Json) : Json :=
  part "zoom" stop.1

def valueStop (stop : Json × Json) : Json × Json :=
  (part "value" stop.1, stop.2)

def groupOf (stops : List (Json × Json)) (zoom : Json) : ZoomGroup :=
  ⟨zoom, (stops.filter fun s => zoom == zoomOf s).map valueStop⟩

def zooms (stops : List (Json × Json)) : List Json :=
  (stops.map zoomOf).eraseDups

theorem addStop_new {zoom : Json} {stop : Json × Json} {gs : List ZoomGroup}
    (new : ∀ g ∈ gs, (g.zoom == zoom) = false) :
    addStop zoom stop gs = gs ++ [⟨zoom, [stop]⟩] := by
  induction gs with
  | nil => rfl
  | cons g rest ih =>
      rw [addStop,new g List.mem_cons_self,if_neg Bool.false_ne_true,
        ih fun h member => new h (List.mem_cons_of_mem _ member)]
      rfl

-- As no two groups are of one zoom, the first one found is the only one to change.
theorem addStop_known {zoom : Json} {stop : Json × Json} {gs : List ZoomGroup}
    (distinct : gs.Pairwise fun g h => (g.zoom == h.zoom) = false)
    (known : ∃ g ∈ gs, (g.zoom == zoom) = true) :
    addStop zoom stop gs =
      gs.map fun g => if g.zoom == zoom then ⟨g.zoom, g.stops ++ [stop]⟩ else g := by
  induction gs with
  | nil =>
      obtain ⟨g, member, _⟩ := known
      cases member
  | cons g rest ih =>
      obtain ⟨first, others⟩ := List.pairwise_cons.mp distinct
      rw [addStop,List.map_cons]
      cases here : g.zoom == zoom with
      | true =>
          rw [if_pos rfl,if_pos rfl]
          have kept : ∀ h ∈ rest,
              h = if h.zoom == zoom then ⟨h.zoom, h.stops ++ [stop]⟩ else h := by
            intro h member
            have other : ¬ (h.zoom == zoom) = true := by
              intro same
              have equal : (g.zoom == h.zoom) = true := BEq.trans here (BEq.symm same)
              rw [first h member] at equal
              cases equal
            rw [if_neg other]
          rw [← List.map_congr_left kept,List.map_id']
      | false =>
          rw [if_neg Bool.false_ne_true,if_neg Bool.false_ne_true,ih others]
          obtain ⟨h, member, same⟩ := known
          rcases List.mem_cons.mp member with rfl | belongs
          · rw [here] at same
            cases same
          · exact ⟨h, belongs, same⟩

theorem groups_concat (stops : List (Json × Json)) (s : Json × Json) :
    groups (stops ++ [s]) = addStop (zoomOf s) (valueStop s) (groups stops) := by
  rw [groups,List.foldl_append]
  rfl

theorem groupOf_concat (stops : List (Json × Json)) (s : Json × Json) (zoom : Json) :
    groupOf (stops ++ [s]) zoom =
      if zoom == zoomOf s then ⟨zoom, (groupOf stops zoom).stops ++ [valueStop s]⟩
      else groupOf stops zoom := by
  unfold groupOf
  rw [List.filter_append,List.map_append]
  cases same : zoom == zoomOf s with
  | true => simp only [List.filter_cons,same,if_true,List.filter_nil,List.map_cons,List.map_nil]
  | false =>
      simp only [List.filter_cons,same,Bool.false_eq_true,if_false,List.filter_nil,List.map_nil,
        List.append_nil]

theorem groups_eq (stops : List (Json × Json)) : groups stops = (zooms stops).map (groupOf stops) := by
  induction stops using List.reverseRecOn with
  | nil => rfl
  | append_singleton stops s ih =>
      have distinct := eraseDups_distinct (stops.map zoomOf)
      rw [groups_concat,ih,zooms,zooms,List.map_append,List.map_singleton,eraseDups_concat]
      cases known : (stops.map zoomOf).eraseDups.any (zoomOf s == ·) with
      | true =>
          obtain ⟨z, member, same⟩ := List.any_eq_true.mp known
          rw [if_pos rfl,addStop_known (List.pairwise_map.mpr distinct)
            ⟨_, List.mem_map_of_mem member, BEq.symm same⟩,List.map_map]
          exact List.map_congr_left fun z _ => (groupOf_concat stops s z).symm
      | false =>
          have new : ∀ z ∈ (stops.map zoomOf).eraseDups, (z == zoomOf s) = false := by
            intro z member
            rw [BEq.comm]
            exact Bool.eq_false_iff.mpr (List.any_eq_false.mp known z member)
          have fresh : stops.filter (fun t => zoomOf s == zoomOf t) = [] := by
            rw [List.filter_eq_nil_iff]
            intro t member same
            obtain ⟨z, found, covers⟩ := List.any_eq_true.mp
              (eraseDups_covers (List.mem_map_of_mem (f := zoomOf) member))
            have equal : (z == zoomOf s) = true := BEq.symm (BEq.trans same covers)
            rw [new z found] at equal
            cases equal
          rw [if_neg Bool.false_ne_true,addStop_new,List.map_append,List.map_singleton]
          · congr 1
            · refine List.map_congr_left fun z member => ?_
              rw [groupOf_concat,new z member,if_neg Bool.false_ne_true]
            · rw [groupOf_concat,BEq.refl,if_pos rfl,groupOf,fresh]
              rfl
          · intro g member
            obtain ⟨z, found, rfl⟩ := List.mem_map.mp member
            exact new z found

theorem ofGroups_eq_ok {f : StopFunction} {schema : Schema} {default : Json}
    {gs : List ZoomGroup} {pairs : List (Json × Json)} :
    ofGroups f schema default gs = .ok pairs ↔
      List.Forall₂ (fun g pair => pair.1 = g.zoom ∧ ofProperty f schema default g.stops = .ok pair.2)
        gs pairs := by
  induction gs generalizing pairs with
  | nil =>
      rw [ofGroups,Except.ok.injEq,List.forall₂_nil_left_iff,eq_comm]
  | cons g rest ih =>
      rw [ofGroups,List.forall₂_cons_left_iff]
      constructor
      · intro success
        cases made : ofProperty f schema default g.stops with
        | error e => rw [made] at success; cases success
        | ok output =>
            cases after : ofGroups f schema default rest with
            | error e => rw [made,after] at success; cases success
            | ok others =>
                rw [made,after] at success
                cases success
                exact ⟨(g.zoom, output), others, ⟨rfl, rfl⟩, ih.mp after, rfl⟩
      · intro given
        obtain ⟨⟨zoom, output⟩, others, ⟨rfl, made⟩, after, rfl⟩ := given
        simp only [made,ih.mpr after]
        rfl

end Conversion

end MapStyle
