import MapStyle.Proofs.Property.Levels

-- What a function of the zoom and a property is converted to: a curve of the zoom with
-- each zoom of the stops once, and under it the function of the property alone that has
-- the stops of this zoom. No stop is lost, and none is there twice.

namespace MapStyle

theorem forall₂_zip {α β : Type} {R : α → β → Prop} {as : List α} {pairs : List (α × β)} :
    List.Forall₂ (fun a pair => pair.1 = a ∧ R a pair.2) as pairs ↔
      ∃ bs, pairs = as.zip bs ∧ List.Forall₂ R as bs := by
  induction as generalizing pairs with
  | nil => simp
  | cons a rest ih =>
      simp only [List.forall₂_cons_left_iff]
      constructor
      · rintro ⟨⟨_, b⟩, others, ⟨rfl, here⟩, related, rfl⟩
        obtain ⟨bs, rfl, related'⟩ := ih.mp related
        exact ⟨b :: bs, rfl, b, bs, here, related', rfl⟩
      · rintro ⟨_, rfl, b, bs, here, related, rfl⟩
        exact ⟨(a, b), rest.zip bs, ⟨rfl, here⟩, ih.mpr ⟨bs, rfl, related⟩, rfl⟩

namespace Conversion

variable {f : StopFunction} {schema : Schema} {stops : List (Json × Json)}

def stopsAt (schema : Schema) (stops : List (Json × Json)) (zoom : Json) : List (Json × Json) :=
  (stops.filter fun s => zoom == zoomOf s).map fun s => (part "value" s.1, constant schema s.2)

theorem zooms_withConstants (schema : Schema) (stops : List (Json × Json)) :
    zooms (withConstants schema stops) = zooms stops := by
  rw [zooms,withConstants,List.map_map]
  rfl

theorem groupOf_withConstants (schema : Schema) (stops : List (Json × Json)) (zoom : Json) :
    (groupOf (withConstants schema stops) zoom).stops = stopsAt schema stops zoom := by
  simp only [groupOf,withConstants,stopsAt,List.filter_map,List.map_map]
  rfl

theorem ofGroups_zooms {default : Json} {pairs : List (Json × Json)} :
    ofGroups f schema default (groups (withConstants schema stops)) = .ok pairs ↔
      ∃ subs, pairs = (zooms stops).zip subs ∧
        List.Forall₂ (fun zoom sub => ofProperty f schema default (stopsAt schema stops zoom) = .ok sub)
          (zooms stops) subs := by
  rw [groups_eq,ofGroups_eq_ok,List.forall₂_map_left_iff,zooms_withConstants]
  simp only [groupOf_withConstants]
  exact forall₂_zip (R := fun zoom sub =>
    ofProperty f schema default (stopsAt schema stops zoom) = .ok sub)

theorem ofFunction_grouped {s : Json × Json} {data : Json} (given : f.stops = some stops)
    (first : stops.head? = some s) (grouped : s.1.isObject = true)
    (made : ofFunction f schema = .ok data) :
    ∃ subs,
      data = .arr [.str "coalesce",
        .arr (.str "curve" :: .arr [.str (if schema.isInterpolated then "linear" else "step")] ::
          .arr [.str "zoom"] :: flatStops ((zooms stops).zip subs)),
        defaultOf f schema] ∧
      List.Forall₂ (fun zoom sub =>
          ofProperty f schema (defaultOf f schema) (stopsAt schema stops zoom) = .ok sub)
        (zooms stops) subs ∧
      (zooms stops).Pairwise (fun a b => (a == b) = false) ∧
      ((zooms stops).flatMap fun zoom => stops.filter fun s => zoom == zoomOf s).Perm stops := by
  obtain ⟨rest, rfl⟩ := List.head?_eq_some_iff.mp first
  have distinct := eraseDups_distinct ((s :: rest).map zoomOf)
  have covers : ∀ t ∈ s :: rest, (zooms (s :: rest)).any (zoomOf t == ·) = true :=
    fun t member => eraseDups_covers (List.mem_map_of_mem member)
  cases converts : body f schema with
  | error e =>
      rw [ofFunction,converts] at made
      cases made
  | ok converted =>
      rw [ofFunction,converts] at made
      cases made
      obtain ⟨_, pairs, groups, rfl⟩ := body_grouped given grouped converts
      obtain ⟨subs, rfl, related⟩ := ofGroups_zooms.mp groups
      exact ⟨subs, rfl, related, distinct, flatMap_filter_perm distinct covers⟩

theorem ofFunction_grouped_mixed :
    let five : Json := .num (.int 5 (by decide))
    let one : Json := .num (.int 1 (by decide))
    let key (zoom : Json) (value : String) : Json := .obj [("value", .str value), ("zoom", zoom)]
    let stops : List (Json × Json) := [(key five "bus", .str "a"), (key one "bus", .str "b"),
      (.obj [("value", .str "tram")], .str "c"), (key five "tram", .str "d")]
    let f : StopFunction := ⟨some "kind", some "categorical", none, none, none, some stops⟩
    let schema := (Schema.ofTypeName "string").withDefault (.str "none")
    let table (arms : List Json) : Json := .arr (.str "match" ::
      .arr [.str "string", .arr [.str "get", .str "kind"]] :: arms ++ [.str "none"])
    let data : Json := .arr [.str "coalesce", .arr [.str "curve", .arr [.str "step"],
      .arr [.str "zoom"], five, table [.str "bus", .str "a", .str "tram", .str "d"],
      one, table [.str "bus", .str "b"], .null, table [.str "tram", .str "c"]], .str "none"]
    ofFunction f schema = .ok data ∧ zooms stops = [five, one, .null] ∧
      ∃ subs, data = .arr [.str "coalesce",
          .arr (.str "curve" :: .arr [.str "step"] :: .arr [.str "zoom"] ::
            flatStops ([five, one, .null].zip subs)), .str "none"] ∧
        List.Forall₂ (fun zoom sub =>
            ofProperty f schema (.str "none") (stopsAt schema stops zoom) = .ok sub)
          [five, one, .null] subs := by
  intro five one key stops f schema table data
  have made : ofFunction f schema = .ok data := by rfl
  have zooms : zooms stops = [five, one, .null] := by rfl
  obtain ⟨subs, written, related, _, _⟩ := ofFunction_grouped rfl rfl rfl made
  rw [zooms] at written related
  exact ⟨made, zooms, subs, written, related⟩

end Conversion

end MapStyle
