import MapStyle.Proofs.Kinds.Basic
import MapStyle.Proofs.Evaluation.Node

namespace MapStyle

namespace Eval

-- Whatever an evaluation that finds these variables on the stack comes to has the
-- property, and the stack is left as it was.
variable {stack : Variables} {α β : Type} {K : α → Prop} {L : β → Prop}

def Yields (stack : Variables) (K : α → Prop) (a : Eval α) : Prop :=
  ∀ s, s.variables = stack → (a s).2.variables = stack ∧ ∀ v, (a s).1 = .ok v → K v

theorem yields_mono {a : Eval α} {K' : α → Prop} (yields : Yields stack K a)
    (weaker : ∀ v, K v → K' v) : Yields stack K' a := by
  intro s found
  obtain ⟨kept, good⟩ := yields s found
  exact ⟨kept, fun v done => weaker v (good v done)⟩

theorem pure_yields {v : α} (good : K v) : Yields stack K (pure v) := by
  intro s found
  refine ⟨found, ?_⟩
  intro w done
  cases done
  exact good

theorem fail_yields (e : EvalError) : Yields stack K (fail e) := by
  intro s found
  refine ⟨found, ?_⟩
  intro w done
  cases done

theorem ofExcept_yields {result : Except EvalError α} (good : ∀ v, result = .ok v → K v) :
    Yields stack K (ofExcept result) := by
  intro s found
  exact ⟨found, good⟩

theorem bind_yields {a : Eval α} {f : α → Eval β} (head : Yields stack K a)
    (tail : ∀ x, K x → Yields stack L (f x)) : Yields stack L (a >>= f) := by
  intro s found
  obtain ⟨kept, good⟩ := head s found
  rw [bind_apply]
  cases now : a s with
  | mk result s' =>
      rw [now] at kept good
      cases result with
      | error e =>
          refine ⟨kept, ?_⟩
          intro v done
          cases done
      | ok x => exact tail x (good x rfl) s' kept

theorem zoom_yields : Yields stack (fun _ => True) zoom := by
  intro s found
  unfold zoom
  split
  · exact ⟨found, fun _ _ => trivial⟩
  · exact ⟨found, fun _ _ => trivial⟩

theorem property_yields (name : String) : Yields stack (fun _ => True) (property name) := by
  intro s found
  unfold property
  split
  · exact ⟨found, fun _ _ => trivial⟩
  · exact ⟨found, fun _ _ => trivial⟩

theorem lookup_yields {K : Value → Prop} {name : String} (good : ∀ v, stack.get? name = some v → K v) :
    Yields stack K (lookup name) := by
  intro s found
  unfold lookup
  rw [found]
  cases there : stack.get? name with
  | some v =>
      refine ⟨found, ?_⟩
      intro w done
      cases done
      exact good v there
  | none =>
      refine ⟨found, ?_⟩
      intro w done
      cases done

theorem text_yields (v : Value) : Yields stack (fun _ => True) (text v) := by
  unfold text
  split
  · exact pure_yields trivial
  · exact fail_yields _

theorem truth_yields (v : Value) : Yields stack (fun _ => True) (truth v) := by
  unfold truth
  split
  · exact pure_yields trivial
  · exact fail_yields _

theorem number_yields (v : Value) : Yields stack (fun _ => True) (number v) := by
  unfold number
  split
  · exact pure_yields trivial
  · exact fail_yields _

theorem get_yields (v : Value) : Yields stack (fun _ => True) (get v) := by
  unfold get
  refine bind_yields (text_yields v) fun name _ => bind_yields (property_yields name) fun found _ => ?_
  split
  · exact pure_yields trivial
  · exact fail_yields _

theorem has_yields (v : Value) : Yields stack Ty.boolean.Covers (has v) := by
  unfold has
  exact bind_yields (text_yields v) fun name _ => bind_yields (property_yields name) fun found _ =>
    pure_yields (Ty.covers_of_kind? rfl)

theorem member_yields (key : String) (v : Value) : Yields stack Ty.boolean.Covers (member key v) := by
  unfold member
  split
  · exact pure_yields (Ty.covers_of_kind? rfl)
  · exact fail_yields _

theorem arrayOf_yields (item : Ty) (length : Option Nat) (v : Value) :
    Yields stack (Ty.array item length).Covers (arrayOf item length v) := by
  unfold arrayOf
  split
  · rename_i holds
    cases v with
    | arr items => exact pure_yields (Ty.covers_of_kind? rfl)
    | _ => cases holds
  · exact fail_yields _

theorem color_yields (v : Value) : Yields stack Ty.color.Covers (color v) := by
  unfold color
  split
  · split
    · exact pure_yields (Ty.covers_of_kind? rfl)
    · exact fail_yields _
  · exact pure_yields (Ty.covers_of_kind? rfl)
  · exact fail_yields _

theorem inScope_yields {a : Eval α}
    (grows : ∀ s, s.variables = stack →
      (∃ pushed, (a s).2.variables.entries = pushed ++ stack.entries) ∧ ∀ v, (a s).1 = .ok v → K v) :
    Yields stack K (inScope a) := by
  intro s found
  obtain ⟨⟨pushed, grown⟩, good⟩ := grows s found
  refine ⟨?_, good⟩
  have shape : (a s).2.variables = ⟨pushed ++ stack.entries⟩ := by rw [← grown]
  simp [inScope,shape,found]

section Lists

variable {ι : Type} {f : ι → Eval Value} {K : Value → Prop}

-- Null comes out only where an argument was null, unless there are none.
theorem firstValue_yields (args : List ι) (each : ∀ c ∈ args, Yields stack K (f c))
    (last : Option EvalError) (missing : args = [] → last = none → K .null) :
    Yields stack K (firstValue last (args.map f)) := by
  induction args generalizing last with
  | nil =>
      cases last with
      | none => exact pure_yields (missing rfl rfl)
      | some e => exact fail_yields e
  | cons c rest ih =>
      intro s found
      obtain ⟨kept, good⟩ := each c (by simp) s found
      have later := ih fun c' member => each c' (List.mem_cons_of_mem _ member)
      simp only [List.map_cons,firstValue]
      cases now : f c s with
      | mk result s' =>
          rw [now] at kept good
          cases result with
          | error e => exact later (some e) (fun _ fresh => by cases fresh) s' kept
          | ok v =>
              dsimp only
              split
              · rename_i null
                have isNull : v = .null := by
                  cases v with
                  | null => rfl
                  | _ => cases null
                exact later last (fun _ _ => isNull ▸ good v rfl) s' kept
              · refine ⟨kept, ?_⟩
                intro w done
                cases done
                exact good v rfl

theorem firstOfType_yields (type before : Ty) (args : List ι)
    (each : ∀ c ∈ args, Yields stack K (f c)) :
    Yields stack type.Covers (firstOfType type before (args.map f)) := by
  induction args generalizing before with
  | nil => exact fail_yields _
  | cons c rest ih =>
      simp only [List.map_cons,firstOfType]
      refine bind_yields (each c (by simp)) fun v _ => ?_
      split
      · rename_i same
        subst same
        exact pure_yields (Ty.covers_of_kind? (Ty.kind?_typeOf v))
      · exact ih _ fun c' member => each c' (List.mem_cons_of_mem _ member)

theorem firstTrue_yields {otherwise : Eval Value} (last : Yields stack K otherwise)
    (branches : List (Branch ι))
    (each : ∀ b ∈ branches, Yields stack (fun _ => True) (f b.condition) ∧ Yields stack K (f b.output)) :
    Yields stack K (firstTrue otherwise (branches.map fun b => ⟨f b.condition, f b.output⟩)) := by
  induction branches with
  | nil => exact last
  | cons b rest ih =>
      simp only [List.map_cons,firstTrue]
      refine bind_yields (each b (by simp)).1 fun v _ => bind_yields (truth_yields v) fun holds _ => ?_
      split
      · exact (each b (by simp)).2
      · exact ih fun b' member => each b' (List.mem_cons_of_mem _ member)

theorem labelled_yields (v : Value) {otherwise : Eval Value} (last : Yields stack K otherwise)
    (arms : List (Arm ι)) (each : ∀ a ∈ arms, Yields stack K (f a.output)) :
    Yields stack K (labelled v otherwise (arms.map fun a => ⟨a.labels, f a.output⟩)) := by
  unfold labelled
  split
  · rename_i arm found
    obtain ⟨a, member, rfl⟩ := List.mem_map.mp (List.mem_of_find?_eq_some found)
    exact each a member
  · exact last

theorem past_yields (blends : ∀ t v w u, K v → K w → Value.blend t v w = .ok u → K u)
    (interpolation : Interpolation) (x : Float) (lower : Stop ι)
    (first : Yields stack K (f lower.output)) (stops : List (Stop ι))
    (each : ∀ p ∈ stops, Yields stack K (f p.output)) :
    Yields stack K
      (past interpolation x ⟨lower.input, f lower.output⟩
        (stops.map fun p => ⟨p.input, f p.output⟩)) := by
  induction stops generalizing lower with
  | nil => exact first
  | cons upper rest ih =>
      have next := each upper (by simp)
      simp only [List.map_cons,past]
      split
      · exact ih upper next fun p member => each p (List.mem_cons_of_mem _ member)
      · split
        · exact first
        · refine bind_yields first fun a good => bind_yields next fun b good' => ?_
          exact ofExcept_yields fun v done => blends _ a b v good good' done

theorem along_yields (blends : ∀ t v w u, K v → K w → Value.blend t v w = .ok u → K u)
    (interpolation : Interpolation) (stops : List (Stop ι))
    (each : ∀ p ∈ stops, Yields stack K (f p.output)) (x : Float) :
    Yields stack K (along interpolation (stops.map fun p => ⟨p.input, f p.output⟩) x) := by
  unfold along
  split
  · exact fail_yields _
  · cases stops with
    | nil => exact fail_yields _
    | cons lower rest =>
        have first := each lower (by simp)
        simp only [List.map_cons]
        split
        · exact first
        · exact past_yields blends interpolation x lower first rest
            fun p member => each p (List.mem_cons_of_mem _ member)

end Lists

end Eval

end MapStyle
