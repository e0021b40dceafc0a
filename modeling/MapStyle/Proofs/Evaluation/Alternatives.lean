import MapStyle.Proofs.Evaluation.Dependence

-- What a coalesce comes to, told from what each of its arguments comes to by itself. An
-- argument leaves nothing behind for the next one but the names that it has asked for,
-- and these make no difference to an evaluation.

namespace MapStyle

open Eval

def Session.unasked (s : Session) : Session :=
  { s with reads := [] }

def Session.noting (s : Session) (names : List String) : Session :=
  { s with reads := s.reads ++ names }

namespace Eval

variable {α β : Type}

-- What was asked before stays in front of what the evaluation asks, and is all that is
-- different.
def Resumes (a : Eval α) : Prop :=
  ∀ s names, a { s with reads := names ++ s.reads } =
    ((a s).1, { (a s).2 with reads := names ++ (a s).2.reads })

theorem zoom_resumes : Resumes zoom := by
  intro s names
  obtain ⟨z, feature, vars, reads⟩ := s
  cases z <;> rfl

theorem lookup_resumes (name : String) : Resumes (lookup name) := by
  intro s names
  unfold lookup
  dsimp only
  split <;> rfl

theorem property_resumes (name : String) : Resumes (property name) := by
  intro s names
  obtain ⟨z, feature, vars, reads⟩ := s
  cases feature with
  | none => rfl
  | some feature => simp only [property,List.append_assoc]

theorem settle_resumes {a : Eval α} {next : Except EvalError α → Eval β} (head : Resumes a)
    (tail : ∀ r, Resumes (next r)) : Resumes (settle a next) := by
  intro s names
  unfold settle
  rw [head s names]
  exact tail _ _ names

theorem inScope_resumes {a : Eval Value} (inside : Resumes a) : Resumes (inScope a) := by
  intro s names
  unfold inScope
  rw [inside s names]

theorem resumes_composes : ComposesScopes fun α (a : Unit → Eval α) => Resumes (a ()) where
  value _ _ _ := rfl
  failure _ _ _ _ := rfl
  onward head tail := settle_resumes head fun r => tail r fun _ _ => trivial
  zoom := zoom_resumes
  asked := property_resumes
  named := lookup_resumes
  pushed _ _ _ _ := rfl
  enclosed := inScope_resumes

def isBlank : Except EvalError Value → Bool
  | .ok v => v.isNull
  | .error _ => true

def error? : Except EvalError Value → Option EvalError
  | .ok _ => none
  | .error e => some e

end Eval

namespace Expr

def alone (e : Expr) (s : Session) : Except EvalError Value × List String :=
  e.observe s.unasked

theorem eval_alone (e : Expr) (s : Session) :
    e.eval s = ((e.alone s).1, s.noting (e.alone s).2) := by
  obtain ⟨asked, frame⟩ := e.eval_frame s.unasked
  have resumed : Resumes e.eval := resumes_composes.eval e
  have start : { s.unasked with reads := s.reads ++ s.unasked.reads } = s := by
    simp only [Session.unasked,List.append_nil]
  have whole := resumed s.unasked s.reads
  rw [start,frame] at whole
  rw [whole,alone,observe,frame]
  rfl

@[simp] theorem alone_noting (e : Expr) (s : Session) (names : List String) :
    e.alone (s.noting names) = e.alone s := rfl

def asked (args : List Expr) (s : Session) : List String :=
  args.flatMap fun a => (a.alone s).2

def lastError? (args : List Expr) (s : Session) : Option EvalError :=
  (args.filterMap fun a => error? (a.alone s).1).getLast?

theorem noting_asked (a : Expr) (args : List Expr) (s : Session) :
    (s.noting (a.alone s).2).noting (asked args s) = s.noting (asked (a :: args) s) := by
  simp only [Session.noting,asked,List.flatMap_cons,List.append_assoc]

theorem firstValue_blank {args : List Expr} {s : Session}
    (blank : ∀ a ∈ args, isBlank (a.alone s).1 = true) (last : Option EvalError)
    (rest : List (Eval Value)) :
    firstValue last (args.map Expr.eval ++ rest) s =
      firstValue ((lastError? args s).or last) rest (s.noting (asked args s)) := by
  induction args generalizing s last with
  | nil =>
      have kept : s.noting [] = s := by simp only [Session.noting,List.append_nil]
      show firstValue last rest s = firstValue last rest (s.noting [])
      rw [kept]
  | cons a args ih =>
      obtain ⟨here, others⟩ := List.forall_mem_cons.mp blank
      have later := @ih (s.noting (a.alone s).2) others
      have last' : lastError? args (s.noting (a.alone s).2) = lastError? args s := rfl
      have asked' : asked args (s.noting (a.alone s).2) = asked args s := rfl
      rw [last',asked',noting_asked] at later
      rw [List.map_cons,List.cons_append,firstValue_cons,settle,eval_alone]
      dsimp only
      cases result : (a.alone s).1 with
      | error e =>
          have failed : lastError? (a :: args) s = (lastError? args s).or (some e) := by
            rw [lastError?,List.filterMap_cons,result,error?,List.getLast?_cons,lastError?]
            cases (args.filterMap fun a => error? (a.alone s).1).getLast? <;> rfl
          rw [failed,Option.or_assoc]
          exact later (some e)
      | ok v =>
          rw [result] at here
          have passed : lastError? (a :: args) s = lastError? args s := by
            simp only [lastError?,List.filterMap_cons,result,error?]
          have null : v.isNull = true := here
          simp only [afterValue,null,if_true]
          rw [passed]
          exact later last

theorem eval_coalesce (path : Path) (type : Ty) (args : List Expr) (s : Session) :
    (∀ before a after v, args = before ++ a :: after →
      (∀ b ∈ before, isBlank (b.alone s).1 = true) → (a.alone s).1 = .ok v → v.isNull = false →
      Expr.eval ⟨path, type, .coalesce args⟩ s = (.ok v, s.noting (asked (before ++ [a]) s))) ∧
    ((∀ a ∈ args, isBlank (a.alone s).1 = true) →
      Expr.eval ⟨path, type, .coalesce args⟩ s =
        (match lastError? args s with
          | some e => .error e
          | none => .ok .null, s.noting (asked args s))) := by
  rw [Expr.eval_eq]
  show (∀ before a after v, args = before ++ a :: after → _ → _ → _ →
    firstValue none (args.map Expr.eval) s = _) ∧ (_ → firstValue none (args.map Expr.eval) s = _)
  constructor
  · intro before a after v given blank value present
    have passed := firstValue_blank blank none (a.eval :: after.map Expr.eval)
    rw [given,List.map_append,List.map_cons,passed,firstValue_cons,settle,eval_alone,alone_noting,
      value]
    dsimp only [afterValue]
    rw [if_neg (by rw [present]; exact Bool.false_ne_true)]
    simp only [asked,List.flatMap_append,List.flatMap_cons,List.flatMap_nil,List.append_nil]
    simp only [Session.noting,List.append_assoc]
    rfl
  · intro blank
    have passed := firstValue_blank blank none []
    rw [List.append_nil,Option.or_none] at passed
    rw [passed]
    cases lastError? args s <;> rfl

theorem eval_coalesce_bound :
    let get (name : String) : Expr := ⟨[], .unknown, .get ⟨[], .string, .literal (.str name)⟩⟩
    let nothing := get "a"
    let failing : Expr :=
      ⟨[], .unknown, .letIn [⟨"x", ⟨[], .string, .literal (.str "inner")⟩⟩] (get "b")⟩
    let bound : Expr := ⟨[], .string, .var "x"⟩
    let s := (Session.start none (some (Feature.ofMembers [("a", .null)]))).withVariables
      (Variables.empty.push "x" (.str "outer"))
    (∀ b ∈ [nothing, failing], isBlank (b.alone s).1 = true) ∧
      (bound.alone s).1 = .ok (.str "outer") ∧
      Expr.eval ⟨[], .unknown, .coalesce [nothing, failing, bound, get "c"]⟩ s =
        (.ok (.str "outer"), s.noting ["a", "b"]) ∧
      Expr.eval ⟨[], .unknown, .coalesce [nothing, failing]⟩ s =
        (.error (.missingProperty "b"), s.noting ["a", "b"]) := by
  intro get nothing failing bound s
  have blank : ∀ b ∈ [nothing, failing], isBlank (b.alone s).1 = true := by
    intro b member
    rcases List.mem_cons.mp member with rfl | member
    · rfl
    · obtain rfl := List.mem_singleton.mp member
      rfl
  obtain ⟨chosen, _⟩ := eval_coalesce [] .unknown [nothing, failing, bound, get "c"] s
  obtain ⟨_, blanks⟩ := eval_coalesce [] .unknown [nothing, failing] s
  refine ⟨blank, rfl, ?_, blanks blank⟩
  exact chosen [nothing, failing] bound [get "c"] (.str "outer") rfl blank rfl rfl

end Expr

end MapStyle
