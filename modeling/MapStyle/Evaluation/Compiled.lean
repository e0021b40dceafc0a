import MapStyle.Evaluation.Run

namespace MapStyle

structure Compiled where
  expr : Expr
  zoomConstant : Bool
  featureConstant : Bool

-- Compiles an expression. One that has no value without zoom and feature although it
-- depends on neither stays as it is, so the error shows in each evaluation.
def Expr.compile (e : Expr) : Compiled :=
  let zoomConstant := !e.asksZoom
  let featureConstant := !e.asksFeature
  let folded :=
    if zoomConstant && featureConstant then
      match (e.eval (Session.start none none)).1 with
      | .ok v => { e with node := .literal v }
      | .error _ => e
    else
      e
  ⟨folded, zoomConstant, featureConstant⟩

namespace Compiled

def evaluate (c : Compiled) (zoom : Option Float) (feature : Option Feature) :
    Except EvalError Value × List String :=
  let (result, session) := c.expr.eval (Session.start zoom feature)
  (result, session.reads)

end Compiled

end MapStyle
