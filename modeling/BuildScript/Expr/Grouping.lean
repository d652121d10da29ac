import BuildScript.Expr.Edit
import BuildScript.Script

/-!
Parentheses that stand in the source. Stripping replaces each of them by its content; where
operators need grouping, printing brings it back.
-/
namespace BuildScript
namespace Expr

/-- How many parentheses stand directly around a node, and the node. -/
def ungrouped : Expr → Nat × Expr
  | ⟨_, .paren inner⟩ => ((ungrouped inner).1 + 1, (ungrouped inner).2)
  | e => (0, e)

def strip : Expr → Expr :=
  fold fun e below =>
    match below with
    | .paren inner => inner
    | shape => ⟨e.span, shape⟩

/-- The same as an edit: offered a parenthesis, answers with what stands in it and counts. -/
def stripCallback : Callback Nat Empty := fun e _ => do
  let (passed, inner) := e.ungrouped
  modify (· + passed)
  pure (if passed = 0 then none else some inner)

end Expr

namespace Script
variable {σ ε : Type}

def edit (offer : Callback σ ε) (depth : Nat) (s : Script) : EditM σ ε Script := do
  let statements ← s.statements.mapM (Expr.edit offer depth)
  pure { s with statements }

/-- Runs the edit that strips parentheses; also gives their number. No answer of it is larger than
what was offered, so the size of the script bounds the depth. -/
def stripped (s : Script) : Script × Nat :=
  match (s.edit Expr.stripCallback ((s.statements.map Expr.size).foldr (· + ·) 0)).run.run 0 with
  | (.ok edited, removed) => (edited, removed)
  | (.error _, removed) => (s, removed)

end Script
end BuildScript
