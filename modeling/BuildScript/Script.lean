import BuildScript.Expr.Walk

/-!
A script: statements in order, and beside them the comments with their places. Comments are no part
of the trees, so walks and edits do not see them. The nodes that a walk comes by are counted by their
kinds.
-/
namespace BuildScript

/-- The content begins with the `#` and has no white space at its end. -/
structure Comment where
  span : Span
  content : String
deriving Repr, DecidableEq

structure Script where
  /-- Where the script was read from. -/
  path : Option String
  statements : List Expr
  comments : List Comment
deriving DecidableEq, Inhabited

namespace Script

def empty : Script := ⟨none, [], []⟩

/-- Every statement is walked as a root of its own. -/
def walk (s : Script) : List Visit := s.statements.flatMap Expr.walk

end Script

structure KindCount where
  /-- Only kinds that occur. -/
  kinds : List (Kind × Nat)
  /-- The largest number of ancestors. -/
  maxDepth : Nat
deriving Repr, DecidableEq

def countKinds (visits : List Visit) : KindCount where
  kinds := (Kind.all.map fun k => (k, visits.countP (·.node.kind == k))).filter (·.2 != 0)
  maxDepth := visits.foldl (fun depth v => max depth v.ancestors.length) 0

def Script.countKinds (s : Script) : KindCount := BuildScript.countKinds s.walk

end BuildScript
