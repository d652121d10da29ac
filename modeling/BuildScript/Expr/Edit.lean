import BuildScript.Expr.Walk

/-!
Edits from the root down. Paths address the nodes of a tree: the child indices that lead from the
root to them. Each place of the tree is offered once, with its ancestors in the tree as it is at that
moment; what is put in its place is not offered again, but the children of it are. An edit of this
kind can go on for ever, so it runs with a bound on how deep it may go.
-/
namespace BuildScript

abbrev Path := List Nat

namespace Expr

def visit? (e : Expr) : Path → Option Visit
  | [] => some ⟨e, []⟩
  | i :: path => do
    let child ← e.child? i
    let below ← child.visit? path
    pure ⟨below.node, e :: below.ancestors⟩

def at? (e : Expr) (path : Path) : Option Expr := (e.visit? path).map Visit.node

def put? (e : Expr) : Path → Expr → Option Expr
  | [], x => some x
  | i :: path, x => do
    let slot ← e.shape.slot? i
    let child ← slot.content.put? path x
    pure ⟨e.span, slot.put child⟩

end Expr

/-- Sees a node and its ancestors, root first; answers with what to put there, if anything. -/
abbrev Callback (σ ε : Type) := Expr → List Expr → ExceptT ε (StateM σ) (Option Expr)

inductive Halt (ε : Type) where
  | refused (error : ε)
  /-- A path that leads to no node. -/
  | lost (path : Path)
  /-- The bound on the depth was reached. -/
  | spent
deriving Repr

abbrev EditM (σ ε : Type) := ExceptT (Halt ε) (StateM σ)

namespace Expr
variable {σ ε : Type}

/-- Asks about the place at `path` and puts the answer there; also gives the number of slots that
the node in this place has now. -/
def offerAt (offer : Callback σ ε) (path : Path) (root : Expr) : EditM σ ε (Nat × Expr) :=
  match root.visit? path with
  | none => throw (.lost path)
  | some visit => do
    match ← ExceptT.adapt Halt.refused (offer visit.node visit.ancestors) with
    | none => pure (visit.node.childCount, root)
    | some replacement =>
      match root.put? path replacement with
      | none => throw (.lost path)
      | some root => pure (replacement.childCount, root)

def editAt (offer : Callback σ ε) : Nat → Path → Expr → EditM σ ε Expr
  | 0, _, _ => throw .spent
  | depth + 1, path, root => do
    let (count, root) ← offerAt offer path root
    (List.range count).foldlM (fun root i => editAt offer depth (path ++ [i]) root) root

theorem editAt_succ (offer : Callback σ ε) (depth : Nat) (path : Path) (root : Expr) :
    editAt offer (depth + 1) path root = offerAt offer path root >>= fun offered =>
      (List.range offered.1).foldlM (fun root i => editAt offer depth (path ++ [i]) root)
        offered.2 :=
  rfl

def edit (offer : Callback σ ε) (depth : Nat) (root : Expr) : EditM σ ε Expr :=
  editAt offer depth [] root

end Expr
end BuildScript
