import BuildScript.Expr.Kind

/-!
Walks over a tree. A visit is a node with its ancestors, root first; a parent is visited before its
children and siblings from left to right.
-/
namespace BuildScript

structure Visit where
  node : Expr
  ancestors : List Expr

namespace Expr

def walkBelow (ancestors : List Expr) (e : Expr) : List Visit :=
  fold (fun e (below : Shape (List Expr → List Visit)) above =>
    ⟨e, above⟩ :: below.children.flatMap fun walk => walk (above ++ [e])) e ancestors

theorem walkBelow_eq (ancestors : List Expr) (e : Expr) :
    e.walkBelow ancestors =
      ⟨e, ancestors⟩ :: e.children.flatMap fun c => c.walkBelow (ancestors ++ [e]) := by
  unfold walkBelow
  rw [fold_eq, Shape.children_map, List.flatMap_map]
  rfl

def walk (e : Expr) : List Visit := e.walkBelow []

def preorder : Expr → List Expr :=
  fold fun e below => e :: below.children.flatten

theorem preorder_eq (e : Expr) : e.preorder = e :: e.children.flatMap preorder := by
  unfold preorder
  rw [fold_eq, Shape.children_map]
  rfl

def postorder : Expr → List Expr :=
  fold fun e below => below.children.flatten ++ [e]

theorem postorder_eq (e : Expr) : e.postorder = e.children.flatMap postorder ++ [e] := by
  unfold postorder
  rw [fold_eq, Shape.children_map]
  rfl

def size : Expr → Nat :=
  fold fun _ below => below.children.foldr (· + ·) 0 + 1

theorem size_eq (e : Expr) : e.size = (e.children.map size).foldr (· + ·) 0 + 1 := by
  unfold size
  rw [fold_eq, Shape.children_map]
  rfl

def height : Expr → Nat :=
  fold fun _ below => below.children.foldr max 0 + 1

theorem height_eq (e : Expr) : e.height = (e.children.map height).foldr max 0 + 1 := by
  unfold height
  rw [fold_eq, Shape.children_map]
  rfl

end Expr
end BuildScript
