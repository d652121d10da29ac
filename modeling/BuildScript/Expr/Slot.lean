import BuildScript.Expr.Basic

/-!
Child slots: the places of a node that hold its children, counted from zero in the order of
`Shape.children`. A slot gives the child that stands in it and the node with another one put there.
-/
namespace BuildScript

structure Slot (α : Type) where
  content : α
  put : α → Shape α

namespace Shape
variable {α β : Type}

def childCount : Shape α → Nat
  | literal _ | string _ | ident _ => 0
  | unary _ _ | paren _ | dot _ _ => 1
  | binary _ _ _ => 2
  | list xs => xs.length
  | call _ xs => 1 + xs.length
  | load _ bs => 1 + 2 * bs.length

theorem childCount_eq (s : Shape α) : s.childCount = s.children.length := by
  cases s with
  | load m bs =>
    induction bs with
    | nil => rfl
    | cons b bs ih => simp_all [childCount, children]; omega
  | _ => simp [childCount, children, Nat.add_comm]

/-- The child at an index. Behind the origin of a load statement, sources have the odd indices and
targets the even ones. -/
def child? : Shape α → Nat → Option α
  | literal _, _ | string _, _ | ident _, _ => none
  | binary _ l _, 0 => some l
  | binary _ _ r, 1 => some r
  | binary _ _ _, _ + 2 => none
  | unary _ x, 0 | paren x, 0 | dot x _, 0 => some x
  | unary _ _, _ + 1 | paren _, _ + 1 | dot _ _, _ + 1 => none
  | list xs, i => xs[i]?
  | call f _, 0 => some f
  | call _ xs, i + 1 => xs[i]?
  | load m _, 0 => some m
  | load _ bs, i + 1 =>
    bs[i / 2]?.map fun b => if i % 2 = 0 then b.source else b.target

def slot? : Shape α → Nat → Option (Slot α)
  | literal _, _ | string _, _ | ident _, _ => none
  | binary op l r, 0 => some ⟨l, fun x => binary op x r⟩
  | binary op l r, 1 => some ⟨r, fun x => binary op l x⟩
  | binary _ _ _, _ + 2 => none
  | unary op x, 0 => some ⟨x, fun y => unary op y⟩
  | paren x, 0 => some ⟨x, fun y => paren y⟩
  | dot x n, 0 => some ⟨x, fun y => dot y n⟩
  | unary _ _, _ + 1 | paren _, _ + 1 | dot _ _, _ + 1 => none
  | list xs, i => xs[i]?.map fun x => ⟨x, fun y => list (xs.set i y)⟩
  | call f xs, 0 => some ⟨f, fun y => call y xs⟩
  | call f xs, i + 1 => xs[i]?.map fun x => ⟨x, fun y => call f (xs.set i y)⟩
  | load m bs, 0 => some ⟨m, fun y => load y bs⟩
  | load m bs, i + 1 =>
    bs[i / 2]?.map fun b =>
      if i % 2 = 0 then ⟨b.source, fun y => load m (bs.set (i / 2) { b with source := y })⟩
      else ⟨b.target, fun y => load m (bs.set (i / 2) { b with target := y })⟩

def slots : Shape α → List (Slot α)
  | literal _ | string _ | ident _ => []
  | binary op l r => [⟨l, fun x => binary op x r⟩, ⟨r, fun x => binary op l x⟩]
  | unary op x => [⟨x, fun y => unary op y⟩]
  | paren x => [⟨x, fun y => paren y⟩]
  | dot x n => [⟨x, fun y => dot y n⟩]
  | list xs => xs.mapIdx fun i x => ⟨x, fun y => list (xs.set i y)⟩
  | call f xs =>
    ⟨f, fun y => call y xs⟩ :: xs.mapIdx fun i x => ⟨x, fun y => call f (xs.set i y)⟩
  | load m bs =>
    ⟨m, fun y => load y bs⟩ ::
      (bs.mapIdx fun i b =>
        [⟨b.source, fun y => load m (bs.set i { b with source := y })⟩,
          ⟨b.target, fun y => load m (bs.set i { b with target := y })⟩]).flatten

def mapIdx (f : Nat → α → β) : Shape α → Shape β
  | literal t => literal t
  | string v => string v
  | ident n => ident n
  | binary op l r => binary op (f 0 l) (f 1 r)
  | unary op x => unary op (f 0 x)
  | paren x => paren (f 0 x)
  | list xs => list (xs.mapIdx f)
  | call g xs => call (f 0 g) (xs.mapIdx fun i x => f (i + 1) x)
  | dot x n => dot (f 0 x) n
  | load m bs =>
    load (f 0 m) (bs.mapIdx fun i b => ⟨f (2 * i + 1) b.source, f (2 * i + 2) b.target⟩)

end Shape

namespace Expr

def childCount (e : Expr) : Nat := e.shape.childCount

def child? (e : Expr) (i : Nat) : Option Expr := e.shape.child? i

def setChild? (e : Expr) (i : Nat) (x : Expr) : Option Expr :=
  (e.shape.slot? i).map fun slot => ⟨e.span, slot.put x⟩

def mapChildren (f : Nat → Expr → Expr) (e : Expr) : Expr :=
  ⟨e.span, e.shape.mapIdx f⟩

end Expr
end BuildScript
