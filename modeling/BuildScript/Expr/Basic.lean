import BuildScript.Span
import BuildScript.Operator

/-!
Expressions: a node is a shape over its child nodes, with the span it was read from if there is one.
Statements are expressions too. The induction principle `Expr.induct` and the equation
`Expr.fold_eq` speak of the children of a node, so that no proof has to look into the lists below a
shape.
-/
namespace BuildScript

/-- One name that a load statement brings in: `source` over there, `target` here. -/
structure Binding (α : Type) where
  source : α
  target : α
deriving Repr, DecidableEq

/-- What a node is, with `α` in the places of its children. -/
inductive Shape (α : Type) where
  /-- A number, as written. -/
  | literal (token : String)
  /-- A string, by its value. -/
  | string (value : String)
  | ident (name : String)
  | binary (op : BinaryOp) (left right : α)
  | unary (op : UnaryOp) (operand : α)
  /-- Grouping that stands in the text, needed or not. -/
  | paren (inner : α)
  | list (items : List α)
  | call (callee : α) (args : List α)
  | dot (receiver : α) (name : String)
  | load (origin : α) (bindings : List (Binding α))
deriving Repr, DecidableEq

structure Expr where node ::
  span : Option Span
  shape : Shape Expr
deriving Repr

instance : Inhabited Expr := ⟨⟨none, .list []⟩⟩

namespace Shape
variable {α β : Type}

/-- The child nodes in source order. A load statement has its origin first, then source and target
of each binding, pair by pair. -/
def children : Shape α → List α
  | literal _ | string _ | ident _ => []
  | binary _ l r => [l, r]
  | unary _ x | paren x | dot x _ => [x]
  | list xs => xs
  | call f xs => f :: xs
  | load m bs => m :: bs.flatMap fun b => [b.source, b.target]

def map (f : α → β) : Shape α → Shape β
  | literal t => literal t
  | string v => string v
  | ident n => ident n
  | binary op l r => binary op (f l) (f r)
  | unary op x => unary op (f x)
  | paren x => paren (f x)
  | list xs => list (xs.map f)
  | call g xs => call (f g) (xs.map f)
  | dot x n => dot (f x) n
  | load m bs => load (f m) (bs.map fun b => ⟨f b.source, f b.target⟩)

theorem children_map (f : α → β) (s : Shape α) : (s.map f).children = s.children.map f := by
  cases s <;> simp [map, children, List.flatMap_map, List.map_flatMap]

theorem map_congr {f g : α → β} {s : Shape α} (h : ∀ c ∈ s.children, f c = g c) :
    s.map f = s.map g := by
  cases s with
  | load m bs =>
    simp only [children, List.mem_cons, List.mem_flatMap, forall_eq_or_imp] at h
    simp only [map, h.1, load.injEq, true_and]
    refine List.map_congr_left fun b hb => ?_
    rw [h.2 b.source ⟨b, hb, by simp⟩, h.2 b.target ⟨b, hb, by simp⟩]
  | _ => simp_all [map, children]

theorem map_id (s : Shape α) : s.map (fun c => c) = s := by
  cases s <;> simp [map]

theorem map_map {γ : Type} (g : β → γ) (f : α → β) (s : Shape α) :
    (s.map f).map g = s.map fun c => g (f c) := by
  cases s <;> simp [map]

end Shape

namespace Expr

def ofShape (shape : Shape Expr) : Expr := ⟨none, shape⟩

def children (e : Expr) : List Expr := e.shape.children

theorem induct {P : Expr → Prop} (step : ∀ e : Expr, (∀ c ∈ e.children, P c) → P e)
    (e : Expr) : P e :=
  Expr.rec (motive_1 := P) (motive_2 := fun s => ∀ c ∈ s.children, P c)
    (motive_3 := fun xs => ∀ c ∈ xs, P c)
    (motive_4 := fun bs => ∀ c ∈ bs.flatMap fun b : Binding Expr => [b.source, b.target], P c)
    (motive_5 := fun b => P b.source ∧ P b.target)
    (fun span shape ih => step ⟨span, shape⟩ ih)
    (fun _ => by simp [Shape.children]) (fun _ => by simp [Shape.children])
    (fun _ => by simp [Shape.children])
    (fun _ l r hl hr => by simp [Shape.children, hl, hr])
    (fun _ x hx => by simp [Shape.children, hx]) (fun x hx => by simp [Shape.children, hx])
    (fun xs hxs => hxs)
    (fun f xs hf hxs => List.forall_mem_cons.2 ⟨hf, hxs⟩)
    (fun x _ hx => by simp [Shape.children, hx])
    (fun m bs hm hbs => List.forall_mem_cons.2 ⟨hm, hbs⟩)
    (by simp) (fun x xs hx hxs => List.forall_mem_cons.2 ⟨hx, hxs⟩)
    (by simp)
    (fun b bs hb hbs => by
      rw [List.flatMap_cons]
      exact List.forall_mem_cons.2 ⟨hb.1, List.forall_mem_cons.2 ⟨hb.2, hbs⟩⟩)
    (fun _ _ hs ht => ⟨hs, ht⟩)
    e

section Fold
variable {β : Type} (f : Expr → Shape β → β)

mutual
def fold : Expr → β
  | ⟨span, shape⟩ => f ⟨span, shape⟩ (foldShape shape)
def foldShape : Shape Expr → Shape β
  | .literal t => .literal t
  | .string v => .string v
  | .ident n => .ident n
  | .binary op l r => .binary op (fold l) (fold r)
  | .unary op x => .unary op (fold x)
  | .paren x => .paren (fold x)
  | .list xs => .list (foldAll xs)
  | .call g xs => .call (fold g) (foldAll xs)
  | .dot x n => .dot (fold x) n
  | .load m bs => .load (fold m) (foldBindings bs)
def foldAll : List Expr → List β
  | [] => []
  | x :: xs => fold x :: foldAll xs
def foldBindings : List (Binding Expr) → List (Binding β)
  | [] => []
  | ⟨s, t⟩ :: bs => ⟨fold s, fold t⟩ :: foldBindings bs
end

theorem foldAll_eq (xs : List Expr) : foldAll f xs = xs.map (fold f) := by
  induction xs with
  | nil => rfl
  | cons x xs ih => rw [foldAll, ih, List.map_cons]

theorem foldBindings_eq (bs : List (Binding Expr)) :
    foldBindings f bs = bs.map fun b => ⟨fold f b.source, fold f b.target⟩ := by
  induction bs with
  | nil => rfl
  | cons b bs ih => rw [foldBindings, ih, List.map_cons]

theorem fold_eq (e : Expr) : e.fold f = f e (e.shape.map (fold f)) := by
  obtain ⟨span, shape⟩ := e
  cases shape <;> simp [fold, foldShape, Shape.map, foldAll_eq, foldBindings_eq]

end Fold

mutual
def same : Expr → Expr → Bool
  | ⟨s, x⟩, ⟨t, y⟩ => decide (s = t) && sameShape x y
def sameShape : Shape Expr → Shape Expr → Bool
  | .literal a, .literal b => a == b
  | .string a, .string b => a == b
  | .ident a, .ident b => a == b
  | .binary o a b, .binary p c d => decide (o = p) && same a c && same b d
  | .unary o a, .unary p b => decide (o = p) && same a b
  | .paren a, .paren b => same a b
  | .list a, .list b => sameAll a b
  | .call f a, .call g b => same f g && sameAll a b
  | .dot a n, .dot b m => same a b && n == m
  | .load m a, .load n b => same m n && sameBindings a b
  | _, _ => false
def sameAll : List Expr → List Expr → Bool
  | [], [] => true
  | a :: as, b :: bs => same a b && sameAll as bs
  | _, _ => false
def sameBindings : List (Binding Expr) → List (Binding Expr) → Bool
  | [], [] => true
  | ⟨a, b⟩ :: as, ⟨c, d⟩ :: bs => same a c && same b d && sameBindings as bs
  | _, _ => false
end

theorem sameAll_iff {xs : List Expr} (ih : ∀ x ∈ xs, ∀ y, same x y = true ↔ x = y)
    (ys : List Expr) : sameAll xs ys = true ↔ xs = ys := by
  induction xs generalizing ys with
  | nil => cases ys <;> simp [sameAll]
  | cons x xs hi =>
    obtain ⟨hx, hxs⟩ := List.forall_mem_cons.1 ih
    cases ys <;> simp [sameAll, hx, hi hxs]

theorem sameBindings_iff {xs : List (Binding Expr)}
    (ih : ∀ x ∈ xs.flatMap fun b => [b.source, b.target], ∀ y, same x y = true ↔ x = y)
    (ys : List (Binding Expr)) : sameBindings xs ys = true ↔ xs = ys := by
  induction xs generalizing ys with
  | nil => cases ys <;> simp [sameBindings]
  | cons x xs hi =>
    obtain ⟨a, b⟩ := x
    rw [List.flatMap_cons, List.forall_mem_append] at ih
    cases ys with
    | nil => simp [sameBindings]
    | cons y ys =>
      obtain ⟨c, d⟩ := y
      simp [sameBindings, ih.1 a (by simp), ih.1 b (by simp), hi ih.2]

theorem same_iff (x y : Expr) : same x y = true ↔ x = y := by
  induction x using induct generalizing y with
  | step x ih =>
    obtain ⟨s, x⟩ := x
    obtain ⟨t, y⟩ := y
    have key : sameShape x y = true ↔ x = y := by
      cases x with
      | load m bs =>
        obtain ⟨hm, hbs⟩ := List.forall_mem_cons.1 ih
        cases y <;> simp [sameShape, hm, sameBindings_iff hbs]
      | _ =>
        cases y <;> simp_all [children, Shape.children, sameShape, sameAll_iff, and_assoc]
    simp [same, key]

instance : DecidableEq Expr := fun x y => decidable_of_iff _ (same_iff x y)

def literal (token : String) : Expr := ofShape (.literal token)
def string (value : String) : Expr := ofShape (.string value)
def ident (name : String) : Expr := ofShape (.ident name)
def binary (op : BinaryOp) (left right : Expr) : Expr := ofShape (.binary op left right)
def unary (op : UnaryOp) (operand : Expr) : Expr := ofShape (.unary op operand)
def paren (inner : Expr) : Expr := ofShape (.paren inner)
def list (items : List Expr) : Expr := ofShape (.list items)
def call (callee : Expr) (args : List Expr) : Expr := ofShape (.call callee args)
def dot (receiver : Expr) (name : String) : Expr := ofShape (.dot receiver name)

/-- A load statement from two parallel lists of names; lists of different length name nothing. -/
def load? (origin : String) (sources targets : List String) : Option Expr :=
  if sources.length = targets.length then
    some (ofShape (.load (string origin)
      (List.zipWith (fun s t => ⟨ident s, ident t⟩) sources targets)))
  else none

def withSpan (e : Expr) (span : Option Span) : Expr := ⟨span, e.shape⟩

def ident? (e : Expr) : Option String :=
  match e.shape with
  | .ident n => some n
  | _ => none

def string? (e : Expr) : Option String :=
  match e.shape with
  | .string v => some v
  | _ => none

def layoutSpan? (e : Expr) : Option Span :=
  e.span.filter (!·.isEmpty)

/-- No text holds the node: it was made by an edit. -/
def isSynthesized (e : Expr) : Bool :=
  e.layoutSpan?.isNone

def isMultiline (e : Expr) : Bool :=
  e.layoutSpan?.any Span.isMultiline

def precedence (e : Expr) : Precedence :=
  match e.shape with
  | .binary op _ _ => op.precedence
  | .unary op _ => op.precedence
  | _ => .primary

def mapSpans (f : Option Span → Option Span) : Expr → Expr :=
  fold fun e shape => ⟨f e.span, shape⟩

theorem mapSpans_eq (f : Option Span → Option Span) (e : Expr) :
    e.mapSpans f = ⟨f e.span, e.shape.map (mapSpans f)⟩ :=
  fold_eq _ e

def eraseSpans : Expr → Expr :=
  mapSpans fun _ => none

end Expr
end BuildScript
