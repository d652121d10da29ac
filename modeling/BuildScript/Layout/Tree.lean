import BuildScript.Expr.Kind
import BuildScript.Text.Quoted

/-!
The layout of an expression: what is printed, in which order, and where lines may break. Laying out
puts parentheses around an operand exactly if it would bind otherwise without them; parentheses that
stand in the tree are always kept.
-/
namespace BuildScript

inductive Bracket where
  | round | square
deriving Repr, DecidableEq

namespace Bracket

def opening : Bracket → Char
  | round => '('
  | square => '['

def closing : Bracket → Char
  | round => ')'
  | square => ']'

end Bracket

inductive Layout where
  | token (text : String)
  /-- One part right after the other. -/
  | joined (parts : List Layout)
  | unary (symbol : String) (operand : Layout)
  | binary (symbol : String) (left right : Layout)
  /-- A bracket that never breaks. -/
  | wrapped (bracket : Bracket) (body : Layout)
  /-- Items between brackets, on one line or on a line each; with `trailing`, a comma follows the
  last line too. -/
  | sequence (bracket : Bracket) (items : List Layout) (multiline trailing : Bool)
deriving Repr, Inhabited

structure LayoutError where
  kind : Kind
  /-- What a node in that place is used as. -/
  role : String
  span : Option Span
deriving Repr, DecidableEq

def LayoutError.message (e : LayoutError) : String :=
  "Unsupported node kind: " ++ e.kind.text ++ " can not be used as " ++ e.role

def needsParens (own operator : Precedence) (assoc : Assoc) (side : Side) : Bool :=
  decide (own < operator) || (own == operator && !assoc.allows side)

namespace Layout

def parenthesizedIf (needed : Bool) (body : Layout) : Layout :=
  if needed then wrapped .round body else body

/-- A bound name and the name it is bound to, which is written only if it is another one. -/
def ofBinding (b : Binding Expr) : Except LayoutError Layout :=
  match b.source.ident?, b.target.ident? with
  | none, _ => .error ⟨b.source.kind, "load source name", b.source.span⟩
  | some _, none => .error ⟨b.target.kind, "load binding name", b.target.span⟩
  | some source, some target =>
    let written := token (String.ofList (quote source.toList))
    .ok (if source = target then written else binary "=" (token target) written)

def ofLoad (origin : Expr) (bindings : List (Binding Expr)) (multiline : Bool) :
    Except LayoutError Layout :=
  match origin.string? with
  | none => .error ⟨origin.kind, "load module", origin.span⟩
  | some value => do
    let names ← bindings.mapM ofBinding
    let first := token (String.ofList (quote value.toList))
    pure (joined [token "load", sequence .round (first :: names) multiline true])

/-- A sign that is a word keeps its distance. -/
def signText : UnaryOp → String
  | .not => "not "
  | op => op.symbol

mutual
/-- Lays out a tree; brackets that cover several lines of the source are broken again. -/
def ofExpr (e : Expr) : Except LayoutError Layout :=
  match e with
  | ⟨_, .literal t⟩ => .ok (token t)
  | ⟨_, .string v⟩ => .ok (token (String.ofList (quote v.toList)))
  | ⟨_, .ident n⟩ => .ok (token n)
  | ⟨_, .binary op l r⟩ => do
    let left ← ofExpr l
    let right ← ofExpr r
    pure (binary op.symbol
      (parenthesizedIf (needsParens l.precedence op.precedence op.assoc .left) left)
      (parenthesizedIf (needsParens r.precedence op.precedence op.assoc .right) right))
  | ⟨_, .unary op x⟩ => do
    let operand ← ofExpr x
    pure (unary (signText op)
      (parenthesizedIf (needsParens x.precedence op.precedence op.assoc .right) operand))
  | ⟨s, .paren x⟩ => do
    let body ← ofExpr x
    pure (if (Expr.node s (.paren x)).isMultiline then sequence .round [body] true false
      else wrapped .round body)
  | ⟨s, .list xs⟩ => do
    let items ← ofExprs xs
    pure (sequence .square items (Expr.node s (.list xs)).isMultiline true)
  | ⟨s, .call f xs⟩ => do
    let callee ← ofExpr f
    let args ← ofExprs xs
    pure (joined [parenthesizedIf (needsParens f.precedence .primary .left .left) callee,
      sequence .round args (Expr.node s (.call f xs)).isMultiline true])
  | ⟨_, .dot x n⟩ => do
    let receiver ← ofExpr x
    pure (joined [parenthesizedIf (needsParens x.precedence .primary .left .left) receiver,
      token ".", token n])
  | ⟨s, .load m bs⟩ => ofLoad m bs (Expr.node s (.load m bs)).isMultiline
def ofExprs : List Expr → Except LayoutError (List Layout)
  | [] => .ok []
  | x :: xs => do
    let first ← ofExpr x
    let others ← ofExprs xs
    pure (first :: others)
end

theorem ofExprs_eq (xs : List Expr) : ofExprs xs = xs.mapM ofExpr := by
  induction xs with
  | nil => rfl
  | cons x xs ih => simp only [ofExprs, ih, List.mapM_cons]

end Layout
end BuildScript
