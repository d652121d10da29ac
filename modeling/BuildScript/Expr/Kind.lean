import BuildScript.Expr.Slot

/-!
Short descriptions of a node: its kind for messages and its label for listings.
-/
namespace BuildScript

inductive Kind where
  | literal | string | ident | binary | unary | paren | list | call | dot | load
deriving Repr, DecidableEq

namespace Kind

def all : List Kind :=
  [literal, string, ident, binary, unary, paren, list, call, dot, load]

def text : Kind → String
  | literal => "literal"
  | string => "string"
  | ident => "identifier"
  | binary => "binary expression"
  | unary => "unary expression"
  | paren => "parenthesized expression"
  | list => "list"
  | call => "call"
  | dot => "dot expression"
  | load => "load statement"

end Kind

namespace Shape

def kind {α : Type} : Shape α → Kind
  | literal _ => .literal
  | string _ => .string
  | ident _ => .ident
  | binary _ _ _ => .binary
  | unary _ _ => .unary
  | paren _ => .paren
  | list _ => .list
  | call _ _ => .call
  | dot _ _ => .dot
  | load _ _ => .load

end Shape

namespace Expr

def kind (e : Expr) : Kind := e.shape.kind

/-- A leaf is known by its text, an operator by its symbol, and a bracket by the number of its
children. -/
def label (e : Expr) : String :=
  match e.shape with
  | .literal t => t
  | .string v => v
  | .ident n => n
  | .binary op _ _ => op.symbol
  | .unary op _ => op.symbol
  | .paren _ => "()"
  | .list _ => "[" ++ toString e.childCount ++ "]"
  | .call _ _ => "call/" ++ toString e.childCount
  | .dot _ n => "." ++ n
  | .load _ _ => "load/" ++ toString e.childCount

end Expr
end BuildScript
