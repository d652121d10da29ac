import BuildScript.Layout.Tree

/-!
Printing a layout. Only a sequence that is broken begins new lines: each item and the closing
bracket have one of their own, and the items stand one level deeper.
-/
namespace BuildScript

inductive Indentation where
  | tabs
  /-- So many spaces for each level. -/
  | spaces (count : Nat)
deriving Repr, DecidableEq

namespace Indentation

instance : Inhabited Indentation := ⟨.spaces 4⟩

def margin : Indentation → Nat → List Char
  | tabs, level => List.replicate level '\t'
  | spaces count, level => List.replicate (count * level) ' '

end Indentation

namespace Layout
variable (indent : Indentation)

mutual
def print (level : Nat) : Layout → List Char
  | token text => text.toList
  | joined parts => printAll level parts
  | unary symbol operand => symbol.toList ++ print level operand
  | binary symbol left right =>
    print level left ++ ' ' :: symbol.toList ++ ' ' :: print level right
  | wrapped bracket body => bracket.opening :: print level body ++ [bracket.closing]
  | sequence bracket items multiline trailing =>
    bracket.opening ::
      (if multiline && !items.isEmpty then
        printLines (level + 1) trailing items ++ '\n' :: indent.margin level
      else printInline level items)
    ++ [bracket.closing]
def printAll (level : Nat) : List Layout → List Char
  | [] => []
  | part :: parts => print level part ++ printAll level parts
def printInline (level : Nat) : List Layout → List Char
  | [] => []
  | item :: items =>
    print level item
      ++ (if items.isEmpty then [] else ',' :: ' ' :: printInline level items)
def printLines (level : Nat) (trailing : Bool) : List Layout → List Char
  | [] => []
  | item :: items =>
    '\n' :: indent.margin level ++ print level item ++ (if trailing then [','] else [])
      ++ printLines level trailing items
end

end Layout

def Expr.render (indent : Indentation) (e : Expr) : Except LayoutError String :=
  (Layout.ofExpr e).map fun layout => String.ofList (layout.print indent 0)

end BuildScript
