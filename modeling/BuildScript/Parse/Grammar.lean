import BuildScript.Expr.Basic
import BuildScript.Parse.Lexeme
import BuildScript.Script

/-!
The grammar. Each level of operators is built on the next tighter one. Outside of brackets the end
of a line ends the statement, inside it is a gap like any other: an expression is read with the gap
that may stand between its words, and with a parser for what stands in brackets below it.
-/
namespace BuildScript.Grammar
open BuildScript.Parser BuildScript.Lexeme

def nodeAt (shape : Shape Expr) (span : Span) : Expr := ⟨some span, shape⟩

def joined (left : Expr) (op : BinaryOp) (right : Expr) : Expr :=
  ⟨(left.span.bind fun l => right.span.map l.cover), .binary op left right⟩

def signed (op : UnaryOp) (sign : Span) (operand : Expr) : Expr :=
  ⟨operand.span.map sign.cover, .unary op operand⟩

def leftChain (gap : Parser Unit) (operand : Parser Expr) (level : Precedence) : Parser Expr := do
  let first ← operand
  let others ← many do
    let op ← operator gap level
    let right ← operand
    pure (op, right)
  pure (others.foldl (fun left r => joined left r.1 r.2) first)

/-- At most one operator of a level. -/
def single (gap : Parser Unit) (operand : Parser Expr) (level : Precedence) : Parser Expr := do
  let left ← operand
  let other ← Parser.optional do
    let op ← operator gap level
    let right ← operand
    pure (op, right)
  pure (match other with
    | some (op, right) => joined left op right
    | none => left)

/-- Any number of signs before an operand; the last one binds first. -/
def signs (gap : Parser Unit) (sign : Parser UnaryOp) (operand : Parser Expr) : Parser Expr := do
  let found ← many (spanned sign <* gap)
  let x ← operand
  pure (found.foldr (fun s x => signed s.1 s.2 x) x)

/-- A bracket and the gap behind it, in which lines do not matter. -/
def opening (bracket : Char) : Parser Unit := do
  let _ ← char bracket
  gap

def comma : Parser Unit := opening ','

def items (nested : Parser Expr) : Parser (List Expr) := separated nested comma

/-- What can follow an operand: the arguments of a call, or a name behind a dot. -/
inductive Suffix where
  | call (args : List Expr)
  | dot (name : String)

def suffixed (receiver : Expr) (suffix : Suffix × Span) : Expr :=
  ⟨receiver.span.map fun s => s.cover suffix.2,
    match suffix.1 with
    | .call args => .call receiver args
    | .dot name => .dot receiver name⟩

section Levels
variable (gap : Parser Unit) (nested : Parser Expr)

def leaf : Parser (Shape Expr) :=
  choice [Shape.literal <$> number, Shape.string <$> string, Shape.ident <$> name]

def parenthesized : Parser (Shape Expr) :=
  Shape.paren <$> (opening '(' *> nested <* char ')')

def bracketed : Parser (Shape Expr) :=
  Shape.list <$> (opening '[' *> items nested <* char ']')

def atom : Parser Expr := do
  let found ← spanned (choice [leaf, parenthesized nested, bracketed nested])
  gap
  pure (nodeAt found.1 found.2)

def callSuffix : Parser Suffix :=
  Suffix.call <$> (opening '(' *> items nested <* char ')')

def dotSuffix : Parser Suffix := do
  let _ ← char '.'
  gap
  Suffix.dot <$> name

def operand : Parser Expr := do
  let first ← atom gap nested
  let suffixes ← many (spanned (callSuffix nested <|> dotSuffix gap) <* gap)
  pure (suffixes.foldl suffixed first)

def sign : Parser UnaryOp :=
  choice [char '-' *> pure .neg, char '+' *> pure .pos, char '~' *> pure .inv]

/-- The levels between the signs and the comparisons, tightest first. -/
def arithmeticLevels : List Precedence := [.multiply, .add, .shift, .bitAnd, .bitXor, .bitOr]

def arithmetic : Parser Expr :=
  arithmeticLevels.foldl (leftChain gap) (signs gap sign (operand gap nested))

def comparison : Parser Expr := single gap (arithmetic gap nested) .compare

def negation : Parser Expr :=
  signs gap (keyword "not" *> pure .not) (comparison gap nested)

/-- An expression, loosest level first, with the gap behind it. -/
def expression : Parser Expr :=
  single gap (leftChain gap (leftChain gap (negation gap nested) .and) .or) .assign

end Levels

/-- An expression in brackets that are nested at most `depth` deep. -/
def nested (depth : Nat) : Parser Expr := fun c =>
  match depth with
  | 0 => fail c
  | depth + 1 => expression gap (nested depth) c

def binding : Parser (Binding Expr) :=
  (do
    let (target, targetSpan) ← spanned name
    gap
    let _ ← char '='
    gap
    let (source, sourceSpan) ← spanned string
    pure ⟨nodeAt (.ident source) sourceSpan, nodeAt (.ident target) targetSpan⟩)
  <|> (do
    let (both, span) ← spanned string
    pure ⟨nodeAt (.ident both) span, nodeAt (.ident both) span⟩)

def load : Parser Expr := about "load statement" do
  let (shape, span) ← spanned do
    keyword "load"
    gap
    let _ ← char '('
    gap
    let (origin, originSpan) ← spanned string
    gap
    let bindings ← many (comma *> binding <* gap)
    let _ ← Parser.optional comma
    let _ ← char ')'
    pure (Shape.load (nodeAt (.string origin) originSpan) bindings)
  pure (nodeAt shape span)

def lineEnd : Parser Unit := about "end of line" (skip (char '\n') <|> endOfInput)

def statement (depth : Nat) : Parser Expr :=
  (load <* lineGap) <|> expression lineGap (nested depth)

def statements (depth : Nat) : Parser (List Expr) :=
  gap *> many (statement depth <* lineEnd <* gap) <* endOfInput

def soleExpression (depth : Nat) : Parser Expr :=
  gap *> nested depth <* endOfInput

/-- A comment, or else a string or any other character, so that a `#` in a string begins none. -/
def commentOrOther : Parser (Option Comment) :=
  (do
    let (text, span) ← spanned comment
    pure (some ⟨span, String.ofList (trimEnd text)⟩))
  <|> (do
    skip string <|> skip (charWhere fun _ => true)
    pure none)

end BuildScript.Grammar
