import BuildScript.Operator
import BuildScript.Parse.Parser
import BuildScript.Text.Classes
import BuildScript.Text.Quoted

/-!
The words of the language: white space and comments, numbers, strings, names and operators. There is
no separate pass over the text that cuts it into words; the grammar asks for the word it can use.
-/
namespace BuildScript.Lexeme
open BuildScript.Parser

/-- Words that are no names. Some have a meaning, the others are kept out of the language. -/
def keywords : List String :=
  ["and", "break", "continue", "def", "elif", "else", "for", "if", "in", "lambda", "load", "not",
    "or", "pass", "return"]

def comment : Parser (List Char) := do
  let _ ← char '#'
  let cs ← many (charWhere (· != '\n'))
  pure ('#' :: cs)

def skip {α : Type} (p : Parser α) : Parser Unit := do
  let _ ← p
  pure ()

/-- What may stand between words on one line. A backslash carries the line over its end. -/
def lineGap : Parser Unit :=
  skip (many (skip (charWhere fun c => c == ' ' || c == '\t' || c == '\r')
    <|> skip (do let _ ← char '\\'; char '\n')
    <|> skip comment))

def gap : Parser Unit :=
  skip (many (skip (charWhere isBlank) <|> skip comment))

def isNumberChar (c : Char) : Bool := c.isAlphanum || c == '.' || c == '_'

def number : Parser String := about "number" do
  let d ← charWhere Char.isDigit
  let ds ← many (charWhere isNumberChar)
  pure (String.ofList (d :: ds))

def escape : Parser Char := do
  let _ ← char '\\'
  choice (escapes.map fun e => do
    let _ ← char e.1
    pure e.2)

/-- A string between two quotes `q`, on one line; the value has the escapes resolved. -/
def quotedBy (q : Char) : Parser (List Char) := do
  let _ ← char q
  let cs ← many (charWhere (fun c => c != q && c != '\\' && c != '\n') <|> escape)
  let _ ← char q
  pure cs

def string : Parser String :=
  about "string" (String.ofList <$> (quotedBy '"' <|> quotedBy '\''))

def isNameStart (c : Char) : Bool := c.isAlpha || c == '_'

def isNameChar (c : Char) : Bool := c.isAlphanum || c == '_'

def word : Parser String := do
  let c ← charWhere isNameStart
  let cs ← many (charWhere isNameChar)
  pure (String.ofList (c :: cs))

def name : Parser String := about "identifier" <| filterMap word fun w =>
  if keywords.contains w then .error (.custom ("Unexpected keyword `" ++ w ++ "`")) else .ok w

/-- The word `k` in full: `android` does not begin with `and`. -/
def keyword (k : String) : Parser Unit := filterMap word fun w =>
  if w == k then .ok () else .error .unexpected

def symbol : BinaryOp → Parser Unit
  | .and => keyword "and"
  | .or => keyword "or"
  | .mem => keyword "in"
  | .notMem => do
    keyword "not"
    let _ ← many₁ (oneOf [' ', '\t'])
    keyword "in"
  | op => chars op.symbol.toList

def operator (gap : Parser Unit) (level : Precedence) : Parser BinaryOp :=
  (BinaryOp.longestFirst level).foldr (fun op others => (do symbol op; pure op) <|> others) fail
    <* gap

end BuildScript.Lexeme
