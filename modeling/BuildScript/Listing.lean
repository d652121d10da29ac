import BuildScript.Script

/-!
The listing form of scripts: nested lists in parentheses, in which a pair ends with a point and its
second part, and a pair whose second part is a list is the longer list.
-/
namespace BuildScript

inductive Listing where
  | nil
  | symbol (name : String)
  | number (n : Nat)
  | text (value : String)
  | vector (items : List Listing)
  | pair (first second : Listing)
deriving Repr, Inhabited

namespace Listing

def ofList : List Listing → Listing
  | [] => nil
  | x :: xs => pair x (ofList xs)

def named (name : String) (value : Listing) : Listing := pair (symbol name) value

def ofOption : Option Listing → Listing
  | none => nil
  | some value => ofList [value]

/-- Upper-case hexadecimal with two digits, for the controls. -/
def controlEscape (c : Char) : List Char :=
  let digit (n : Nat) : Char := (Nat.digitChar n).toUpper
  ['\\', 'x', digit (c.toNat / 16), digit (c.toNat % 16), ';']

def escapeChar (c : Char) : List Char :=
  if c = '"' then ['\\', '"']
  else if c = '\\' then ['\\', '\\']
  else if c = '\x07' then ['\\', 'a']
  else if c = '\x08' then ['\\', 'b']
  else if c = '\t' then ['\\', 't']
  else if c = '\n' then ['\\', 'n']
  else if c = '\r' then ['\\', 'r']
  else if c.toNat < 0x20 ∨ c = '\x7f' then controlEscape c
  else [c]

mutual
def print : Listing → List Char
  | nil => ['(', ')']
  | symbol name => name.toList
  | number n => Nat.toDigits 10 n
  | text value => '"' :: value.toList.flatMap escapeChar ++ ['"']
  | vector items => '#' :: '(' :: printItems items ++ [')']
  | pair first second => '(' :: print first ++ printTail second
/-- What follows the first part of a pair, up to the closing parenthesis. -/
def printTail : Listing → List Char
  | nil => [')']
  | pair first second => ' ' :: print first ++ printTail second
  | symbol name => ' ' :: '.' :: ' ' :: name.toList ++ [')']
  | number n => ' ' :: '.' :: ' ' :: Nat.toDigits 10 n ++ [')']
  | text value => ' ' :: '.' :: ' ' :: '"' :: value.toList.flatMap escapeChar ++ ['"', ')']
  | vector items => ' ' :: '.' :: ' ' :: '#' :: '(' :: printItems items ++ [')', ')']
def printItems : List Listing → List Char
  | [] => []
  | item :: items => print item ++ (if items.isEmpty then [] else ' ' :: printItems items)
end

end Listing

namespace Span

def listing (s : Span) : Listing :=
  .ofList [
    .named "from" (.vector [.number s.start.line, .number s.start.column]),
    .named "to" (.vector [.number s.stop.line, .number s.stop.column]),
    .named "char_start" (.number s.start.offset),
    .named "char_end" (.number s.stop.offset)]

end Span

namespace Shape

def listing : Shape Listing → Listing
  | literal token => .named "Literal" (.ofList [.named "token" (.text token)])
  | string value => .named "Str" (.ofList [.named "value" (.text value)])
  | ident name => .named "Ident" (.text name)
  | binary op l r =>
    .named "Binary" (.ofList [.named "left" l, .named "op" (.symbol op.name), .named "right" r])
  | unary op x => .named "Unary" (.ofList [.named "op" (.symbol op.name), .named "operand" x])
  | paren x => .named "Paren" x
  | list xs => .named "List" (.ofList xs)
  | call f xs => .named "Call" (.ofList [.named "callee" f, .named "args" (.ofList xs)])
  | dot x name => .named "Dot" (.ofList [.named "receiver" x, .named "name" (.text name)])
  | load m bs =>
    .named "Load" (.ofList [.named "module" m, .named "args" (.ofList (bs.map fun b =>
      .ofList [.named "from" b.source, .named "to" b.target]))])

end Shape

def Expr.listing : Expr → Listing :=
  Expr.fold fun e below =>
    .ofList [
      .named "span" (.ofOption (e.span.map Span.listing)),
      .named "expr_ty" below.listing]

def Comment.listing (c : Comment) : Listing :=
  .ofList [.named "span" c.span.listing, .named "content" (.text c.content)]

namespace Script

def listing (s : Script) : Listing :=
  .ofList [
    .named "path" (.ofOption (s.path.map .text)),
    .named "stmts" (.ofList (s.statements.map Expr.listing)),
    .named "comments" (.ofList (s.comments.map Comment.listing))]

def dump (s : Script) : String := String.ofList s.listing.print

end Script
end BuildScript
