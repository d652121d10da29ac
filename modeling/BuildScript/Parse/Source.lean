import BuildScript.Parse.Error
import BuildScript.Parse.Grammar

/-!
Reading whole sources: a script, a single expression, or a file of a directory.
-/
namespace BuildScript

def Parser.run {α : Type} (p : Parser α) (source : List Char) :
    Except (Diagnostic ParseError) α :=
  match p (.ofText source) with
  | .success a _ _ => .ok a
  | .failure f => .error (f.diagnostic source)

/-- A bracket takes a character, so no text has brackets nested deeper than this. -/
def nestingBound (source : List Char) : Nat := source.length + 1

namespace Script

/-- The comments of a source, wherever they stand. Every character belongs to some piece, so this
reads to the end of any text. -/
def commentsOf (source : List Char) : List Comment :=
  (Parser.runWithin Grammar.commentOrOther source (.ofText source)).1.filterMap id

def parse (source : String) : Except (Diagnostic ParseError) Script :=
  let text := source.toList
  ((Grammar.statements (nestingBound text)).run text).map fun stmts =>
    ⟨none, stmts, commentsOf text⟩

/-- Reads the file that `path` leads to. Errors name the path as it was given. -/
def parseFile (d : Directory) (path : String) : Except (Diagnostic ParseError) Script :=
  let parsed : Except (Diagnostic ParseError) Script :=
    match d.read path with
    | .error cause => .error (.ofCause (.unreadable cause))
    | .ok bytes =>
      match Utf8.decode bytes with
      | .error fault => .error (.ofCause (.notUtf8 fault))
      | .ok text => parse (String.ofList text)
  match parsed with
  | .ok script => .ok { script with path := some path }
  | .error e => .error (e.inFile path)

end Script

def Expr.parse (source : String) : Except (Diagnostic ParseError) Expr :=
  let text := source.toList
  (Grammar.soleExpression (nestingBound text)).run text

end BuildScript
