import BuildScript.Directory
import BuildScript.Parse.Lexeme
import BuildScript.Text.Utf8

/-!
Errors in reading a source, and how a failure of the grammar becomes one: it is told in terms of the
word that stands where the parse could not go on. A diagnostic is a cause with the place it points
to: the span, the file if it is known, and texts for parts of the source.
-/
namespace BuildScript

structure Diagnostic (ε : Type) where
  cause : ε
  span : Option Span
  file : Option String
  labels : List (Span × String)
deriving Repr

namespace Diagnostic
variable {ε : Type}

def ofCause (cause : ε) : Diagnostic ε := ⟨cause, none, none, []⟩

def here (cause : ε) (span : Span) (text : String) : Diagnostic ε :=
  ⟨cause, some span, none, [(span, text)]⟩

def inFile (d : Diagnostic ε) (file : String) : Diagnostic ε := { d with file := some file }

def display (message : ε → String) (d : Diagnostic ε) : String :=
  let place := [d.file, d.span.map Span.text].filterMap id
  if place.isEmpty then message d.cause
  else ":".intercalate place ++ ": " ++ message d.cause

end Diagnostic

inductive ParseError where
  | unreadable (cause : ReadError)
  | notUtf8 (fault : Utf8.Fault)
  /-- The word found, if the source does not end there, in place of what could stand there. -/
  | unexpected (expected : List Expectation) (found : Option (List Char))
  | keyword (word : String)
  | custom (text : String)
deriving Repr, DecidableEq

def expectedText (expected : List Expectation) : String :=
  match ((expected.map Expectation.text).mergeSort fun a b => decide (a ≤ b)).eraseDups with
  | [] => "something else"
  | [only] => only
  | several => "one of " ++ ", ".intercalate several

def foundText : Option (List Char) → String
  | some token => "`" ++ String.ofList (describeToken token) ++ "`"
  | none => "end of input"

def ParseError.message : ParseError → String
  | unreadable cause => "Could not read file: " ++ cause.message
  | notUtf8 fault => "File is not valid UTF-8: " ++ fault.message
  | unexpected expected found =>
    "Expected " ++ expectedText expected ++ ", found " ++ foundText found
  | keyword word => "Unsupported keyword `" ++ word ++ "`"
  | custom text => text

/-- The word at the beginning of a text, or its first character if that belongs to no word. -/
def tokenOf? : List Char → Option (List Char)
  | [] => none
  | c :: rest => some (if isWordChar c then c :: rest.takeWhile isWordChar else [c])

namespace Failure

def error (source : List Char) (f : Failure) : ParseError :=
  match f.reason with
  | .custom text => .custom text
  | .unexpected =>
    let found := tokenOf? (source.drop f.span.start.offset)
    match found.map String.ofList with
    | some word =>
      if Lexeme.keywords.contains word then .keyword word else .unexpected f.expected found
    | none => .unexpected f.expected found

def diagnostic (source : List Char) (f : Failure) : Diagnostic ParseError :=
  .here (f.error source) f.span (match f.topic with
    | .one name => "While parsing " ++ name
    | .none | .several => "Here")

end Failure
end BuildScript
