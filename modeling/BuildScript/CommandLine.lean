import BuildScript.Expr.Grouping
import BuildScript.Layout.Block
import BuildScript.Listing
import BuildScript.Parse.Source

/-!
The command line of the formatter: which arguments it takes, what it does with the content of the
file they name, and what it leaves behind in a directory.
-/
namespace BuildScript

structure Options where
  stripParens : Bool
  write : Bool
  check : Bool
  dump : Bool
  indent : Indentation
  path : String
deriving Repr, DecidableEq

/-- The arguments seen so far; every one may be given once. -/
structure Arguments where
  stripParens : Bool
  write : Bool
  check : Bool
  dump : Bool
  tabs : Bool
  indent : Option Nat
  path : Option String

namespace Arguments

def none : Arguments := ⟨false, false, false, false, false, .none, .none⟩

def natural? (text : String) : Option Nat :=
  let digits := match text.toList with
    | '+' :: rest => rest
    | all => all
  if digits.isEmpty || !digits.all Char.isDigit then .none
  else
    let n := digits.foldl (fun n d => n * 10 + (d.toNat - '0'.toNat)) 0
    if n < 0x1_0000_0000_0000_0000 then some n else .none

def setFlag (a : Arguments) : String → Option Arguments
  | "--strip-parens" => if a.stripParens then .none else some { a with stripParens := true }
  | "--write" => if a.write then .none else some { a with write := true }
  | "--check" => if a.check then .none else some { a with check := true }
  | "--dump-ast" => if a.dump then .none else some { a with dump := true }
  | "--tabs" => if a.tabs then .none else some { a with tabs := true }
  | _ => .none

def setIndent (a : Arguments) (value : String) : Option Arguments :=
  match a.indent, natural? value with
  | .none, some n => some { a with indent := some n }
  | _, _ => .none

def setPath (a : Arguments) (path : String) : Option Arguments :=
  if a.path.isSome || path.isEmpty then .none else some { a with path := some path }

def setLetters (a : Arguments) : List Char → Option Arguments
  | [] => some a
  | 'w' :: rest => (a.setFlag "--write").bind (·.setLetters rest)
  | _ :: _ => .none

/-- Reads the arguments up to the end; `none` is a mistake in them. Behind `--`, nothing is an
option any more. -/
def read? (a : Arguments) : List String → Option Arguments
  | [] => some a
  | "--" :: paths => paths.foldlM setPath a
  | "--indent" :: value :: rest => (a.setIndent value).bind (·.read? rest)
  | arg :: rest =>
    if arg.startsWith "--indent=" then
      (a.setIndent (String.ofList (arg.toList.drop 9))).bind (·.read? rest)
    else if arg.startsWith "--" then (a.setFlag arg).bind (·.read? rest)
    else if arg.startsWith "-" && arg != "-" then
      (a.setLetters (arg.toList.drop 1)).bind (·.read? rest)
    else (a.setPath arg).bind (·.read? rest)

end Arguments

namespace Options

def ofArguments? (args : List String) : Option Options := do
  let a ← Arguments.none.read? args
  let path ← a.path
  let indent ← match a.tabs, a.indent with
    | true, some _ => none
    | true, none => some Indentation.tabs
    | false, some n => some (.spaces n)
    | false, none => some default
  pure ⟨a.stripParens, a.write, a.check, a.dump, indent, path⟩

end Options

inductive RunError where
  | unreadable (path : String) (cause : ReadError)
  | notUtf8 (path : String)
  | source (error : Diagnostic ParseError)
  | layout (error : LayoutError)
  | notFormatted (path : String)

def RunError.message : RunError → String
  | unreadable path cause => "Could not read " ++ describeText path ++ ": " ++ cause.message
  | notUtf8 path =>
    "Could not read " ++ describeText path ++ ": stream did not contain valid UTF-8"
  | source error => "Error: " ++ error.cause.message
  | layout error => "Could not format: " ++ error.message
  | notFormatted path => describeText path ++ " is not formatted"

inductive Effect where
  | print (text : String)
  | write (text : String)
  | nothing
deriving Repr, DecidableEq

namespace Options

def run (o : Options) (content : Except ReadError (List UInt8)) : Except RunError Effect := do
  let bytes ← content.mapError (.unreadable o.path)
  let source ← ((Utf8.decode bytes).map String.ofList).mapError fun _ => .notUtf8 o.path
  let script ← (Script.parse source).mapError fun e => .source (e.inFile o.path)
  let script := { script with path := some o.path }
  let script := if o.stripParens then script.stripped.1 else script
  if o.dump then pure (.print (script.dump ++ "\n"))
  else
    let formatted ← (script.render o.indent).mapError .layout
    if o.check then
      if formatted = source then pure .nothing else throw (.notFormatted o.path)
    else if o.write then
      pure (if formatted = source then .nothing else .write formatted)
    else pure (.print formatted)

end Options

/-- What a run shows: nothing is known of the texts about wrong arguments. -/
inductive Outcome where
  | misused
  | finished (code : Nat) (output error : String)
deriving Repr, DecidableEq

namespace Directory

def runCommand (d : Directory) (args : List String) : Outcome × Directory :=
  match Options.ofArguments? args with
  | none => (.misused, d)
  | some o =>
    match o.run (d.read o.path) with
    | .error e => (.finished 1 "" e.message, d)
    | .ok (.print text) => (.finished 0 text "", d)
    | .ok (.write text) => (.finished 0 "" "", d.write o.path (Utf8.encode text))
    | .ok .nothing => (.finished 0 "" "", d)

end Directory
end BuildScript
