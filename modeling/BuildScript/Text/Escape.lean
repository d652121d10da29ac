import BuildScript.Text.Printable

/-!
Text inside messages. What cannot be shown is written by an escape, so a message stays on one line;
the three styles differ only in which quotes and marks they escape as well.
-/
namespace BuildScript

structure EscapeStyle where
  singleQuote : Bool
  doubleQuote : Bool
  marks : Bool

namespace EscapeStyle

def quotedChar : EscapeStyle := ⟨true, false, true⟩

def quotedText : EscapeStyle := ⟨false, true, true⟩

/-- For a text that may stand between quotes of either kind. -/
def anywhere : EscapeStyle := ⟨true, true, true⟩

def codePoint (c : Char) : List Char :=
  ['\\', 'u', '\x7b'] ++ Nat.toDigits 16 c.toNat ++ ['\x7d']

def escape (style : EscapeStyle) (c : Char) : List Char :=
  if c = '\x00' then ['\\', '0']
  else if c = '\t' then ['\\', 't']
  else if c = '\r' then ['\\', 'r']
  else if c = '\n' then ['\\', 'n']
  else if c = '\\' then ['\\', '\\']
  else if c = '"' ∧ style.doubleQuote then ['\\', '"']
  else if c = '\'' ∧ style.singleQuote then ['\\', '\'']
  else if isMark c ∧ style.marks then codePoint c
  else if isPrintable c then [c]
  else codePoint c

end EscapeStyle

def describeChar (c : Char) : String :=
  String.ofList (['\''] ++ EscapeStyle.quotedChar.escape c ++ ['\''])

def describeText (text : String) : String :=
  String.ofList (['"'] ++ text.toList.flatMap EscapeStyle.quotedText.escape ++ ['"'])

/-- A piece of source text on one line. A mark is escaped only where it has nothing to join, at the
beginning. -/
def describeToken : List Char → List Char
  | [] => []
  | c :: rest =>
    EscapeStyle.anywhere.escape c
      ++ rest.flatMap { EscapeStyle.anywhere with marks := false }.escape

end BuildScript
