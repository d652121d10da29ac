import BuildScript.Layout.Print
import BuildScript.Script

/-!
Printing scripts. Comments find their place by the lines of the source: a comment on the last line
of a statement stays behind that statement, every other one stands on a line of its own before the
next statement, also one from inside of a statement. Blank lines between two entries become one.
-/
namespace BuildScript

inductive Entry where
  | comment (c : Comment)
  /-- A statement, with the comment behind it if there is one. -/
  | statement (layout : Layout) (trailing : Option Comment)

/-- An entry and the lines it counts for in the source, from the first to the last. -/
structure Placed where
  entry : Entry
  lines : Option (Nat × Nat)

namespace Placed

def ownLine (line : Nat) (c : Comment) : Placed := ⟨.comment c, some (line, line)⟩

end Placed

def Comment.line (c : Comment) : Nat := c.span.start.line

/-- The entries for statements with their layouts, in order, among comments in order. A statement
that no source holds leaves the comments to the statements behind it. -/
def place : List (Expr × Layout) → List Comment → List Placed
  | [], comments => comments.map fun c => .ownLine c.line c
  | (e, layout) :: others, comments =>
    match e.layoutSpan? with
    | none => ⟨.statement layout none, none⟩ :: place others comments
    | some span =>
      let before := comments.takeWhile fun c => c.line < span.start.line
      let comments := comments.dropWhile fun c => c.line < span.start.line
      let inside := comments.takeWhile fun c => c.line < span.stop.line
      let comments := comments.dropWhile fun c => c.line < span.stop.line
      let lines := some (span.start.line, span.stop.line)
      before.map (fun c => .ownLine c.line c) ++ inside.map (.ownLine span.start.line) ++
        match comments with
        | [] => ⟨.statement layout none, lines⟩ :: place others []
        | c :: rest =>
          if c.line = span.stop.line then
            ⟨.statement layout (some c), lines⟩ :: place others rest
          else ⟨.statement layout none, lines⟩ :: place others (c :: rest)

/-- The number of the next line. Line numbers take 64 bits and start over behind the last one. -/
def lineAfter (line : Nat) : Nat := (line + 1) % 0x1_0000_0000_0000_0000

theorem lineAfter_eq {line : Nat} (h : line + 1 < 0x1_0000_0000_0000_0000) :
    lineAfter line = line + 1 :=
  Nat.mod_eq_of_lt h

/-- Whether a blank line stands before an entry, if the entry before it ended on line `last`. -/
def gapBetween (last : Option Nat) (lines : Option (Nat × Nat)) : Bool :=
  match last, lines with
  | some last, some (first, _) => decide (lineAfter last < first)
  | _, _ => false

def Entry.print (indent : Indentation) : Entry → List Char
  | comment c => c.content.toList
  | statement layout none => layout.print indent 0
  | statement layout (some c) => layout.print indent 0 ++ ' ' :: ' ' :: c.content.toList

def printEntries (indent : Indentation) : Option Nat → List Placed → List Char
  | _, [] => []
  | last, p :: ps =>
    (if gapBetween last p.lines then ['\n'] else []) ++ p.entry.print indent ++
      '\n' :: printEntries indent (p.lines.map Prod.snd) ps

namespace Script

def entries (s : Script) : Except LayoutError (List Placed) :=
  (s.statements.mapM Layout.ofExpr).map fun layouts =>
    place (s.statements.zip layouts) s.comments

def render (indent : Indentation) (s : Script) : Except LayoutError String :=
  s.entries.map fun placed => String.ofList (printEntries indent none placed)

end Script
end BuildScript
