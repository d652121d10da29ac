/-!
Places in a source text. Lines and columns count from one and offsets from zero, all in characters,
so a place follows from the characters before it and nothing else.
-/
namespace BuildScript

structure Position where
  line : Nat
  column : Nat
  offset : Nat
deriving Repr, DecidableEq, Inhabited

namespace Position

def start : Position := ⟨1, 1, 0⟩

/-- A line feed opens a new line; every other character, a carriage return too, takes one column. -/
def next (p : Position) (c : Char) : Position :=
  if c = '\n' then ⟨p.line + 1, 1, p.offset + 1⟩ else ⟨p.line, p.column + 1, p.offset + 1⟩

def after (p : Position) (text : List Char) : Position :=
  text.foldl next p

@[simp] theorem after_nil (p : Position) : p.after [] = p := rfl

@[simp] theorem after_cons (p : Position) (c : Char) (text : List Char) :
    p.after (c :: text) = (p.next c).after text := rfl

theorem after_append (p : Position) (a b : List Char) : p.after (a ++ b) = (p.after a).after b :=
  List.foldl_append

@[simp] theorem offset_next (p : Position) (c : Char) : (p.next c).offset = p.offset + 1 := by
  unfold next; split <;> rfl

theorem offset_after (p : Position) (text : List Char) :
    (p.after text).offset = p.offset + text.length := by
  induction text generalizing p with
  | nil => rfl
  | cons c text ih => rw [after_cons, ih, offset_next, List.length_cons]; omega

end Position

/-- A stretch of text; `stop` is the place right after its last character. -/
structure Span where
  start : Position
  stop : Position
deriving Repr, DecidableEq, Inhabited

namespace Span

def zero : Span := ⟨⟨0, 0, 0⟩, ⟨0, 0, 0⟩⟩

/-- Lines count from one, so a span on line zero lies in no text. -/
def isEmpty (s : Span) : Bool :=
  s.start.line == 0 && s.stop.line == 0

def isMultiline (s : Span) : Bool :=
  !s.isEmpty && s.start.line != s.stop.line

def cover (first last : Span) : Span := ⟨first.start, last.stop⟩

def text (s : Span) : String :=
  toString s.start.line ++ ":" ++ toString s.start.column ++ ".."
    ++ toString s.stop.line ++ ":" ++ toString s.stop.column

end Span
end BuildScript
