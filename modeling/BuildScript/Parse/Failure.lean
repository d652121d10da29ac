import BuildScript.Span
import BuildScript.Text.Escape

/-!
Why a parser could not go on. Failures met on different ways through the grammar are joined: the one
that got furthest counts, and those that got equally far add up what they expected.
-/
namespace BuildScript

inductive Expectation where
  | char (c : Char)
  | endOfInput
deriving Repr, DecidableEq

def Expectation.text : Expectation → String
  | char c => describeChar c
  | endOfInput => "end of input"

inductive Reason where
  | unexpected
  | custom (text : String)
deriving Repr, DecidableEq

/-- The part of the grammar a failure belongs to; different parts at one place leave it open. -/
inductive Topic where
  | none
  | one (name : String)
  | several
deriving Repr, DecidableEq

def Topic.join : Topic → Topic → Topic
  | none, t | t, none => t
  | one a, one b => if a = b then one a else several
  | several, _ | _, several => several

structure Failure where
  /-- How many characters were read before. -/
  reach : Nat
  span : Span
  reason : Reason
  expected : List Expectation
  topic : Topic
deriving Repr, DecidableEq

namespace Failure

/-- The failure that got further. On a tie the place and the reason are those of `x`. -/
def furthest (x y : Failure) : Failure :=
  if y.reach < x.reach then x
  else if x.reach < y.reach then y
  else { x with
    expected := x.expected ++ y.expected.filter fun e => !x.expected.contains e
    topic := x.topic.join y.topic }

/-- Joins what was met earlier with what was met later; on a tie the later one leads. -/
def join : Option Failure → Option Failure → Option Failure
  | none, f | f, none => f
  | some a, some b => some (b.furthest a)

/-- Names the part of the grammar, unless a smaller part has been named already. -/
def about (name : String) (f : Failure) : Failure :=
  match f.topic with
  | .one _ => f
  | .none | .several => { f with topic := .one name }

@[simp] theorem join_none_right (f : Option Failure) : join f none = f := by
  cases f <;> rfl

@[simp] theorem join_none_left (f : Option Failure) : join none f = f := by
  cases f <;> rfl

end Failure
end BuildScript
