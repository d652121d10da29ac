import BuildScript.Parse.Source
import BuildScript.Rule

/-!
Editing sessions: a script that one step after the other looks at or changes. A step that fails
leaves the script as it was.
-/
namespace BuildScript

/-- A place in a script: a statement and the path down from there. -/
structure Location where
  statement : Nat
  path : Path

inductive Step where
  | parse (source : String)
  | push (e : Expr)
  | pushParsed (source : String)
  | comment (c : Comment)
  | remove (statement : Nat)
  | swap (a b : Nat)
  | get (place : Location)
  | set (place : Location) (e : Expr)
  | setChildren (place : Location) (e : Expr)
  | children (place : Location)
  | respan (place : Location) (span : Option Span)
  | edit (rules : List Rule) (fallible : Bool)
  | strip
  | count
  | script
  | labels
  | render (indent : Indentation)
  | reparse (indent : Indentation)

inductive StepResult where
  | counts (statements comments : Nat)
  | count (n : Nat)
  | node (e : Expr)
  | label (text : String)
  | labels (texts : List String)
  | layout (synthesized : Bool) (span : Option Span)
  | edited (outcome : Except (Halt String) Script) (log : RuleLog)
  | kinds (count : KindCount)
  | script (s : Script)
  | depths (labels : List (Nat × String))
  | text (text : String)

inductive StepError where
  | source (error : Diagnostic ParseError)
  | layout (error : LayoutError)
  | noSlot

namespace Script

def at? (s : Script) (place : Location) : Option Expr := do
  let statement ← s.statements[place.statement]?
  statement.at? place.path

def put? (s : Script) (place : Location) (e : Expr) : Option Script := do
  let statement ← s.statements[place.statement]?
  let statement ← statement.put? place.path e
  pure { s with statements := s.statements.set place.statement statement }

/-- Puts what `f` makes of a node in its place; gives the node as it was as well. -/
def update? (s : Script) (place : Location) (f : Expr → Expr) : Option (Expr × Script) := do
  let old ← s.at? place
  let s ← s.put? place (f old)
  pure (old, s)

end Script

def orNoSlot {α : Type} : Option α → Except StepError α
  | some a => .ok a
  | none => .error .noSlot

namespace Step

def run (s : Script) : Step → Except StepError (StepResult × Script)
  | parse source => do
    let s ← (Script.parse source).mapError .source
    pure (.counts s.statements.length s.comments.length, s)
  | push e =>
    pure (.count (s.statements.length + 1), { s with statements := s.statements ++ [e] })
  | pushParsed source => do
    let e ← (Expr.parse source).mapError .source
    pure (.count (s.statements.length + 1), { s with statements := s.statements ++ [e] })
  | comment c =>
    pure (.count (s.comments.length + 1), { s with comments := s.comments ++ [c] })
  | remove i => do
    let e ← orNoSlot s.statements[i]?
    pure (.node e, { s with statements := s.statements.eraseIdx i })
  | swap a b => do
    let x ← orNoSlot s.statements[a]?
    let y ← orNoSlot s.statements[b]?
    let statements := (s.statements.set a y).set b x
    pure (.labels (statements.map Expr.label), { s with statements })
  | get place => do
    let e ← orNoSlot (s.at? place)
    pure (.node e, s)
  | set place e => do
    let (old, s) ← orNoSlot (s.update? place fun _ => e)
    pure (.label old.label, s)
  | setChildren place e => do
    let (old, s) ← orNoSlot (s.update? place (·.mapChildren fun _ _ => e))
    pure (.labels (old.children.map Expr.label), s)
  | children place => do
    let e ← orNoSlot (s.at? place)
    pure (.labels (e.children.map Expr.label), s)
  | respan place span => do
    let (old, s) ← orNoSlot (s.update? place (·.withSpan span))
    let new := old.withSpan span
    pure (.layout new.isSynthesized new.layoutSpan?, s)
  | edit rules fallible =>
    let (outcome, log) := Rule.edit rules fallible s
    pure (.edited outcome log, match outcome with
      | .ok edited => edited
      | .error _ => s)
  | strip => let (s, removed) := s.stripped; pure (.count removed, s)
  | count => pure (.kinds s.countKinds, s)
  | script => pure (.script s, s)
  | labels => pure (.depths (s.walk.map fun v => (v.ancestors.length, v.node.label)), s)
  | render indent => do
    let text ← (s.render indent).mapError .layout
    pure (.text text, s)
  | reparse indent => do
    let text ← (s.render indent).mapError .layout
    let s ← (Script.parse text).mapError .source
    pure (.text text, s)

end Step

def runSteps (s : Script) : List Step → List (Except StepError StepResult)
  | [] => []
  | step :: steps =>
    match step.run s with
    | .ok (shown, s) => .ok shown :: runSteps s steps
    | .error e => .error e :: runSteps s steps

end BuildScript
