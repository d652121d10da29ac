import BuildScript.Expr.Grouping
import BuildScript.Layout.Block

/-!
Edits by rules. The first rule whose tests all hold decides about an offered node. A log keeps what
was offered; once it is long, rules no longer apply, so that every edit by rules comes to an end.
-/
namespace BuildScript

inductive RuleTest where
  | kind (name : String)
  | label (text : String)
  | depth (n : Nat)
  | maxDepth (n : Nat)
  | parent (kind : String)
  | notParent (kind : String)
  | within (kind : String)
  | root (kind : String)
  /-- The number of nodes that were offered before. -/
  | nth (n : Nat)
  | synthesized (value : Bool)

/-- A node that is still to be put in, as seen from the offered one. -/
inductive Hole where
  | self
  | child (i : Nat)
  | parent

inductive Template where
  | hole (hole : Hole)
  | node (span : Option Span) (shape : Shape Template)

instance : Inhabited Template := ⟨.hole .self⟩

inductive RuleAction where
  | fail (message : String)
  /-- Removes all parentheses around the node. -/
  | unwrap
  | replace (template : Template)
  | respan (span : Option Span)
  | keep

structure Rule where
  tests : List RuleTest
  action : RuleAction

structure Offered where
  kind : String
  label : String
  ancestors : List String

structure RuleLog where
  /-- Latest first. -/
  offered : List Offered
  count : Nat
  replaced : Nat

namespace RuleLog

def empty : RuleLog := ⟨[], 0, 0⟩

/-- The longest log with which rules still apply. -/
def limit : Nat := 300

end RuleLog

def Visit.offered (v : Visit) : Offered :=
  ⟨v.node.kind.text, v.node.label, v.ancestors.map Expr.label⟩

namespace RuleTest

/-- `before` is the number of nodes that were offered before. -/
def holds (before : Nat) (v : Visit) : RuleTest → Bool
  | kind name => v.node.kind.text == name
  | label text => v.node.label == text
  | depth n => v.ancestors.length == n
  | maxDepth n => decide (v.ancestors.length ≤ n)
  | parent name => v.ancestors.getLast?.any (·.kind.text == name)
  | notParent name => !v.ancestors.getLast?.any (·.kind.text == name)
  | within name => v.ancestors.any (·.kind.text == name)
  | root name => v.ancestors.head?.any (·.kind.text == name)
  | nth n => before == n
  | synthesized value => v.node.isSynthesized == value

end RuleTest

def Hole.fill? (v : Visit) : Hole → Option Expr
  | self => some v.node
  | child i => v.node.child? i
  | parent => v.ancestors.getLast?

namespace Template

mutual
def fill? (v : Visit) : Template → Option Expr
  | hole h => h.fill? v
  | node span shape => (fillShape? v shape).map (Expr.node span)
def fillShape? (v : Visit) : Shape Template → Option (Shape Expr)
  | .literal t => some (.literal t)
  | .string s => some (.string s)
  | .ident n => some (.ident n)
  | .binary op l r => return .binary op (← fill? v l) (← fill? v r)
  | .unary op x => return .unary op (← fill? v x)
  | .paren x => return .paren (← fill? v x)
  | .list xs => return .list (← fillAll? v xs)
  | .call f xs => return .call (← fill? v f) (← fillAll? v xs)
  | .dot x n => return .dot (← fill? v x) n
  | .load m bs => return .load (← fill? v m) (← fillBindings? v bs)
def fillAll? (v : Visit) : List Template → Option (List Expr)
  | [] => some []
  | x :: xs => return (← fill? v x) :: (← fillAll? v xs)
def fillBindings? (v : Visit) : List (Binding Template) → Option (List (Binding Expr))
  | [] => some []
  | ⟨s, t⟩ :: bs => return ⟨← fill? v s, ← fill? v t⟩ :: (← fillBindings? v bs)
end

mutual
def height : Template → Nat
  | hole _ => 0
  | node _ shape => heightShape shape + 1
def heightShape : Shape Template → Nat
  | .literal _ | .string _ | .ident _ => 0
  | .binary _ l r => max (height l) (height r)
  | .unary _ x | .paren x | .dot x _ => height x
  | .list xs => heightAll xs
  | .call f xs => max (height f) (heightAll xs)
  | .load m bs => max (height m) (heightBindings bs)
def heightAll : List Template → Nat
  | [] => 0
  | x :: xs => max (height x) (heightAll xs)
def heightBindings : List (Binding Template) → Nat
  | [] => 0
  | ⟨s, t⟩ :: bs => max (max (height s) (height t)) (heightBindings bs)
end

end Template

namespace RuleAction

def replacement? (v : Visit) : RuleAction → Option Expr
  | fail _ | keep => none
  | unwrap =>
    let (passed, inner) := v.node.ungrouped
    if passed = 0 then none else some inner
  | replace template => template.fill? v
  | respan span => some (v.node.withSpan span)

def height : RuleAction → Nat
  | replace template => template.height
  | _ => 0

end RuleAction

namespace Rule

/-- The rules as a callback. A rule that fails stops the edit only if the edit is `fallible`. -/
def callback (rules : List Rule) (fallible : Bool) : Callback RuleLog String :=
    fun e ancestors => do
  let visit : Visit := ⟨e, ancestors⟩
  let log ← get
  let count := log.count + 1
  set { log with offered := visit.offered :: log.offered, count }
  let action : RuleAction :=
    if RuleLog.limit < count then .keep
    else
      match rules.find? (·.tests.all (·.holds log.count visit)) with
      | some rule => rule.action
      | none => .keep
  match action with
  | .fail message => if fallible then throw message else pure none
  | _ =>
    match action.replacement? visit with
    | some x =>
      modify fun log => { log with replaced := log.replaced + 1 }
      pure (some x)
    | none => pure none

/-- How deep an edit by rules can go. Putting a copy of a node or of its parent under a template
makes the tree higher by no more than the template and one level, and rules apply only so often. -/
def depthBound (rules : List Rule) (s : Script) : Nat :=
  let added := (rules.map (·.action.height)).foldr max 0 + 1
  (s.statements.map Expr.height).foldr max 0 + (RuleLog.limit + 1) * added + 1

def edit (rules : List Rule) (fallible : Bool) (s : Script) :
    Except (Halt String) Script × RuleLog :=
  (s.edit (callback rules fallible) (depthBound rules s)).run.run .empty

end Rule
end BuildScript
