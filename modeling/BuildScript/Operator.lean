/-!
Operators and how tightly they bind. The order of `BinaryOp.all` is the order in which operators of
one level are listed; symbols are unique within the binary and within the unary operators.
-/
namespace BuildScript

/-- From loosest to tightest; `primary` is everything that no operator can split. -/
inductive Precedence where
  | assign | or | and | not | compare | bitOr | bitXor | bitAnd | shift | add | multiply | unary
  | primary
deriving Repr, DecidableEq, Inhabited

namespace Precedence

def rank : Precedence → Nat
  | assign => 0
  | or => 1
  | and => 2
  | not => 3
  | compare => 4
  | bitOr => 5
  | bitXor => 6
  | bitAnd => 7
  | shift => 8
  | add => 9
  | multiply => 10
  | unary => 11
  | primary => 12

instance : LT Precedence := ⟨fun p q => p.rank < q.rank⟩
instance : LE Precedence := ⟨fun p q => p.rank ≤ q.rank⟩
instance (p q : Precedence) : Decidable (p < q) := inferInstanceAs (Decidable (p.rank < q.rank))
instance (p q : Precedence) : Decidable (p ≤ q) := inferInstanceAs (Decidable (p.rank ≤ q.rank))

def all : List Precedence :=
  [assign, or, and, not, compare, bitOr, bitXor, bitAnd, shift, add, multiply, unary, primary]

def name : Precedence → String
  | assign => "Assign"
  | or => "Or"
  | and => "And"
  | not => "Not"
  | compare => "Compare"
  | bitOr => "BitOr"
  | bitXor => "BitXor"
  | bitAnd => "BitAnd"
  | shift => "Shift"
  | add => "Add"
  | multiply => "Multiply"
  | unary => "Unary"
  | primary => "Primary"

def ofName? (name : String) : Option Precedence :=
  all.find? (·.name == name)

theorem ofName?_name (p : Precedence) : ofName? p.name = some p := by
  cases p <;> rfl

end Precedence

inductive Side where
  | left | right
deriving Repr, DecidableEq

/-- On which side an operand of the operator's own level needs no grouping. -/
inductive Assoc where
  | left | right | none
deriving Repr, DecidableEq, Inhabited

namespace Assoc

def allows : Assoc → Side → Bool
  | left, .left | right, .right => true
  | _, _ => false

def name : Assoc → String
  | left => "Left"
  | right => "Right"
  | none => "NonAssoc"

end Assoc

inductive UnaryOp where
  | neg | pos | inv | not
deriving Repr, DecidableEq, Inhabited

namespace UnaryOp

def all : List UnaryOp := [neg, pos, inv, not]

def symbol : UnaryOp → String
  | neg => "-"
  | pos => "+"
  | inv => "~"
  | not => "not"

def name : UnaryOp → String
  | neg => "Neg"
  | pos => "Pos"
  | inv => "Inv"
  | not => "Not"

def precedence : UnaryOp → Precedence
  | not => .not
  | neg | pos | inv => .unary

/-- Unary operators stand in front of their operand, so they nest to the right. -/
def assoc (_ : UnaryOp) : Assoc := .right

def ofSymbol? (symbol : String) : Option UnaryOp :=
  all.find? (·.symbol == symbol)

def ofName? (name : String) : Option UnaryOp :=
  all.find? (·.name == name)

theorem ofSymbol?_symbol (op : UnaryOp) : ofSymbol? op.symbol = some op := by
  cases op <;> rfl

theorem ofName?_name (op : UnaryOp) : ofName? op.name = some op := by
  cases op <;> rfl

end UnaryOp

inductive BinaryOp where
  | assign | addAssign | subAssign | mulAssign | divAssign | floorDivAssign | modAssign
  | andAssign | orAssign | xorAssign | shlAssign | shrAssign
  | or | and
  | eq | notEq | lt | gt | lte | gte | mem | notMem
  | bitOr | bitXor | bitAnd | shl | shr
  | add | sub | mul | div | floorDiv | mod
deriving Repr, DecidableEq, Inhabited

namespace BinaryOp

def all : List BinaryOp :=
  [assign, addAssign, subAssign, mulAssign, divAssign, floorDivAssign, modAssign,
    andAssign, orAssign, xorAssign, shlAssign, shrAssign,
    or, and,
    eq, notEq, lt, gt, lte, gte, mem, notMem,
    bitOr, bitXor, bitAnd, shl, shr,
    add, sub, mul, div, floorDiv, mod]

theorem mem_all (op : BinaryOp) : op ∈ all := by
  cases op <;> simp [all]

def symbol : BinaryOp → String
  | assign => "="
  | addAssign => "+="
  | subAssign => "-="
  | mulAssign => "*="
  | divAssign => "/="
  | floorDivAssign => "//="
  | modAssign => "%="
  | andAssign => "&="
  | orAssign => "|="
  | xorAssign => "^="
  | shlAssign => "<<="
  | shrAssign => ">>="
  | or => "or"
  | and => "and"
  | eq => "=="
  | notEq => "!="
  | lt => "<"
  | gt => ">"
  | lte => "<="
  | gte => ">="
  | mem => "in"
  | notMem => "not in"
  | bitOr => "|"
  | bitXor => "^"
  | bitAnd => "&"
  | shl => "<<"
  | shr => ">>"
  | add => "+"
  | sub => "-"
  | mul => "*"
  | div => "/"
  | floorDiv => "//"
  | mod => "%"

def name : BinaryOp → String
  | assign => "Assign"
  | addAssign => "AddAssign"
  | subAssign => "SubAssign"
  | mulAssign => "MulAssign"
  | divAssign => "DivAssign"
  | floorDivAssign => "FloorDivAssign"
  | modAssign => "ModAssign"
  | andAssign => "AndAssign"
  | orAssign => "OrAssign"
  | xorAssign => "XorAssign"
  | shlAssign => "ShlAssign"
  | shrAssign => "ShrAssign"
  | or => "Or"
  | and => "And"
  | eq => "Eq"
  | notEq => "NotEq"
  | lt => "Lt"
  | gt => "Gt"
  | lte => "Lte"
  | gte => "Gte"
  | mem => "In"
  | notMem => "NotIn"
  | bitOr => "BitOr"
  | bitXor => "BitXor"
  | bitAnd => "BitAnd"
  | shl => "Shl"
  | shr => "Shr"
  | add => "Add"
  | sub => "Sub"
  | mul => "Mul"
  | div => "Div"
  | floorDiv => "FloorDiv"
  | mod => "Mod"

def precedence : BinaryOp → Precedence
  | assign | addAssign | subAssign | mulAssign | divAssign | floorDivAssign | modAssign
  | andAssign | orAssign | xorAssign | shlAssign | shrAssign => .assign
  | or => .or
  | and => .and
  | eq | notEq | lt | gt | lte | gte | mem | notMem => .compare
  | bitOr => .bitOr
  | bitXor => .bitXor
  | bitAnd => .bitAnd
  | shl | shr => .shift
  | add | sub => .add
  | mul | div | floorDiv | mod => .multiply

/-- Assignments and comparisons do not chain; every other level groups from the left. -/
def assoc (op : BinaryOp) : Assoc :=
  match op.precedence with
  | .assign | .compare => .none
  | _ => .left

def ofSymbol? (symbol : String) : Option BinaryOp :=
  all.find? (·.symbol == symbol)

def ofName? (name : String) : Option BinaryOp :=
  all.find? (·.name == name)

theorem ofSymbol?_symbol (op : BinaryOp) : ofSymbol? op.symbol = some op := by
  cases op <;> rfl

theorem ofName?_name (op : BinaryOp) : ofName? op.name = some op := by
  cases op <;> rfl

def onLevel (p : Precedence) : List BinaryOp :=
  all.filter (·.precedence == p)

theorem mem_onLevel {p : Precedence} {op : BinaryOp} : op ∈ onLevel p ↔ op.precedence = p := by
  simp [onLevel, mem_all]

/-- The operators of a level by falling symbol length: whoever tries them in this order takes the
longest symbol that fits. Operators of one length keep their order. -/
def longestFirst (p : Precedence) : List BinaryOp :=
  [6, 5, 4, 3, 2, 1].flatMap fun n => (onLevel p).filter (·.symbol.length == n)

theorem mem_longestFirst {p : Precedence} {op : BinaryOp} :
    op ∈ longestFirst p ↔ op.precedence = p := by
  constructor
  · intro h
    simp only [longestFirst, List.mem_flatMap, List.mem_filter] at h
    obtain ⟨_, _, h, _⟩ := h
    exact mem_onLevel.1 h
  · rintro rfl
    cases op <;> decide

end BinaryOp
end BuildScript
