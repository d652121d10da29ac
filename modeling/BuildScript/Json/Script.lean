import BuildScript.Json.Value
import BuildScript.Script

/-!
The JSON form of scripts. Records are objects; a node names its shape by the only field of an
object; operators go by their names. Reading accepts all that writing produces and, for records,
arrays too. Operators, calls and names behind a dot are no records of their own but belong to the
node, and their content is an object.
-/
namespace BuildScript

namespace Span

def toJson (s : Span) : Json :=
  .object [
    ("from", .array [.ofNat s.start.line, .ofNat s.start.column]),
    ("to", .array [.ofNat s.stop.line, .ofNat s.stop.column]),
    ("char_start", .ofNat s.start.offset),
    ("char_end", .ofNat s.stop.offset)]

def placeOfJson? (value : Json) : Option (Nat × Nat) := do
  let [line, column] ← value.array? | none
  pure (← line.natural?, ← column.natural?)

def ofJson? (value : Json) : Option Span := do
  let [start, stop, first, last] ← value.record?
    [⟨"from", false⟩, ⟨"to", false⟩, ⟨"char_start", false⟩, ⟨"char_end", false⟩] | none
  let start ← placeOfJson? start
  let stop ← placeOfJson? stop
  let first ← first.natural?
  let last ← last.natural?
  pure ⟨⟨start.1, start.2, first⟩, ⟨stop.1, stop.2, last⟩⟩

end Span

namespace Shape

def toJson : Shape Json → Json
  | literal token => .object [("Literal", .object [("token", .string token)])]
  | string value => .object [("Str", .object [("value", .string value)])]
  | ident name => .object [("Ident", .string name)]
  | binary op l r =>
    .object [("Binary", .object [("left", l), ("op", .string op.name), ("right", r)])]
  | unary op x => .object [("Unary", .object [("op", .string op.name), ("operand", x)])]
  | paren x => .object [("Paren", x)]
  | list xs => .object [("List", .array xs)]
  | call f xs => .object [("Call", .object [("callee", f), ("args", .array xs)])]
  | dot x name => .object [("Dot", .object [("receiver", x), ("name", .string name)])]
  | load m bs =>
    .object [("Load", .object [("module", m), ("args", .array (bs.map fun b =>
      .object [("from", b.source), ("to", b.target)]))])]

def ofJson? {α : Type} (child : Json → Option α) (value : Json) : Option (Shape α) :=
  match value with
  | .object [(tag, content)] =>
    match tag with
    | "Literal" => do
      let [token] ← content.record? [⟨"token", false⟩] | none
      pure (literal (← token.string?))
    | "Str" => do
      let [value] ← content.record? [⟨"value", false⟩] | none
      pure (string (← value.string?))
    | "Ident" => do
      pure (ident (← content.string?))
    | "Binary" => do
      let [l, op, r] ← content.fields? [⟨"left", false⟩, ⟨"op", false⟩, ⟨"right", false⟩] | none
      let l ← child l
      let op ← op.variantName?.bind BinaryOp.ofName?
      let r ← child r
      pure (binary op l r)
    | "Unary" => do
      let [op, x] ← content.fields? [⟨"op", false⟩, ⟨"operand", false⟩] | none
      let op ← op.variantName?.bind UnaryOp.ofName?
      let x ← child x
      pure (unary op x)
    | "Paren" => do
      pure (paren (← child content))
    | "List" => do
      let items ← content.array?
      pure (list (← items.mapM child))
    | "Call" => do
      let [f, xs] ← content.fields? [⟨"callee", false⟩, ⟨"args", false⟩] | none
      let f ← child f
      let xs ← xs.array?
      pure (call f (← xs.mapM child))
    | "Dot" => do
      let [x, name] ← content.fields? [⟨"receiver", false⟩, ⟨"name", false⟩] | none
      let x ← child x
      pure (dot x (← name.string?))
    | "Load" => do
      let [m, bs] ← content.record? [⟨"module", false⟩, ⟨"args", false⟩] | none
      let m ← child m
      let bs ← bs.array?
      let bs ← bs.mapM fun b => do
        let [source, target] ← b.record? [⟨"from", false⟩, ⟨"to", false⟩] | none
        pure ⟨← child source, ← child target⟩
      pure (load m bs)
    | _ => none
  | _ => none

end Shape

namespace Expr

def toJson : Expr → Json :=
  fold fun e below =>
    .object [("span", .ofOption Span.toJson e.span), ("expr_ty", below.toJson)]

theorem toJson_eq (e : Expr) :
    e.toJson =
      .object [("span", .ofOption Span.toJson e.span), ("expr_ty", (e.shape.map toJson).toJson)] :=
  fold_eq _ e

def ofJson? : Nat → Json → Option Expr
  | 0, _ => none
  | height + 1, value => do
    let [span, shape] ← value.record? [⟨"span", true⟩, ⟨"expr_ty", false⟩] | none
    let span ← span.nullable? Span.ofJson?
    let shape ← Shape.ofJson? (ofJson? height) shape
    pure ⟨span, shape⟩

end Expr

namespace Comment

def toJson (c : Comment) : Json :=
  .object [("span", c.span.toJson), ("content", .string c.content)]

def ofJson? (value : Json) : Option Comment := do
  let [span, content] ← value.record? [⟨"span", false⟩, ⟨"content", false⟩] | none
  let span ← Span.ofJson? span
  let content ← content.string?
  pure ⟨span, content⟩

end Comment

mutual
def Json.depth : Json → Nat
  | .array items => Json.depthAll items + 1
  | .object fields => Json.depthFields fields + 1
  | _ => 1
def Json.depthAll : List Json → Nat
  | [] => 0
  | x :: xs => max x.depth (Json.depthAll xs)
def Json.depthFields : List (String × Json) → Nat
  | [] => 0
  | (_, x) :: xs => max x.depth (Json.depthFields xs)
end

namespace Script

def toJson (s : Script) : Json :=
  .object [
    ("path", .ofOption .string s.path),
    ("stmts", .array (s.statements.map Expr.toJson)),
    ("comments", .array (s.comments.map Comment.toJson))]

/-- Every node of a tree is nested deeper than its parent, so the depth of the value bounds the
height of all trees in it. -/
def ofJson? (value : Json) : Option Script := do
  let [path, statements, comments] ← value.record?
    [⟨"path", true⟩, ⟨"stmts", false⟩, ⟨"comments", false⟩] | none
  let path ← path.nullable? Json.string?
  let statements ← statements.array?
  let statements ← statements.mapM (Expr.ofJson? value.depth)
  let comments ← comments.array?
  let comments ← comments.mapM Comment.ofJson?
  pure ⟨path, statements, comments⟩

end Script
end BuildScript
