import BuildScript.Expr.Walk
import BuildScript.Proofs.Parse.Word

/-!
Properties of all nodes of a tree, and the ones that say which trees can be written down: words that
the language has, and numbers that no dot follows.
-/
namespace BuildScript

namespace Shape
variable {α : Type}

def isLexical : Shape α → Bool
  | literal t => Lexeme.isNumber t
  | ident n | dot _ n => Lexeme.isName n
  | load _ _ => false
  | _ => true

def isLiteral : Shape α → Bool
  | literal _ => true
  | _ => false

/-- A dot right behind a number would belong to the number. -/
def isSeparated : Shape Expr → Bool
  | dot x _ => !x.shape.isLiteral
  | _ => true

end Shape

namespace Expr

def Every (test : Expr → Prop) (e : Expr) : Prop := ∀ n ∈ e.preorder, test n

instance (test : Expr → Prop) [DecidablePred test] (e : Expr) : Decidable (e.Every test) :=
  inferInstanceAs (Decidable (∀ n ∈ e.preorder, test n))

theorem every_iff {test : Expr → Prop} {e : Expr} :
    e.Every test ↔ test e ∧ ∀ c ∈ e.children, c.Every test := by
  unfold Every
  rw [preorder_eq, List.forall_mem_cons]
  simp only [List.mem_flatMap, forall_exists_index, and_imp]
  exact and_congr_right fun _ => ⟨fun h c hc n hn => h n c hc hn, fun h n c hc hn => h c hc n hn⟩

theorem Every.below {test : Expr → Prop} {e : Expr} (h : e.Every test) :
    e.Every fun n => n.Every test := by
  induction e using induct with
  | step e ih =>
    refine every_iff.2 ⟨h, fun c hc => ih c hc ((every_iff.1 h).2 c hc)⟩

section Constructors
variable {test : Expr → Prop} {s : Option Span}

theorem every_literal {t : String} :
    Every test ⟨s, .literal t⟩ ↔ test ⟨s, .literal t⟩ := by
  rw [every_iff]
  simp [children, Shape.children]

theorem every_string {v : String} : Every test ⟨s, .string v⟩ ↔ test ⟨s, .string v⟩ := by
  rw [every_iff]
  simp [children, Shape.children]

theorem every_ident {n : String} : Every test ⟨s, .ident n⟩ ↔ test ⟨s, .ident n⟩ := by
  rw [every_iff]
  simp [children, Shape.children]

theorem every_binary {op : BinaryOp} {l r : Expr} :
    Every test ⟨s, .binary op l r⟩ ↔ test ⟨s, .binary op l r⟩ ∧ l.Every test ∧ r.Every test := by
  rw [every_iff]
  simp [children, Shape.children]

theorem every_unary {op : UnaryOp} {x : Expr} :
    Every test ⟨s, .unary op x⟩ ↔ test ⟨s, .unary op x⟩ ∧ x.Every test := by
  rw [every_iff]
  simp [children, Shape.children]

theorem every_paren {x : Expr} :
    Every test ⟨s, .paren x⟩ ↔ test ⟨s, .paren x⟩ ∧ x.Every test := by
  rw [every_iff]
  simp [children, Shape.children]

theorem every_list {xs : List Expr} :
    Every test ⟨s, .list xs⟩ ↔ test ⟨s, .list xs⟩ ∧ ∀ x ∈ xs, x.Every test := by
  rw [every_iff]
  simp [children, Shape.children]

theorem every_call {f : Expr} {xs : List Expr} :
    Every test ⟨s, .call f xs⟩ ↔
      test ⟨s, .call f xs⟩ ∧ f.Every test ∧ ∀ x ∈ xs, x.Every test := by
  rw [every_iff]
  simp [children, Shape.children]

theorem every_dot {x : Expr} {n : String} :
    Every test ⟨s, .dot x n⟩ ↔ test ⟨s, .dot x n⟩ ∧ x.Every test := by
  rw [every_iff]
  simp [children, Shape.children]

end Constructors

/-- Numbers and names are written as the language has them, and no load statement is in the tree. -/
def Lexical : Expr → Prop := Every fun n => n.shape.isLexical = true

def Separated : Expr → Prop := Every fun n => n.shape.isSeparated = true

instance (e : Expr) : Decidable e.Lexical := inferInstanceAs (Decidable (Every _ e))
instance (e : Expr) : Decidable e.Separated := inferInstanceAs (Decidable (Every _ e))

end Expr
def Binding.isWritable (b : Binding Expr) : Bool :=
  match b.source.ident?, b.target.ident? with
  | some source, some target => source == target || Lexeme.isName target
  | _, _ => false

namespace Expr

def isLoad (e : Expr) : Bool :=
  match e.shape with
  | .load origin bindings => origin.string?.isSome && bindings.all Binding.isWritable
  | _ => false

/-- A statement that can be written: a load statement, or an expression without any that is made of
the words of the language. -/
def Legible (e : Expr) : Prop := e.isLoad = true ∨ e.Lexical

/-- A statement that can be written so that it is read as the same. -/
def Writable (e : Expr) : Prop := e.isLoad = true ∨ e.Lexical ∧ e.Separated

instance (e : Expr) : Decidable e.Writable :=
  inferInstanceAs (Decidable (_ ∨ _))

theorem Writable.legible {e : Expr} (h : e.Writable) : e.Legible := h.imp id And.left

theorem string?_eq_some {e : Expr} {v : String} : e.string? = some v ↔ e.shape = .string v := by
  unfold string?
  cases e.shape <;> simp

theorem ident?_eq_some {e : Expr} {n : String} : e.ident? = some n ↔ e.shape = .ident n := by
  unfold ident?
  cases e.shape <;> simp

theorem isWritable_iff {b : Binding Expr} : b.isWritable = true ↔ ∃ source target,
    b.source.shape = .ident source ∧ b.target.shape = .ident target ∧
      (source = target ∨ Lexeme.isName target = true) := by
  unfold Binding.isWritable
  cases hs : b.source.ident? with
  | none =>
    simp only [Bool.false_eq_true, false_iff]
    rintro ⟨source, target, h, -⟩
    rw [ident?_eq_some.2 h] at hs
    cases hs
  | some source =>
    cases ht : b.target.ident? with
    | none =>
      simp only [Bool.false_eq_true, false_iff]
      rintro ⟨_, target, -, h, -⟩
      rw [ident?_eq_some.2 h] at ht
      cases ht
    | some target =>
      simp [ident?_eq_some.1 hs, ident?_eq_some.1 ht]

theorem isLoad_iff {e : Expr} : e.isLoad = true ↔ ∃ origin value bindings,
    e.shape = .load origin bindings ∧ origin.shape = .string value ∧
      ∀ b ∈ bindings, b.isWritable = true := by
  unfold isLoad
  cases e.shape with
  | load origin bindings =>
    show (origin.string?.isSome && bindings.all Binding.isWritable) = true ↔ _
    cases h : origin.string? with
    | none =>
      simp only [Option.isSome_none, Bool.false_and, Bool.false_eq_true, false_iff]
      rintro ⟨_, value, _, heq, hv, -⟩
      cases heq
      rw [string?_eq_some.2 hv] at h
      cases h
    | some value =>
      simp only [Option.isSome_some, Bool.true_and, List.all_eq_true]
      constructor
      · exact fun hall => ⟨origin, value, bindings, rfl, string?_eq_some.1 h, hall⟩
      · rintro ⟨_, _, _, heq, -, hall⟩
        cases heq
        exact hall
  | _ => simp

theorem isLoad_children {e : Expr} (h : e.isLoad = true) :
    ∀ c ∈ e.children, c.children = [] := by
  obtain ⟨origin, value, bindings, hshape, hvalue, hall⟩ := isLoad_iff.1 h
  unfold children
  rw [hshape]
  simp only [Shape.children, List.forall_mem_cons, List.mem_flatMap]
  refine ⟨by rw [hvalue], ?_⟩
  rintro c ⟨b, hb, hc⟩
  obtain ⟨source, target, hs, ht, -⟩ := isWritable_iff.1 (hall b hb)
  simp only [List.mem_cons, List.not_mem_nil, or_false] at hc
  rcases hc with rfl | rfl
  · rw [hs]
  · rw [ht]

theorem separated_of_isLoad {e : Expr} (h : e.isLoad = true) : e.Separated := by
  refine every_iff.2 ⟨?_, fun c hc => every_iff.2 ⟨?_, ?_⟩⟩
  · obtain ⟨origin, value, bindings, hshape, -⟩ := isLoad_iff.1 h
    rw [hshape]
    rfl
  · have hleaf := isLoad_children h c hc
    unfold children at hleaf
    cases hshape : c.shape with
    | dot x n =>
      rw [hshape] at hleaf
      cases hleaf
    | _ => rfl
  · rw [isLoad_children h c hc]
    simp

theorem Writable.separated {e : Expr} (h : e.Writable) : e.Separated :=
  h.elim separated_of_isLoad And.right

end Expr
end BuildScript
