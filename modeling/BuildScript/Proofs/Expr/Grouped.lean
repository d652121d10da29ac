import BuildScript.Layout.Tree
import BuildScript.Proofs.Expr.Every
import BuildScript.Proofs.Expr.Slot

/-!
Which operands need parentheses, and the trees that have them all. `grouped` puts a parenthesis
around each operand that is printed in one; what it makes is a tree in which no operand needs one
(`grouped_grouped`), and such a tree it leaves alone (`Grouped.grouped_eq_self`).
-/
namespace BuildScript

theorem Precedence.rank_inj {p q : Precedence} : p.rank = q.rank ↔ p = q := by
  constructor
  · cases p <;> cases q <;> first | intro _; rfl | decide
  · exact congrArg _

structure Demand where
  operator : Precedence
  assoc : Assoc
  side : Side
deriving DecidableEq

namespace Shape
variable {α β : Type}

def demand? : Shape α → Nat → Option Demand
  | binary op _ _, 0 => some ⟨op.precedence, op.assoc, .left⟩
  | binary op _ _, 1 => some ⟨op.precedence, op.assoc, .right⟩
  | unary op _, 0 => some ⟨op.precedence, op.assoc, .right⟩
  | call _ _, 0 | dot _ _, 0 => some ⟨.primary, .left, .left⟩
  | _, _ => none

def wraps (s : Shape α) (i : Nat) (x : Expr) : Bool :=
  (s.demand? i).any fun d => needsParens x.precedence d.operator d.assoc d.side

theorem demand?_map (f : α → β) (s : Shape α) (i : Nat) : (s.map f).demand? i = s.demand? i := by
  cases s <;> rcases i with _ | _ | i <;> rfl

theorem demand?_mapIdx (f : Nat → α → β) (s : Shape α) (i : Nat) :
    (s.mapIdx f).demand? i = s.demand? i := by
  cases s <;> rcases i with _ | _ | i <;> rfl

theorem wraps_map (f : α → β) (s : Shape α) (i : Nat) (x : Expr) :
    (s.map f).wraps i x = s.wraps i x := by
  rw [wraps, demand?_map, wraps]

theorem wraps_mapIdx (f : Nat → α → β) (s : Shape α) (i : Nat) (x : Expr) :
    (s.mapIdx f).wraps i x = s.wraps i x := by
  rw [wraps, demand?_mapIdx, wraps]

theorem wraps_congr (s : Shape α) (i : Nat) {x y : Expr} (h : x.precedence = y.precedence) :
    s.wraps i x = s.wraps i y := by
  rw [wraps, wraps, h]

theorem wraps_primary (s : Shape α) (i : Nat) {x : Expr} (h : x.precedence = .primary) :
    s.wraps i x = false := by
  unfold wraps
  rw [h]
  cases s with
  | binary op l r => cases op <;> rcases i with _ | _ | i <;> rfl
  | unary op x => cases op <;> rcases i with _ | i <;> rfl
  | _ => rcases i with _ | i <;> rfl

end Shape

theorem needsParens_left {p : Precedence} {op : BinaryOp} :
    needsParens p op.precedence op.assoc .left = false ↔
      op.precedence.rank ≤ p.rank ∧ (op.assoc = .none → op.precedence.rank < p.rank) := by
  rw [← Nat.not_lt]
  unfold needsParens
  by_cases hp : p = op.precedence
  · subst hp
    cases op <;> decide
  · have hr : p.rank ≠ op.precedence.rank := fun h => hp (Precedence.rank_inj.1 h)
    have hlt : p < op.precedence ↔ p.rank < op.precedence.rank := Iff.rfl
    simp only [beq_eq_false_iff_ne.2 hp, Bool.false_and, Bool.or_false, decide_eq_false_iff_not,
      hlt]
    omega

theorem needsParens_right {p : Precedence} {op : BinaryOp} :
    needsParens p op.precedence op.assoc .right = false ↔ op.precedence.rank < p.rank := by
  unfold needsParens
  by_cases hp : p = op.precedence
  · subst hp
    cases op <;> decide
  · have hr : p.rank ≠ op.precedence.rank := fun h => hp (Precedence.rank_inj.1 h)
    have hlt : p < op.precedence ↔ p.rank < op.precedence.rank := Iff.rfl
    simp only [beq_eq_false_iff_ne.2 hp, Bool.false_and, Bool.or_false, decide_eq_false_iff_not,
      hlt]
    omega

theorem needsParens_unary {p : Precedence} {op : UnaryOp} :
    needsParens p op.precedence op.assoc .right = false ↔ op.precedence.rank ≤ p.rank := by
  have hlt : p < op.precedence ↔ p.rank < op.precedence.rank := Iff.rfl
  simp only [needsParens, UnaryOp.assoc, Assoc.allows, Bool.not_true, Bool.and_false,
    Bool.or_false, decide_eq_false_iff_not, hlt, Nat.not_lt]

theorem needsParens_primary {p : Precedence} :
    needsParens p .primary .left .left = false ↔ p = .primary := by
  cases p <;> decide

namespace Expr

/-- No operand in the tree needs parentheses that it does not have. -/
def Grouped : Expr → Prop :=
  Every fun n => ∀ i x, n.child? i = some x → n.shape.wraps i x = false

theorem every_slots_iff {test : Expr → Nat → Expr → Prop} {e : Expr} :
    e.Every (fun n => ∀ i x, n.child? i = some x → test n i x) ↔
      ∀ i x, e.child? i = some x →
        test e i x ∧ x.Every fun n => ∀ i x, n.child? i = some x → test n i x := by
  rw [every_iff]
  constructor
  · rintro ⟨hw, hc⟩ i x hx
    exact ⟨hw i x hx, hc x (Shape.mem_children.2 ⟨i, hx⟩)⟩
  · intro h
    refine ⟨fun i x hx => (h i x hx).1, fun x hx => ?_⟩
    obtain ⟨i, hi⟩ := Shape.mem_children.1 hx
    exact (h i x hi).2

theorem grouped_iff {e : Expr} : e.Grouped ↔
    ∀ i x, e.child? i = some x → e.shape.wraps i x = false ∧ x.Grouped :=
  every_slots_iff

section Constructors
variable {s : Option Span}

theorem grouped_leaf {shape : Shape Expr} (h : shape.children = []) : Grouped ⟨s, shape⟩ := by
  rw [grouped_iff]
  intro i x hx
  rw [child?, Shape.child?_eq, h] at hx
  cases hx

theorem grouped_binary {op : BinaryOp} {l r : Expr} : Grouped ⟨s, .binary op l r⟩ ↔
    (op.precedence.rank ≤ l.precedence.rank ∧
        (op.assoc = .none → op.precedence.rank < l.precedence.rank)) ∧
      op.precedence.rank < r.precedence.rank ∧ l.Grouped ∧ r.Grouped := by
  unfold Grouped
  rw [every_binary, ← needsParens_left, ← needsParens_right, ← and_assoc (c := _ ∧ _)]
  refine and_congr_left fun _ => ⟨fun h => ⟨h 0 l rfl, h 1 r rfl⟩, ?_⟩
  rintro ⟨hl, hr⟩ (_ | _ | i) x hx <;> cases hx
  · exact hl
  · exact hr

theorem grouped_unary {op : UnaryOp} {x : Expr} : Grouped ⟨s, .unary op x⟩ ↔
    op.precedence.rank ≤ x.precedence.rank ∧ x.Grouped := by
  unfold Grouped
  rw [every_unary, ← needsParens_unary]
  refine and_congr_left fun _ => ⟨fun h => h 0 x rfl, ?_⟩
  rintro hx (_ | i) y hy <;> cases hy
  exact hx

theorem grouped_paren {x : Expr} : Grouped ⟨s, .paren x⟩ ↔ x.Grouped := by
  unfold Grouped
  rw [every_paren]
  apply and_iff_right
  rintro (_ | i) y hy <;> cases hy
  rfl

theorem grouped_list {xs : List Expr} : Grouped ⟨s, .list xs⟩ ↔ ∀ x ∈ xs, x.Grouped := by
  unfold Grouped
  rw [every_list]
  exact and_iff_right fun _ _ _ => rfl

theorem grouped_call {f : Expr} {xs : List Expr} : Grouped ⟨s, .call f xs⟩ ↔
    f.precedence = .primary ∧ f.Grouped ∧ ∀ x ∈ xs, x.Grouped := by
  unfold Grouped
  rw [every_call, ← needsParens_primary]
  refine and_congr_left fun _ => ⟨fun h => h 0 f rfl, ?_⟩
  rintro hf (_ | i) y hy
  · cases hy
    exact hf
  · rfl

theorem grouped_dot {x : Expr} {n : String} : Grouped ⟨s, .dot x n⟩ ↔
    x.precedence = .primary ∧ x.Grouped := by
  unfold Grouped
  rw [every_dot, ← needsParens_primary]
  refine and_congr_left fun _ => ⟨fun h => h 0 x rfl, ?_⟩
  rintro hx (_ | i) y hy <;> cases hy
  exact hx

end Constructors

def wrappedIf (needed : Bool) (e : Expr) : Expr := if needed then paren e else e

/-- The tree with a parenthesis around each operand that needs one. -/
def grouped : Expr → Expr :=
  fold fun e below => ⟨e.span, below.mapIdx fun i x => wrappedIf (below.wraps i x) x⟩

@[simp] theorem precedence_grouped (e : Expr) : e.grouped.precedence = e.precedence := by
  unfold grouped
  rw [fold_eq]
  unfold precedence
  cases e.shape <;> rfl

theorem grouped_eq (e : Expr) : e.grouped =
    ⟨e.span, e.shape.mapIdx fun i x => wrappedIf (e.shape.wraps i x) x.grouped⟩ := by
  have key (i : Nat) (x : Expr) :
      (e.shape.map grouped).wraps i x.grouped = e.shape.wraps i x := by
    rw [Shape.wraps_map, Shape.wraps_congr _ _ (precedence_grouped x)]
  calc e.grouped
      = ⟨e.span, (e.shape.map grouped).mapIdx
          fun i x => wrappedIf ((e.shape.map grouped).wraps i x) x⟩ := fold_eq _ e
    _ = _ := by rw [Shape.mapIdx_map]; simp only [key]

section Equations
variable {s : Option Span}

theorem grouped_eq_binary {op : BinaryOp} {l r : Expr} : grouped ⟨s, .binary op l r⟩ =
    ⟨s, .binary op (wrappedIf (needsParens l.precedence op.precedence op.assoc .left) l.grouped)
      (wrappedIf (needsParens r.precedence op.precedence op.assoc .right) r.grouped)⟩ :=
  grouped_eq _

theorem grouped_eq_unary {op : UnaryOp} {x : Expr} : grouped ⟨s, .unary op x⟩ =
    ⟨s, .unary op
      (wrappedIf (needsParens x.precedence op.precedence op.assoc .right) x.grouped)⟩ :=
  grouped_eq _

theorem grouped_eq_paren {x : Expr} : grouped ⟨s, .paren x⟩ = ⟨s, .paren x.grouped⟩ :=
  grouped_eq _

theorem grouped_eq_list {xs : List Expr} :
    grouped ⟨s, .list xs⟩ = ⟨s, .list (xs.map grouped)⟩ := by
  rw [grouped_eq, ← Shape.mapIdx_const]
  rfl

theorem grouped_eq_call {f : Expr} {xs : List Expr} : grouped ⟨s, .call f xs⟩ =
    ⟨s, .call (wrappedIf (needsParens f.precedence .primary .left .left) f.grouped)
      (xs.map grouped)⟩ := by
  rw [grouped_eq, ← Shape.mapIdx_const]
  rfl

theorem grouped_eq_dot {x : Expr} {n : String} : grouped ⟨s, .dot x n⟩ =
    ⟨s, .dot (wrappedIf (needsParens x.precedence .primary .left .left) x.grouped) n⟩ :=
  grouped_eq _

end Equations

theorem wrappedIf_grouped {needed : Bool} {e : Expr} (h : e.Grouped) :
    (wrappedIf needed e).Grouped := by
  cases needed
  · exact h
  · exact grouped_paren.2 h

theorem grouped_grouped (e : Expr) : e.grouped.Grouped := by
  induction e using induct with
  | step e ih =>
    rw [grouped_eq, grouped_iff]
    intro i y hy
    simp only [child?, Shape.child?_mapIdx, Option.map_eq_some_iff, Shape.wraps_mapIdx] at hy ⊢
    obtain ⟨x, hx, rfl⟩ := hy
    refine ⟨?_, wrappedIf_grouped (ih x (Shape.mem_children.2 ⟨i, hx⟩))⟩
    cases h : e.shape.wraps i x
    · rw [wrappedIf, if_neg (by simp), Shape.wraps_congr _ _ (precedence_grouped x), h]
    · exact Shape.wraps_primary _ _ rfl

theorem Grouped.grouped_eq_self {e : Expr} (h : e.Grouped) : e.grouped = e := by
  induction e using induct with
  | step e ih =>
    rw [grouped_iff] at h
    have hself : (e.shape.mapIdx fun i x => wrappedIf (e.shape.wraps i x) x.grouped) = e.shape := by
      apply Shape.mapIdx_eq_self
      intro i x hx
      obtain ⟨hw, hg⟩ := h i x hx
      rw [hw, ih x (Shape.mem_children.2 ⟨i, hx⟩) hg]
      rfl
    rw [grouped_eq, hself]
    cases e
    rfl

/-- Grouping passes on what it cannot break: it puts nothing but parentheses into the tree. -/
theorem every_grouped {test : Expr → Prop}
    (hnode : ∀ e : Expr, test e → test ⟨e.span, e.shape.mapIdx fun i x =>
      wrappedIf (e.shape.wraps i x) x.grouped⟩)
    (hparen : ∀ x : Expr, test (paren x)) {e : Expr} (h : e.Every test) :
    e.grouped.Every test := by
  induction e using induct with
  | step e ih =>
    rw [every_iff] at h
    rw [grouped_eq, every_iff]
    refine ⟨hnode e h.1, fun y hy => ?_⟩
    obtain ⟨i, hi⟩ := Shape.mem_children.1 hy
    rw [Shape.child?_mapIdx, Option.map_eq_some_iff] at hi
    obtain ⟨x, hx, rfl⟩ := hi
    have hmem : x ∈ e.children := Shape.mem_children.2 ⟨i, hx⟩
    have hgood := ih x hmem (h.2 x hmem)
    cases e.shape.wraps i x
    · exact hgood
    · exact every_paren.2 ⟨hparen _, hgood⟩

theorem Lexical.grouped {e : Expr} (h : e.Lexical) : e.grouped.Lexical := by
  refine every_grouped (fun e he => ?_) (fun _ => rfl) h
  cases hs : e.shape <;> simp_all [Shape.mapIdx, Shape.isLexical]

theorem isLiteral_grouped (e : Expr) : e.grouped.shape.isLiteral = e.shape.isLiteral := by
  rw [grouped_eq]
  cases e.shape <;> rfl

theorem isSeparated_grouped {s : Shape Expr} (h : s.isSeparated = true) :
    (s.mapIdx fun i x => wrappedIf (s.wraps i x) x.grouped).isSeparated = true := by
  cases s with
  | dot x n =>
    simp only [Shape.isSeparated, Shape.mapIdx] at h ⊢
    cases (Shape.dot x n).wraps 0 x
    · simpa [wrappedIf, isLiteral_grouped] using h
    · rfl
  | _ => rfl

theorem Separated.grouped {e : Expr} (h : e.Separated) : e.grouped.Separated :=
  every_grouped (fun _ => isSeparated_grouped) (fun _ => rfl) h

theorem grouped_of_isLoad {e : Expr} (h : e.isLoad = true) : e.Grouped := by
  rw [grouped_iff]
  intro i x hx
  obtain ⟨origin, value, bindings, hshape, -⟩ := isLoad_iff.1 h
  have hchildren := isLoad_children h x (Shape.mem_children.2 ⟨i, hx⟩)
  refine ⟨?_, ?_⟩
  · rw [hshape]
    rfl
  · obtain ⟨s, shape⟩ := x
    exact grouped_leaf hchildren

theorem Writable.grouped {e : Expr} (h : e.Writable) : e.grouped.Writable := by
  rcases h with h | ⟨hl, hs⟩
  · rw [(grouped_of_isLoad h).grouped_eq_self]
    exact .inl h
  · exact .inr ⟨hl.grouped, hs.grouped⟩

end Expr
end BuildScript
