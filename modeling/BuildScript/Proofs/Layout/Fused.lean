import BuildScript.Proofs.Expr.Strip
import BuildScript.Proofs.Layout.Spelled

/-!
Names that hang on a number. A dot right behind a number belongs to the number, so the text of such
a tree is the text of another one, in which number, dot and name are one number (`spelled_fused`).
The other tree is not the same without parentheses if there was such a name (`separated_of_fused`).
-/
namespace BuildScript
open Lexeme

namespace Expr

def fuse (s : Option Span) : Shape Expr → Expr
  | .dot ⟨_, .literal t⟩ n => ⟨s, .literal (t ++ "." ++ n)⟩
  | shape => ⟨s, shape⟩

/-- The tree with each name that hangs on a number as a part of that number. -/
def fused : Expr → Expr := fold fun e below => fuse e.span below

theorem fused_eq (e : Expr) : e.fused = fuse e.span (e.shape.map fused) := fold_eq _ e

theorem fuse_cases (s : Option Span) (shape : Shape Expr) :
    (∃ s' t n, shape = .dot ⟨s', .literal t⟩ n ∧ fuse s shape = ⟨s, .literal (t ++ "." ++ n)⟩) ∨
      shape.isSeparated = true ∧ fuse s shape = ⟨s, shape⟩ := by
  cases shape with
  | dot x n =>
    obtain ⟨s', shape⟩ := x
    cases shape with
    | literal t => exact .inl ⟨s', t, n, rfl, rfl⟩
    | _ => exact .inr ⟨rfl, rfl⟩
  | _ => exact .inr ⟨rfl, rfl⟩

theorem fused_cases (e : Expr) :
    (∃ s t x n, e.shape = .dot x n ∧ x.fused = ⟨s, .literal t⟩ ∧
      e.fused = ⟨e.span, .literal (t ++ "." ++ n)⟩) ∨
    (e.shape.map fused).isSeparated = true ∧ e.fused = ⟨e.span, e.shape.map fused⟩ := by
  rw [fused_eq]
  rcases fuse_cases e.span (e.shape.map fused) with ⟨s, t, n, hshape, hfuse⟩ | h
  · left
    cases he : e.shape with
    | dot x m =>
      rw [he] at hshape
      simp only [Shape.map, Shape.dot.injEq] at hshape
      obtain ⟨hx, rfl⟩ := hshape
      exact ⟨s, t, x, m, rfl, hx, he ▸ hfuse⟩
    | _ =>
      rw [he] at hshape
      cases hshape
  · exact .inr h

@[simp] theorem precedence_fused (e : Expr) : e.fused.precedence = e.precedence := by
  rcases fused_cases e with ⟨s, t, x, n, hshape, -, h⟩ | ⟨-, h⟩
  · rw [h, precedence, precedence, hshape]
  · rw [h, precedence, precedence]
    cases e.shape <;> rfl

theorem separated_fused (e : Expr) : e.fused.Separated := by
  induction e using induct with
  | step e ih =>
    rcases fused_cases e with ⟨s, t, x, n, -, -, h⟩ | ⟨hsep, h⟩
    · rw [h]
      exact every_literal.2 rfl
    · rw [h]
      refine every_iff.2 ⟨hsep, fun y hy => ?_⟩
      rw [children, Shape.children_map] at hy
      obtain ⟨x, hx, rfl⟩ := List.mem_map.1 hy
      exact ih x hx

theorem every_fused {test : Expr → Prop} (hnode : ∀ e, test e → test ⟨e.span, e.shape.map fused⟩)
    (hnumber : ∀ (e : Expr) (t : String), test e → test ⟨e.span, .literal t⟩) {e : Expr}
    (h : e.Every test) : e.fused.Every test := by
  induction e using induct with
  | step e ih =>
    obtain ⟨htest, hbelow⟩ := every_iff.1 h
    rcases fused_cases e with ⟨s, t, x, n, -, -, he⟩ | ⟨-, he⟩
    · rw [he]
      exact every_literal.2 (hnumber e _ htest)
    · rw [he]
      refine every_iff.2 ⟨hnode e htest, fun y hy => ?_⟩
      rw [children, Shape.children_map] at hy
      obtain ⟨x, hx, rfl⟩ := List.mem_map.1 hy
      exact ih x hx (hbelow x hx)

theorem Separated.fused_eq_self {e : Expr} (h : e.Separated) : e.fused = e := by
  induction e using induct with
  | step e ih =>
    obtain ⟨hnode, hbelow⟩ := every_iff.1 h
    have hself : e.shape.map fused = e.shape := by
      rw [Shape.map_congr fun c hc => ih c hc (hbelow c hc), Shape.map_id]
    rw [fused_eq, hself]
    rcases fuse_cases e.span e.shape with ⟨s, t, n, hshape, -⟩ | ⟨-, hfuse⟩
    · rw [hshape] at hnode
      cases hnode
    · rw [hfuse]
      cases e
      rfl

theorem isNumber_fused {t n : String} (ht : isNumber t = true) (hn : isName n = true) :
    isNumber (t ++ "." ++ n) = true := by
  obtain ⟨d, ds, ht, hd, hds⟩ := isNumber_iff.1 ht
  obtain ⟨x, xs, hx, hstart, hxs⟩ := isWord_iff.1 (isName_iff.1 hn).1
  refine isNumber_iff.2 ⟨d, ds ++ '.' :: x :: xs, ?_, hd, ?_⟩
  · simp [String.toList_append, ht, hx]
  · simp only [List.forall_mem_append, List.forall_mem_cons]
    exact ⟨hds, by decide, isNumberChar_of_nameChar (isNameChar_of_start hstart),
      fun y hy => isNumberChar_of_nameChar (hxs y hy)⟩

theorem Lexical.fused {e : Expr} (h : e.Lexical) : e.fused.Lexical := by
  induction e using induct with
  | step e ih =>
    obtain ⟨hnode, hbelow⟩ := every_iff.1 h
    rcases fused_cases e with ⟨s, t, x, n, hshape, hx, he⟩ | ⟨-, he⟩
    · have hmem : x ∈ e.children := by simp [children, hshape, Shape.children]
      have hnumber := ih x hmem (hbelow x hmem)
      rw [hx] at hnumber
      rw [hshape] at hnode
      rw [he]
      exact every_literal.2 (isNumber_fused (every_literal.1 hnumber) hnode)
    · rw [he]
      refine every_iff.2 ⟨?_, fun y hy => ?_⟩
      · cases hs : e.shape <;> simp_all [Shape.map, Shape.isLexical]
      · rw [children, Shape.children_map] at hy
        obtain ⟨x, hx, rfl⟩ := List.mem_map.1 hy
        exact ih x hx (hbelow x hx)

/-- Grouping and fusing do not meet: no number and no name behind a dot gets parentheses. -/
theorem fused_grouped (e : Expr) : e.grouped.fused = e.fused.grouped := by
  induction e using induct with
  | step e ih =>
    have hwrapped (b : Bool) (x : Expr) : (wrappedIf b x).fused = wrappedIf b x.fused := by
      cases b <;> rfl
    have hbelow : e.grouped.shape.map fused = (e.shape.map fused).mapIdx fun i x =>
        wrappedIf ((e.shape.map fused).wraps i x) x.grouped := by
      rw [grouped_eq, Shape.map_mapIdx, Shape.mapIdx_map]
      apply Shape.mapIdx_congr
      intro i x hx
      rw [hwrapped, ih x (Shape.mem_children.2 ⟨i, hx⟩), Shape.wraps_map,
        Shape.wraps_congr _ _ (precedence_fused x)]
    have hspan : e.grouped.span = e.span := by rw [grouped_eq]
    rw [fused_eq, hbelow, hspan]
    rcases fused_cases e with ⟨s, t, x, n, hshape, hx, he⟩ | ⟨hsep, he⟩
    · rw [he, hshape]
      simp only [Shape.map, hx]
      rfl
    · rw [he, grouped_eq]
      rcases fuse_cases e.span ((e.shape.map fused).mapIdx fun i x =>
        wrappedIf ((e.shape.map fused).wraps i x) x.grouped) with ⟨s, t, n, hshape, -⟩ | ⟨-, hfuse⟩
      · have := isSeparated_grouped hsep
        rw [hshape] at this
        cases this
      · exact hfuse

theorem spelled_fused (indent : Indentation) {e : Expr} (h : e.Lexical) (level : Nat) :
    e.fused.spelled indent level = e.spelled indent level := by
  induction e using induct generalizing level with
  | step e ih =>
    obtain ⟨hnode, hbelow⟩ := every_iff.1 h
    have ih (c : Expr) (hc : c ∈ e.children) : c.fused.spelled indent = c.spelled indent :=
      funext (ih c hc (hbelow c hc))
    rcases fused_cases e with ⟨s, t, x, n, hshape, hx, he⟩ | ⟨-, he⟩
    · have htext := ih x (by simp [children, hshape, Shape.children])
      obtain ⟨s', shape⟩ := e
      obtain rfl : shape = .dot x n := hshape
      rw [he, spelled_dot, ← htext, hx, spelled_literal, spelled_literal]
      simp [String.toList_append]
    · rw [he]
      exact spelled_map indent (by
        obtain ⟨s, shape⟩ := e
        exact hnode) ih level

theorem Legible.fused {e : Expr} (h : e.Legible) : e.fused.Writable := by
  rcases h with h | h
  · rw [(separated_of_isLoad h).fused_eq_self]
    exact .inl h
  · exact .inr ⟨h.fused, separated_fused e⟩

theorem Legible.spelled_fused (indent : Indentation) {e : Expr} (h : e.Legible) (level : Nat) :
    e.fused.grouped.spelled indent level = e.grouped.spelled indent level := by
  rcases h with h | h
  · rw [(separated_of_isLoad h).fused_eq_self]
  · rw [← fused_grouped, Expr.spelled_fused indent h.grouped]

/-- Fusing changes what is left without parentheses, unless there was nothing to fuse. -/
theorem separated_of_fused {e : Expr} (h : e.fused.strip.eraseSpans = e.strip.eraseSpans) :
    e.Separated := by
  induction e using induct with
  | step e ih =>
    rcases fused_cases e with ⟨s, t, x, n, hshape, hx, he⟩ | ⟨hsep, he⟩
    · rw [he, strip_of_not_paren rfl, strip_of_not_paren (by rw [hshape]; rfl), hshape,
        eraseSpans_eq, eraseSpans_eq] at h
      cases h
    · rcases paren_or_strip e with ⟨s, x, rfl⟩ | ⟨hparen, hstrip⟩
      · rw [he] at h
        exact every_paren.2 ⟨rfl, ih x (by simp [children, Shape.children]) h⟩
      · rw [he, strip_of_not_paren ((Shape.isParen_map _ _).trans hparen), hstrip, eraseSpans_eq,
          eraseSpans_eq] at h
        have hchildren := congrArg children h
        simp only [children, Shape.children_map, List.map_map] at hchildren
        refine every_iff.2 ⟨?_, fun c hc => ih c hc (List.map_inj_left.1 hchildren c hc)⟩
        cases hshape : e.shape with
        | dot x n =>
          rw [hshape] at hsep
          cases hx : x.shape with
          | literal t =>
            rw [Shape.map, fused_eq x, hx] at hsep
            cases hsep
          | _ => simp [Shape.isSeparated, hx, Shape.isLiteral]
        | _ => rfl

end Expr
end BuildScript
